import SystemsPrep.Dma.EndToEnd
import SystemsPrep.Dma.MemoryLaw

/-!
How doorbells and callbacks group the submissions does not matter.

The reference is a device that takes a list of submissions one by one: a fold, in which
there are no rings, no doorbells and no callbacks. Every run of the engine is at each moment
where the fold is after the submissions whose transfer is over; so two runs that have
completed the same submissions are in the same state, however the work was cut into batches.
-/

namespace SystemsPrep.Dma

open Base

/-! ### The device as a fold over submissions -/

structure Data where
  devBuf : ℕ → Byte
  mem : Mem

/-- How a data transfer ends, as its address, length and direction (and the bytes it is to
move) determine it. -/
abbrev Outcomes := Addr → ℕ → Bool → List Byte → DmaResult

namespace Data

def source (d : Data) (sqe : Sqe) : List Byte :=
  if sqe.op = opTx then d.mem.read sqe.bufAddr (clampLen sqe.len).toNat
  else (List.range (clampLen sqe.len).toNat).map d.devBuf

def result (f : Outcomes) (d : Data) (sqe : Sqe) : DmaResult :=
  f sqe.bufAddr (clampLen sqe.len).toNat (sqe.op = opTx) (d.source sqe)

def process (f : Outcomes) (d : Data) (sqe : Sqe) : Data :=
  if sqe.op = opTx then
    { d with devBuf := dmaReadBuf d.mem sqe.bufAddr (clampLen sqe.len) d.devBuf (d.result f sqe) }
  else if sqe.op = opRx then
    { d with mem := dmaWriteBuf d.mem sqe.bufAddr (clampLen sqe.len) d.devBuf (d.result f sqe) }
  else d

def processAll (f : Outcomes) (d : Data) (sqes : List Sqe) : Data := sqes.foldl (process f) d

def completions (f : Outcomes) (d : Data) : List Sqe → List Cqe
  | [] => []
  | sqe :: sqes => completion sqe (d.result f sqe).failed :: completions f (d.process f sqe) sqes

theorem processAll_concat (f : Outcomes) (d : Data) (sqes : List Sqe) (sqe : Sqe) :
    d.processAll f (sqes ++ [sqe]) = (d.processAll f sqes).process f sqe :=
  List.foldl_append ..

theorem completions_concat (f : Outcomes) (d : Data) (sqes : List Sqe) (sqe : Sqe) :
    d.completions f (sqes ++ [sqe]) =
      d.completions f sqes ++ [completion sqe ((d.processAll f sqes).result f sqe).failed] := by
  induction sqes generalizing d with
  | nil => rfl
  | cons s sqes ih => rw [List.cons_append, completions, ih, completions]; rfl

/-- The device buffers are the same, and memory is where `B` holds. -/
structure Agree (B : Addr → Prop) (d d' : Data) : Prop where
  devBuf : d.devBuf = d'.devBuf
  mem : ∀ a, B a → d.mem a = d'.mem a

section Agree

variable {B : Addr → Prop} {d d' : Data} {f : Outcomes} {sqe : Sqe}

theorem Agree.source (h : Agree B d d') (hbuf : ∀ a, sqe.InBuffer a → B a) :
    d.source sqe = d'.source sqe := by
  rw [Data.source, Data.source, h.devBuf]
  congr 1
  exact Mem.read_congr fun i hi => h.mem _ (hbuf _ (covers_add hi))

theorem Agree.result (h : Agree B d d') (hbuf : ∀ a, sqe.InBuffer a → B a) :
    d.result f sqe = d'.result f sqe := by
  rw [Data.result, Data.result, h.source hbuf]

theorem dmaReadBuf_congr {m m' : Mem} (hm : ∀ a, sqe.InBuffer a → m a = m' a) (buf : ℕ → Byte)
    (r : DmaResult) :
    dmaReadBuf m sqe.bufAddr (clampLen sqe.len) buf r =
      dmaReadBuf m' sqe.bufAddr (clampLen sqe.len) buf r := by
  cases r with
  | ok =>
      funext i
      rw [dmaReadBuf_ok, dmaReadBuf_ok]
      by_cases hi : i < (clampLen sqe.len).toNat
      · rw [if_pos hi, if_pos hi, hm _ (covers_add hi)]
      · rw [if_neg hi, if_neg hi]
  | error landed => rfl

theorem dmaWriteBuf_congr_at {m m' : Mem} {addr a : Addr} (ha : m a = m' a) (len : Word)
    (buf : ℕ → Byte) (r : DmaResult) :
    dmaWriteBuf m addr len buf r a = dmaWriteBuf m' addr len buf r a := by
  cases r with
  | ok => simp only [dmaWriteBuf, Mem.patch, ha]
  | error landed => simp only [dmaWriteBuf, Mem.patch, ha]

theorem Agree.process (h : Agree B d d') (hbuf : ∀ a, sqe.InBuffer a → B a) :
    Agree B (d.process f sqe) (d'.process f sqe) := by
  have hresult : d.result f sqe = d'.result f sqe := h.result hbuf
  by_cases htx : sqe.op = opTx
  · simp only [Data.process, htx, if_true, hresult, h.devBuf]
    exact ⟨dmaReadBuf_congr (fun a ha => h.mem a (hbuf a ha)) _ _, h.mem⟩
  · by_cases hrx : sqe.op = opRx
    · simp only [Data.process, hrx, if_true, if_false, opRx_ne_opTx, hresult, h.devBuf]
      exact ⟨rfl, fun a ha => dmaWriteBuf_congr_at (h.mem a ha) _ _ _⟩
    · simp only [Data.process, htx, hrx, if_false]
      exact h

end Agree

end Data

/-! ### A run and the fold -/

def World.data (w : World) : Data := ⟨w.dev.devBuf, w.mem⟩

def World.transferred (w : World) : List Sqe := w.fetched.take w.failures.length

def Driver.stored : Driver → List Sqe
  | .advanceTail sqe => [sqe]
  | _ => []

/-- The data transfer of this step ends as `f` determines, if it makes one. -/
def Determined (f : Outcomes) (w : World) (a : Action) (_ : World) : Prop :=
  ∀ r sqe, a = .device r → w.callback = .transfer sqe → sqe.op = opTx ∨ sqe.op = opRx →
    r = w.data.result f sqe

/-- What the next step of the callback posts to the completion ring, and where. -/
def World.toPost (w : World) : List (Addr × Cqe) :=
  match w.callback with
  | .writeCqe cqe => [(w.dev.cqeAddr, cqe)]
  | _ => []

def notePosting (w : World) (a : Action) (_ : World) : List (Addr × Cqe) :=
  match a with
  | .device _ => w.toPost
  | _ => []

def postings (w : World) (as : List Action) : List (Addr × Cqe) := record step notePosting w as

def Engine.slotted (e : Engine) (cqes : List Cqe) : List (Addr × Cqe) :=
  cqes.zipIdx.map fun x => (cqeLayout.slotAddr e.cq (x.2 % e.cqDepth.toNat), x.1)

theorem slotted_concat (e : Engine) (cqes : List Cqe) (cqe : Cqe) :
    e.slotted (cqes ++ [cqe]) =
      e.slotted cqes ++ [(cqeLayout.slotAddr e.cq (cqes.length % e.cqDepth.toNat), cqe)] := by
  simp [Engine.slotted, List.zipIdx_append]

theorem data_dataDma {f : Outcomes} {w : World} {sqe : Sqe} {r : DmaResult}
    (hr : sqe.op = opTx ∨ sqe.op = opRx → r = w.data.result f sqe) :
    (⟨(dataDma w.dev w.mem sqe r).1.devBuf, (dataDma w.dev w.mem sqe r).2.1⟩ : Data) =
      w.data.process f sqe := by
  by_cases htx : sqe.op = opTx
  · rw [dataDma_tx htx, hr (Or.inl htx)]
    simp only [Data.process, htx, if_true]
    rfl
  · by_cases hrx : sqe.op = opRx
    · rw [dataDma_rx hrx, hr (Or.inr hrx)]
      simp only [Data.process, hrx, if_true, if_false, opRx_ne_opTx]
      rfl
    · rw [dataDma_unknown htx hrx]
      simp only [Data.process, htx, hrx, if_false]
      rfl

theorem completion_congr {f : Outcomes} {d : Data} {sqe : Sqe} {r : DmaResult}
    (hr : sqe.op = opTx ∨ sqe.op = opRx → r = d.result f sqe) :
    completion sqe r.failed = completion sqe (d.result f sqe).failed := by
  by_cases hop : sqe.op = opTx ∨ sqe.op = opRx
  · rw [hr hop]
  · rw [completion, completion, if_neg hop, if_neg hop]

/-- The run is where the fold from `d` is after the submissions whose transfer is over, and
the two rings hold what went into them. `B` are the addresses that nobody but the data
transfers writes to. -/
structure Folded (f : Outcomes) (e : Engine) (B : Addr → Prop) (d : Data) (w : World)
    (posts : List (Addr × Cqe)) : Prop where
  data : Data.Agree B w.data (d.processAll f w.transferred)
  completions : d.completions f w.transferred = w.posted ++ w.callback.held
  sqRing : ∀ a, e.InSq a → w.mem a =
    sqeLayout.storeAll d.mem e.sq e.sqDepth.toNat (w.accepted ++ w.driver.stored) a
  cqRing : ∀ a, e.InCq a → w.mem a =
    cqeLayout.storeAll d.mem e.cq e.cqDepth.toNat w.written a
  posts : posts = e.slotted w.written

section Steps

variable {f : Outcomes} {e : Engine} {B : Addr → Prop} {d : Data} {w w' : World}
  {posts : List (Addr × Cqe)}

theorem Folded.same (h : Folded f e B d w posts) (hbuf : w'.dev.devBuf = w.dev.devBuf)
    (hmem : ∀ a, B a ∨ e.InSq a ∨ e.InCq a → w'.mem a = w.mem a)
    (htrans : w'.transferred = w.transferred)
    (hheld : w'.posted ++ w'.callback.held = w.posted ++ w.callback.held)
    (hwritten : w'.written = w.written)
    (hstored : w'.accepted ++ w'.driver.stored = w.accepted ++ w.driver.stored) :
    Folded f e B d w' posts where
  data := by
    rw [htrans]
    exact ⟨hbuf.trans h.data.devBuf, fun a ha => (hmem a (Or.inl ha)).trans (h.data.mem a ha)⟩
  completions := by rw [htrans, hheld]; exact h.completions
  sqRing a ha := by rw [hstored, hmem a (Or.inr (Or.inl ha))]; exact h.sqRing a ha
  cqRing a ha := by rw [hwritten, hmem a (Or.inr (Or.inr ha))]; exact h.cqRing a ha
  posts := by rw [hwritten]; exact h.posts

theorem stored_submitCheck (e : Engine) (sqe : Sqe) (head : Word) :
    (e.submitCheck sqe head).stored = [] := by
  rw [Engine.submitCheck]
  split <;> rfl

theorem stored_drainCheck (e : Engine) (max : BitVec 64) (cqTail : Word) :
    (e.drainCheck max cqTail).stored = [] := by
  rw [Engine.drainCheck]
  split <;> rfl

theorem stored_of_outside {dr : Driver} (h : dr.outside = true) : dr.stored = [] := by
  cases dr with
  | idle => rfl
  | returned ret => rfl
  | _ => cases h

theorem stored_of_entry {a : Action} {dr : Driver} (h : a.entry = some dr) : dr.stored = [] := by
  cases a <;> cases h <;> rfl

theorem notePosting_of_entry {a : Action} {dr : Driver} (h : a.entry = some dr) (w w' : World) :
    notePosting w a w' = [] := by
  cases a <;> cases h <;> rfl

/-- The SQE goes to the slot of the next submission. -/
theorem Folded.writeSlot (hB : ∀ a, B a → ¬ e.InSq a ∧ ¬ e.InCq a) (hc : Completion e w)
    (h : Folded f e B d w posts) {sqe : Sqe} {tail : Word} (hd : w.driver = .writeSlot sqe tail) :
    Folded f e B d { w with
      mem := w.mem.write (w.eng.sqSlot tail) (sqeLayout.bytes sqe)
      driver := .advanceTail sqe } posts := by
  have hsub := hc.submission
  have hsubmit := hsub.submit
  have hsq := h.sqRing
  rw [hd] at hsubmit hsq
  obtain ⟨-, rfl, -⟩ := hsubmit
  have hpos := Nat.pos_of_isPowerOfTwo hc.wellFormed.sqDepth
  have hmem : w.mem.write (w.eng.sqSlot w.eng.sqTail) (sqeLayout.bytes sqe) =
      sqeLayout.store w.mem e.sq (w.accepted.length % e.sqDepth.toNat) sqe := by
    rw [hsub.sqTail, hsub.rings.sqSlot_ofNat hc.wellFormed.sqDepth]
    rfl
  have houtside : ∀ a, ¬ e.InSq a →
      w.mem.write (w.eng.sqSlot w.eng.sqTail) (sqeLayout.bytes sqe) a = w.mem a := by
    intro a ha
    rw [hmem]
    exact Layout.store_of_not_covers (Nat.mod_lt _ hpos) ha
  exact
    { h with
      data := ⟨h.data.devBuf, fun a ha => (houtside a (hB a ha).1).trans (h.data.mem a ha)⟩
      sqRing := by
        intro a ha
        change w.mem.write _ _ a = sqeLayout.storeAll _ _ _ (w.accepted ++ [sqe]) a
        rw [hmem, Layout.storeAll_concat]
        exact Layout.store_congr ((hsq a ha).trans (by rw [Driver.stored, List.append_nil]; nofun))
      cqRing := fun a ha => (houtside a fun hin => hc.wellFormed.apart a hin ha).trans
        (h.cqRing a ha) }

theorem Folded.driverMove (hB : ∀ a, B a → ¬ e.InSq a ∧ ¬ e.InCq a) (hc : Completion e w)
    (h : Folded f e B d w posts) (hm : DriverMove w w') : Folded f e B d w' posts := by
  cases hm with
  | readHead sqe hd =>
      refine h.same rfl (fun _ _ => rfl) rfl rfl rfl ?_
      rw [hd, stored_submitCheck]
      rfl
  | writeSlot sqe tail hd => exact h.writeSlot hB hc hd
  | advanceTail sqe hd =>
      refine h.same rfl (fun _ _ => rfl) rfl rfl rfl ?_
      rw [hd]
      exact List.append_nil _
  | writeDoorbell hd =>
      refine h.same rfl (fun _ _ => rfl) rfl rfl rfl ?_
      rw [hd]
      rfl
  | readTail max hd =>
      refine h.same rfl (fun _ _ => rfl) rfl rfl rfl ?_
      rw [hd, stored_drainCheck]
      rfl
  | copy cqHead n out hd hn =>
      refine h.same rfl (fun _ _ => rfl) rfl rfl rfl ?_
      rw [hd]
      rfl
  | finish cqHead n out hd hn =>
      refine h.same rfl (fun _ _ => rfl) rfl rfl rfl ?_
      rw [hd]
      rfl

theorem transferred_concat (hc : Completion e w) {r : DmaResult} {sqe : Sqe}
    (hcb : w.callback = .transfer sqe) (hs : deviceStep w r = some w') :
    w'.transferred = w.transferred ++ [sqe] := by
  have hfetch := hc.submission.fetch
  have hfail := hc.posting.failures
  rw [hcb] at hfetch hfail
  obtain ⟨hlen, -, hsqe⟩ := hfetch
  have hfail' : w.failures.length = w.posted.length := hfail
  have hlast := List.take_add_one (l := w.fetched) (i := w.posted.length)
  rw [hsqe] at hlast
  rw [deviceStep_transfer hcb hs]
  simp only [World.transferred, List.length_append, hfail', List.length_singleton]
  exact hlast

/-- The transfer of the submission just fetched is the next step of the fold. -/
theorem Folded.transfer (hc : Completion e w) (h : Folded f e B d w posts)
    (hB : ∀ a, B a → ¬ e.InSq a ∧ ¬ e.InCq a)
    (hbuffers : ∀ s ∈ w.accepted, ∀ a, s.InBuffer a → B a) {r : DmaResult} {sqe : Sqe}
    (hcb : w.callback = .transfer sqe)
    (hr : sqe.op = opTx ∨ sqe.op = opRx → r = w.data.result f sqe)
    (hs : deviceStep w r = some w') : Folded f e B d w' posts := by
  have hw' := deviceStep_transfer hcb hs
  have hfetch := hc.submission.fetch
  rw [hcb] at hfetch
  have hmem : sqe ∈ w.accepted := hc.submission.fifo.subset (List.mem_of_getElem? hfetch.2.2)
  have hin := hbuffers sqe hmem
  have htrans := transferred_concat hc hcb hs
  have hdata : w'.data = w.data.process f sqe := by
    rw [← data_dataDma hr, World.data, hw']
  have hagree := h.data.process (f := f) hin
  -- a data buffer does not meet the rings
  have hrings : ∀ a, e.InSq a ∨ e.InCq a → w'.mem a = w.mem a := by
    intro a ha
    rw [hw']
    refine dataDma_mem w.dev w.mem sqe r fun hbuf => ?_
    rcases ha with ha | ha
    · exact (hB a (hin a hbuf)).1 ha
    · exact (hB a (hin a hbuf)).2 ha
  have hcompletions := h.completions
  rw [hcb] at hcompletions
  have hwritten : w'.written = w.written := by
    rw [World.written, World.written, hw', hcb]
    rfl
  exact
    { data := by
        rw [htrans, Data.processAll_concat, hdata]
        exact hagree
      completions := by
        rw [htrans, Data.completions_concat, hcompletions, hw',
          completion_congr (d := w.data) hr, h.data.result hin]
        exact congrArg (· ++ _) (List.append_nil _)
      sqRing := by
        intro a ha
        rw [hrings a (Or.inl ha), hw']
        exact h.sqRing a ha
      cqRing := by
        intro a ha
        rw [hrings a (Or.inr ha), hwritten]
        exact h.cqRing a ha
      posts := by rw [hwritten]; exact h.posts }

/-- The CQE goes to the slot of the next completion. -/
theorem Folded.writeCqe (hB : ∀ a, B a → ¬ e.InSq a ∧ ¬ e.InCq a) (hc : Completion e w)
    (h : Folded f e B d w posts) {cqe : Cqe} (hcb : w.callback = .writeCqe cqe) :
    Folded f e B d { w with
      callback := .advance cqe
      mem := w.mem.write w.dev.cqeAddr (cqeLayout.bytes cqe) }
      (posts ++ [(w.dev.cqeAddr, cqe)]) := by
  have hsub := hc.submission
  -- the device computes the address from its own copy of the tail
  have haddr : w.dev.cqeAddr = cqeLayout.slotAddr e.cq (w.posted.length % e.cqDepth.toNat) := by
    rw [cqeAddr_eq, hsub.rings.devCq, hsub.rings.devCqDepth, hsub.cqTail,
      toNat_ofNat_and_sub_one hc.cqDepth]
  have hmem : w.mem.write w.dev.cqeAddr (cqeLayout.bytes cqe) =
      cqeLayout.store w.mem e.cq (w.posted.length % e.cqDepth.toNat) cqe := by
    rw [haddr]
    rfl
  have houtside : ∀ a, ¬ e.InCq a →
      w.mem.write w.dev.cqeAddr (cqeLayout.bytes cqe) a = w.mem a := by
    intro a ha
    rw [hmem]
    exact Layout.store_of_not_covers (Nat.mod_lt _ hc.cqDepth_pos) ha
  have hwritten : w.written = w.posted := by
    rw [World.written, hcb]
    exact List.append_nil _
  have hcompletions := h.completions
  rw [hcb] at hcompletions
  exact
    { data := ⟨h.data.devBuf, fun a ha => (houtside a (hB a ha).2).trans (h.data.mem a ha)⟩
      completions := hcompletions
      sqRing := fun a ha => (houtside a (hc.wellFormed.apart a ha)).trans (h.sqRing a ha)
      cqRing := by
        intro a ha
        change w.mem.write _ _ a = cqeLayout.storeAll _ _ _ (w.posted ++ [cqe]) a
        rw [hmem, Layout.storeAll_concat]
        refine Layout.store_congr ?_
        rw [← hwritten]
        exact h.cqRing a ha
      posts := by
        change _ = e.slotted (w.posted ++ [cqe])
        rw [slotted_concat, h.posts, hwritten, haddr] }

theorem Folded.deviceMove (hB : ∀ a, B a → ¬ e.InSq a ∧ ¬ e.InCq a) (hc : Completion e w)
    (h : Folded f e B d w posts) {r : DmaResult} (hcb : ∀ sqe, w.callback ≠ .transfer sqe)
    (hm : DeviceMove r w w') :
    Folded f e B d w' (posts ++ w.toPost) := by
  have hfetch := hc.submission.fetch
  have hfail := hc.posting.failures
  cases hm with
  | stop didWork hloop htest =>
      obtain ⟨_, _, _, hirq⟩ := raiseIrq_eq didWork w.dev
      rw [World.toPost, hloop, List.append_nil, hirq]
      refine h.same rfl (fun _ _ => rfl) rfl ?_ ?_ rfl
      · rw [hloop]
        rfl
      · rw [World.written, World.written, hloop]
        rfl
  | fetch didWork hloop hne hroom =>
      rw [hloop] at hfetch hfail
      rw [World.toPost, hloop, List.append_nil]
      have hlen : w.failures.length = w.fetched.length := hfail.trans hfetch.symm
      refine h.same rfl (fun _ _ => rfl) ?_ ?_ ?_ rfl
      · rw [World.transferred, World.transferred, hlen]
        exact (List.take_left ..).trans (List.take_length ..).symm
      · rw [hloop]
        rfl
      · rw [World.written, World.written, hloop]
        rfl
  | transfer sqe buf m htransfer hmem => exact absurd htransfer (hcb sqe)
  | writeCqe cqe hwrite =>
      rw [World.toPost, hwrite]
      exact h.writeCqe hB hc hwrite
  | advance cqe hadvance =>
      rw [World.toPost, hadvance, List.append_nil]
      refine h.same rfl (fun _ _ => rfl) rfl ?_ ?_ rfl
      · rw [hadvance]
        exact List.append_nil _
      · rw [World.written, World.written, hadvance]
        exact List.append_nil _

theorem Folded.deviceStep (hB : ∀ a, B a → ¬ e.InSq a ∧ ¬ e.InCq a) (hc : Completion e w)
    (hbuffers : ∀ s ∈ w.accepted, ∀ a, s.InBuffer a → B a) (h : Folded f e B d w posts)
    {r : DmaResult} (hdet : Determined f w (.device r) w') (hs : deviceStep w r = some w') :
    Folded f e B d w' (posts ++ w.toPost) := by
  cases hcb : w.callback with
  | transfer sqe =>
      rw [World.toPost, hcb, List.append_nil]
      exact h.transfer hc hB hbuffers hcb (hdet r sqe rfl hcb) hs
  | _ =>
      refine h.deviceMove hB hc (fun sqe hsqe => ?_) (deviceMove_of_deviceStep hs)
      rw [hcb] at hsqe
      cases hsqe

theorem Folded.step (hB : ∀ a, B a → ¬ e.InSq a ∧ ¬ e.InCq a) (hc : Completion e w)
    (hbuffers : ∀ s ∈ w.accepted, ∀ a, s.InBuffer a → B a) (h : Folded f e B d w posts)
    {a : Action} (ha : a.Apart e) (hhost : ∀ x b, a = .host x b → ¬ B x)
    (hdet : Determined f w a w') (hs : step w a = some w') :
    Folded f e B d w' (posts ++ notePosting w a w') := by
  cases move_of_step hs with
  | enter a dr hentry hout =>
      rw [notePosting_of_entry hentry, List.append_nil]
      refine h.same rfl (fun _ _ => rfl) rfl rfl rfl ?_
      rw [stored_of_outside hout, stored_of_entry hentry]
  | driver w' hm =>
      change Folded f e B d w' (posts ++ [])
      rw [List.append_nil]
      exact h.driverMove hB hc hm
  | timer hcb harmed =>
      change Folded f e B d _ (posts ++ [])
      rw [List.append_nil]
      refine h.same rfl (fun _ _ => rfl) rfl ?_ ?_ rfl
      · rw [hcb]
        rfl
      · rw [World.written, World.written, hcb]
        rfl
  | device r w' hm => exact h.deviceStep hB hc hbuffers hdet hs
  | host x b =>
      change Folded f e B d _ (posts ++ [])
      rw [List.append_nil]
      refine h.same rfl (fun y hin => ?_) rfl rfl rfl rfl
      have hne : y ≠ x := by
        rintro rfl
        rcases hin with hin | hin | hin
        · exact hhost y b rfl hin
        · exact ha.1 hin
        · exact ha.2 hin
      exact Function.update_of_ne hne b w.mem

end Steps

/-! ### What is accepted stays accepted -/

theorem accepted_step {w w' : World} {a : Action} (hs : step w a = some w') :
    w.accepted <+: w'.accepted := by
  cases move_of_step hs with
  | driver w' hm =>
      cases hm with
      | advanceTail sqe hd => exact List.prefix_append _ _
      | _ => exact List.prefix_refl _
  | device r w' hm => cases hm <;> exact List.prefix_refl _
  | enter | timer | host => exact List.prefix_refl _

theorem accepted_exec {w w' : World} {as : List Action} (hw : exec step w as = some w') :
    w.accepted <+: w'.accepted :=
  exec_invariant (I := fun t => w.accepted <+: t.accepted)
    (fun _ _ _ h hs => h.trans (accepted_step hs)) hw (List.prefix_refl _)

theorem accepted_steps {start w : World} {as : List Action} (hw : exec step start as = some w) :
    Steps step (fun t _ _ => t.accepted <+: w.accepted) start as := by
  rintro bs a t t' ⟨cs, rfl⟩ ht hs
  have ht' : exec step start (bs ++ [a]) = some t' := exec_concat_eq_some.mpr ⟨t, ht, hs⟩
  exact (accepted_step hs).trans (accepted_exec (exec_after ht' hw))

/-! ### Runs that have completed everything -/

/-- No submission is half made, the last doorbell has announced every one, and the device
has completed what was announced. -/
structure World.Done (w : World) : Prop where
  stored : w.driver.stored = []
  announced : w.dev.sqTail = w.eng.sqTail
  completed : w.dev.sqHead = w.dev.sqTail

section Done

variable {f : Outcomes} {e : Engine} {B : Addr → Prop} {d : Data} {w : World}
  {posts : List (Addr × Cqe)}

theorem posted_length_of_done (hc : Completion e w) (hdone : w.Done) :
    w.posted.length = w.announced ∧ w.announced = w.accepted.length := by
  have hsub := hc.submission
  have hposted := hsub.sqHead_eq_sqTail_iff.mp hdone.completed
  refine ⟨hposted, ?_⟩
  -- the two tails are less than a lap apart, so equal words are equal counts
  have hle := hsub.announced_le
  have hnear := hsub.near
  have heq := hdone.announced
  rw [hsub.doorbell, hsub.sqTail, eq_comm, ofNat_inj_of_near hle (by omega)] at heq
  exact heq.symm

/-- Then the callback is not in the middle of a submission, and every transfer is over. -/
theorem transferred_of_done (hc : Completion e w) (hdone : w.Done) :
    w.transferred = w.accepted ∧ w.written = w.posted ∧ w.callback.held = [] := by
  obtain ⟨hposted, hannounced⟩ := posted_length_of_done hc hdone
  have hsub := hc.submission
  have hfetch := hsub.fetch
  have hfail := hc.posting.failures
  have hfetched : w.fetched = w.accepted := by
    refine hsub.fifo.eq_of_length ?_
    have := hsub.fetched_le
    omega
  have hheld : w.callback.held = [] ∧ w.callback.posting = [] := by
    cases hcb : w.callback with
    | idle => exact ⟨rfl, rfl⟩
    | loop didWork => exact ⟨rfl, rfl⟩
    | transfer sqe => exact ⟨rfl, rfl⟩
    | writeCqe cqe =>
        rw [hcb] at hfetch
        exact absurd hfetch.2 (by omega)
    | advance cqe =>
        rw [hcb] at hfetch
        exact absurd hfetch.2 (by omega)
  rw [hheld.1] at hfail
  refine ⟨?_, ?_, hheld.1⟩
  · rw [World.transferred, hfetched]
    exact List.take_of_length_le (by simp at hfail; omega)
  · rw [World.written, hheld.2, List.append_nil]

/-- Where the run is then, in terms of the fold over what was accepted. -/
structure AtEnd (f : Outcomes) (e : Engine) (B : Addr → Prop) (d : Data) (w : World)
    (posts : List (Addr × Cqe)) : Prop where
  data : Data.Agree B w.data (d.processAll f w.accepted)
  posted : w.posted = d.completions f w.accepted
  sqRing : ∀ a, e.InSq a → w.mem a =
    sqeLayout.storeAll d.mem e.sq e.sqDepth.toNat w.accepted a
  cqRing : ∀ a, e.InCq a → w.mem a =
    cqeLayout.storeAll d.mem e.cq e.cqDepth.toNat (d.completions f w.accepted) a
  posts : posts = e.slotted (d.completions f w.accepted)
  sqHead : w.dev.sqHead = BitVec.ofNat 32 w.accepted.length
  sqTail : w.dev.sqTail = BitVec.ofNat 32 w.accepted.length
  cqTail : w.dev.cqTail = BitVec.ofNat 32 w.accepted.length

theorem Folded.atEnd (h : Folded f e B d w posts) (hc : Completion e w) (hdone : w.Done) :
    AtEnd f e B d w posts := by
  obtain ⟨hposted, hannounced⟩ := posted_length_of_done hc hdone
  obtain ⟨htrans, hwritten, hheld⟩ := transferred_of_done hc hdone
  have hdata := h.data
  have hcompletions := h.completions
  have hsq := h.sqRing
  have hcq := h.cqRing
  have hposts := h.posts
  rw [htrans] at hdata hcompletions
  rw [hheld, List.append_nil] at hcompletions
  rw [hdone.stored, List.append_nil] at hsq
  rw [hwritten, ← hcompletions] at hcq hposts
  exact
    { data := hdata
      posted := hcompletions.symm
      sqRing := hsq
      cqRing := hcq
      posts := hposts
      sqHead := by rw [hc.submission.sqHead, hposted, hannounced]
      sqTail := by rw [hc.submission.doorbell, hannounced]
      cqTail := by rw [hc.submission.cqTail, hposted, hannounced] }

end Done

/-! ### Two runs -/

/-- A run that completes what it gets accepted. Its data buffers and the writes from elsewhere
are apart from the rings, nobody else writes to the data buffers, and a data transfer ends as
`f` determines. -/
structure Completes (f : Outcomes) (e : Engine) (start : World) (as : List Action) (w : World) :
    Prop where
  run : exec step start as = some w
  apart : ∀ a ∈ as, a.Apart e
  quiet : ∀ s ∈ w.accepted, ∀ x b, .host x b ∈ as → ¬ s.InBuffer x
  determined : Steps step (Determined f) start as
  done : w.Done

variable {f : Outcomes} {d : DmaEngineState} {m : Mem} {sqDma cqDma : Addr} {msi : Bool}
  {sqDepth cqDepth : Word}

theorem folded_create (e : Engine) (B : Addr → Prop) :
    Folded f e B ⟨d.devBuf, m⟩ (.create d m sqDma cqDma msi sqDepth cqDepth) [] where
  data := by
    rw [World.data, World.create, engineCreate_device]
    exact ⟨rfl, fun _ _ => rfl⟩
  completions := rfl
  sqRing _ _ := rfl
  cqRing _ _ := rfl
  posts := rfl

/-- The run lemma: a run that completes everything is where the fold is. -/
theorem Completes.atEnd {as : List Action} {w : World} (hd : d.InStep)
    (hsq : sqDepth.toNat.isPowerOfTwo) (hcq : cqDepth.toNat.isPowerOfTwo)
    (hrings : Apart sqDma (sqDepth.toNat * 24) cqDma (cqDepth.toNat * 16))
    (h : Completes f (engineCreate sqDma cqDma msi d sqDepth cqDepth).1
      (.create d m sqDma cqDma msi sqDepth cqDepth) as w) :
    AtEnd f (engineCreate sqDma cqDma msi d sqDepth cqDepth).1
      (fun a => (¬ (engineCreate sqDma cqDma msi d sqDepth cqDepth).1.InSq a ∧
        ¬ (engineCreate sqDma cqDma msi d sqDepth cqDepth).1.InCq a) ∧ ∀ b, .host a b ∉ as)
      ⟨d.devBuf, m⟩ w (postings (.create d m sqDma cqDma msi sqDepth cqDepth) as) := by
  have hcreate : Completion (engineCreate sqDma cqDma msi d sqDepth cqDepth).1
      (.create d m sqDma cqDma msi sqDepth cqDepth) := completion_create hd hsq hcq hrings
  generalize (engineCreate sqDma cqDma msi d sqDepth cqDepth).1 = e at h hcreate
  -- quiet is about what is accepted in the end, so the steps must not go beyond that
  have hsteps := ((Steps.of_forall_mem (A := fun a => a ∈ as) fun a ha => ha).and
    h.determined).and (accepted_steps h.run)
  have hstep : ∀ t l a t',
      ((a ∈ as ∧ Determined f t a t') ∧ t.accepted <+: w.accepted) →
      (Completion e t ∧
        Folded f e (fun a => (¬ e.InSq a ∧ ¬ e.InCq a) ∧ ∀ b, .host a b ∉ as)
          ⟨d.devBuf, m⟩ t l) →
      step t a = some t' →
      Completion e t' ∧
        Folded f e (fun a => (¬ e.InSq a ∧ ¬ e.InCq a) ∧ ∀ b, .host a b ∉ as)
          ⟨d.devBuf, m⟩ t' (l ++ notePosting t a t') := by
    rintro t l a t' ⟨⟨hmem, hdet⟩, hacc⟩ ⟨hc, hf⟩ hs
    refine ⟨hc.step (h.apart a hmem) hs, ?_⟩
    refine hf.step (fun _ hB => hB.1) hc (fun s hsmem x hbuf => ?_) (h.apart a hmem) ?_ hdet hs
    · exact ⟨hc.submission.buffers s hsmem x hbuf,
        fun b hb => h.quiet s (hacc.subset hsmem) x b hb hbuf⟩
    · rintro x b rfl hB
      exact hB.2 b hmem
  obtain ⟨hc, hf⟩ := hsteps.record_invariant hstep h.run ⟨hcreate, folded_create e _⟩
  exact hf.atEnd hc h.done

/-- **Coalescing doorbells is invisible.** Two runs that complete the same submissions post
the same completions to the same slots and leave the same device buffer, memory and indices,
wherever the doorbells and callbacks are in them. -/
theorem coalescing_invisible {as bs : List Action} {w v : World} (hd : d.InStep)
    (hsq : sqDepth.toNat.isPowerOfTwo) (hcq : cqDepth.toNat.isPowerOfTwo)
    (hrings : Apart sqDma (sqDepth.toNat * 24) cqDma (cqDepth.toNat * 16))
    (hw : Completes f (engineCreate sqDma cqDma msi d sqDepth cqDepth).1
      (.create d m sqDma cqDma msi sqDepth cqDepth) as w)
    (hv : Completes f (engineCreate sqDma cqDma msi d sqDepth cqDepth).1
      (.create d m sqDma cqDma msi sqDepth cqDepth) bs v)
    (haccepted : w.accepted = v.accepted) :
    postings (.create d m sqDma cqDma msi sqDepth cqDepth) as =
        postings (.create d m sqDma cqDma msi sqDepth cqDepth) bs ∧
      w.posted = v.posted ∧ w.dev.devBuf = v.dev.devBuf ∧
      (∀ a, (∀ b, .host a b ∉ as) → (∀ b, .host a b ∉ bs) → w.mem a = v.mem a) ∧
      w.dev.sqHead = v.dev.sqHead ∧ w.dev.sqTail = v.dev.sqTail ∧
      w.dev.cqTail = v.dev.cqTail := by
  have hsw := hw.atEnd hd hsq hcq hrings
  have hsv := hv.atEnd hd hsq hcq hrings
  generalize (engineCreate sqDma cqDma msi d sqDepth cqDepth).1 = e at hsw hsv
  have hmem : ∀ a, (∀ b, .host a b ∉ as) → (∀ b, .host a b ∉ bs) → w.mem a = v.mem a := by
    intro a has hbs
    -- each ring is filled from what was accepted, everything else is the fold's
    by_cases hinSq : e.InSq a
    · rw [hsw.sqRing a hinSq, hsv.sqRing a hinSq, haccepted]
    · by_cases hinCq : e.InCq a
      · rw [hsw.cqRing a hinCq, hsv.cqRing a hinCq, haccepted]
      · have hwa := hsw.data.mem a ⟨⟨hinSq, hinCq⟩, has⟩
        have hva := hsv.data.mem a ⟨⟨hinSq, hinCq⟩, hbs⟩
        rw [haccepted] at hwa
        exact hwa.trans hva.symm
  have hbuf : w.dev.devBuf = v.dev.devBuf := by
    have hwbuf := hsw.data.devBuf
    have hvbuf := hsv.data.devBuf
    rw [haccepted] at hwbuf
    exact hwbuf.trans hvbuf.symm
  refine ⟨?_, ?_, hbuf, hmem, ?_, ?_, ?_⟩
  · rw [hsw.posts, hsv.posts, haccepted]
  · rw [hsw.posted, hsv.posted, haccepted]
  · rw [hsw.sqHead, hsv.sqHead, haccepted]
  · rw [hsw.sqTail, hsv.sqTail, haccepted]
  · rw [hsw.cqTail, hsv.cqTail, haccepted]

def doorbellEach : List Action := completeCall txSqe ++ completeCall rxSqe

def doorbellOnce : List Action :=
  submitCall txSqe ++ submitCall rxSqe ++ [.doorbell, .driver, .timer] ++
    List.replicate 9 (.device .ok)

/-- When no data transfer fails, they all end as determined. -/
theorem determined_of_ok {start : World} {as : List Action}
    (h : ∀ r, .device r ∈ as → r = DmaResult.ok) :
    Steps step (Determined fun _ _ _ _ => .ok) start as := by
  intro bs a t t' hbs ht hs r sqe ha hcb hop
  rw [ha] at hbs
  exact h r (hbs.subset (by simp))

theorem doorbells_apart {e : Engine} (h : txSqe.Apart e ∧ rxSqe.Apart e) :
    (∀ a ∈ doorbellEach, a.Apart e) ∧ ∀ a ∈ doorbellOnce, a.Apart e := by
  constructor <;> simp [doorbellEach, doorbellOnce, completeCall, submitCall, Action.Apart, h]

theorem coalescing_invisible_doorbells :
    ∃ w v,
      exec step (.create .fresh mixedMem 0x1000 0x2000 true 2 2) doorbellEach = some w ∧
      exec step (.create .fresh mixedMem 0x1000 0x2000 true 2 2) doorbellOnce = some v ∧
      w.dev.msiNotified = 2 ∧ v.dev.msiNotified = 1 ∧
      postings (.create .fresh mixedMem 0x1000 0x2000 true 2 2) doorbellEach =
        postings (.create .fresh mixedMem 0x1000 0x2000 true 2 2) doorbellOnce := by
  have hw : exec step (.create .fresh mixedMem 0x1000 0x2000 true 2 2) doorbellEach =
      some _ := rfl
  have hv : exec step (.create .fresh mixedMem 0x1000 0x2000 true 2 2) doorbellOnce =
      some _ := rfl
  obtain ⟨hapart, hapart'⟩ := doorbells_apart
    (e := (engineCreate 0x1000 0x2000 true .fresh 2 2).1)
    (probeSqes_apart rfl rfl (by decide) (by decide))
  refine ⟨_, _, hw, hv, by decide +kernel, by decide +kernel, ?_⟩
  refine (coalescing_invisible (f := fun _ _ _ _ => .ok) inStep_fresh ⟨1, rfl⟩ ⟨1, rfl⟩
    (apart_of_le (by decide) (by decide)) ⟨hw, hapart, ?_, ?_, ?_⟩ ⟨hv, hapart', ?_, ?_, ?_⟩
    (by decide +kernel)).1
  · simp [doorbellEach, completeCall, submitCall]
  · exact determined_of_ok (by simp [doorbellEach, completeCall, submitCall])
  · exact ⟨rfl, by decide +kernel, by decide +kernel⟩
  · simp [doorbellOnce, submitCall]
  · exact determined_of_ok (by simp [doorbellOnce, submitCall])
  · exact ⟨rfl, by decide +kernel, by decide +kernel⟩

end SystemsPrep.Dma
