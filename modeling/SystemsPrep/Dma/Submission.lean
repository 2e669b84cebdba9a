import SystemsPrep.Base.Window
import SystemsPrep.Dma.Moves

/-!
The submission side.

Behind the indices of the two programs stand three counters: the submissions the
driver has accepted, those a doorbell has announced and those the device has
completed. The ring holds the accepted submissions that are not completed yet,
and the device fetches them from there in order.
-/

namespace SystemsPrep.Dma

open Base

/-- An engine whose submission ring is usable and whose two rings are different
memory. -/
structure Engine.WellFormed (e : Engine) : Prop where
  sqDepth : e.sqDepth.toNat.isPowerOfTwo
  cqDepth : e.cqDepth ≠ 0
  apart : ∀ a, e.InSq a → ¬ e.InCq a

theorem engineCreate_wellFormed {d : DmaEngineState} {sqDma cqDma : Addr} {msi : Bool}
    {sqDepth cqDepth : Word} (hsq : sqDepth.toNat.isPowerOfTwo) (hcq : cqDepth ≠ 0)
    (hrings : Apart sqDma (sqDepth.toNat * 24) cqDma (cqDepth.toNat * 16)) :
    (engineCreate sqDma cqDma msi d sqDepth cqDepth).1.WellFormed :=
  ⟨hsq, hcq, hrings⟩

/-! ### The invariant -/

/-- A submission in progress has found room for entry `A`, and its SQE is in the
slot when the tail is about to advance. -/
def SubmitStage (e : Engine) (sqTail : Word) (A P : ℕ) (cell : ℕ → Sqe) : Driver → Prop
  | .readHead sqe => sqe.Apart e
  | .writeSlot sqe tail => sqe.Apart e ∧ tail = sqTail ∧ A < P + e.sqDepth.toNat
  | .advanceTail sqe =>
      sqe.Apart e ∧ A < P + e.sqDepth.toNat ∧ cell (A % e.sqDepth.toNat) = sqe
  | _ => True

theorem submitStage_of_entry {e : Engine} {sqTail : Word} {A P : ℕ} {cell : ℕ → Sqe}
    {a : Action} {d : Driver} (ha : a.Apart e) (h : a.entry = some d) :
    SubmitStage e sqTail A P cell d := by
  cases a with
  | submit sqe => cases h; exact ha
  | doorbell | drain => cases h; trivial
  | driver | timer | device | host => cases h

def FetchStage (fetched : List Sqe) (P N : ℕ) : Callback → Prop
  | .idle | .loop _ => fetched.length = P
  | .transfer sqe => fetched.length = P + 1 ∧ P < N ∧ fetched[P]? = some sqe
  | .writeCqe _ | .advance _ => fetched.length = P + 1 ∧ P < N

structure Submission (e : Engine) (w : World) : Prop where
  rings : OnRings e w
  sqHead : w.dev.sqHead = BitVec.ofNat 32 w.posted.length
  cqTail : w.dev.cqTail = BitVec.ofNat 32 w.posted.length
  doorbell : w.dev.sqTail = BitVec.ofNat 32 w.announced
  sqTail : w.eng.sqTail = BitVec.ofNat 32 w.accepted.length
  posted_le : w.posted.length ≤ w.announced
  announced_le : w.announced ≤ w.accepted.length
  room : w.accepted.length ≤ w.posted.length + e.sqDepth.toNat
  /-- The device fetches what was accepted, in order. -/
  fifo : w.fetched <+: w.accepted
  /-- The ring holds the submissions that are not completed. -/
  window : Window e.sqDepth.toNat (sqeLayout.load w.mem e.sq) w.accepted
    w.posted.length w.accepted.length
  buffers : ∀ s ∈ w.accepted, s.Apart e
  submit : SubmitStage e w.eng.sqTail w.accepted.length w.posted.length
    (sqeLayout.load w.mem e.sq) w.driver
  fetch : FetchStage w.fetched w.posted.length w.announced w.callback
  /-- A device at rest has completed what was announced. -/
  rest : w.callback = .idle → w.dev.timerArmed = false → w.posted.length = w.announced

/-- The device's indices as a new engine expects them. -/
structure DmaEngineState.InStep (d : DmaEngineState) : Prop where
  sqHead : d.sqHead = 0
  sqTail : d.sqTail = 0
  cqTail : d.cqTail = 0

theorem inStep_fresh : DmaEngineState.fresh.InStep := ⟨rfl, rfl, rfl⟩

theorem submission_create {d : DmaEngineState} (hd : d.InStep) (m : Mem) (sqDma cqDma : Addr)
    (msi : Bool) (sqDepth cqDepth : Word) :
    Submission (engineCreate sqDma cqDma msi d sqDepth cqDepth).1
      (.create d m sqDma cqDma msi sqDepth cqDepth) where
  rings := onRings_create ..
  sqHead := by
    rw [World.create, engineCreate_device]
    exact hd.sqHead
  cqTail := by
    rw [World.create, engineCreate_device]
    exact hd.cqTail
  doorbell := by
    rw [World.create, engineCreate_device]
    exact hd.sqTail
  sqTail := rfl
  posted_le := le_rfl
  announced_le := le_rfl
  room := Nat.zero_le _
  fifo := List.prefix_refl _
  window := Window.empty _ _ _ _
  buffers := by simp [World.create]
  submit := trivial
  fetch := rfl
  rest _ _ := rfl

variable {e : Engine} {w w' : World}

theorem SubmitStage.mono {sqTail : Word} {A P P' : ℕ} {cell cell' : ℕ → Sqe} {d : Driver}
    (h : SubmitStage e sqTail A P cell d) (hle : P ≤ P')
    (hcell : ∀ k, cell' (k % e.sqDepth.toNat) = cell (k % e.sqDepth.toNat)) :
    SubmitStage e sqTail A P' cell' d := by
  cases d with
  | writeSlot sqe tail =>
      obtain ⟨hbuf, htail, hroom⟩ := h
      exact ⟨hbuf, htail, by omega⟩
  | advanceTail sqe =>
      obtain ⟨hbuf, hroom, hslot⟩ := h
      exact ⟨hbuf, by omega, (hcell _).trans hslot⟩
  | _ => exact h

theorem FetchStage.mono {fetched : List Sqe} {P N N' : ℕ} {c : Callback}
    (h : FetchStage fetched P N c) (hle : N ≤ N') : FetchStage fetched P N' c := by
  cases c with
  | idle => exact h
  | loop didWork => exact h
  | transfer sqe => exact ⟨h.1, h.2.1.trans_le hle, h.2.2⟩
  | writeCqe cqe => exact ⟨h.1, h.2.trans_le hle⟩
  | advance cqe => exact ⟨h.1, h.2.trans_le hle⟩

namespace Submission

/-! ### What the words say -/

theorem near (h : Submission e w) : w.accepted.length - w.posted.length < 2 ^ 32 := by
  have hroom := h.room
  have hdepth := e.sqDepth.isLt
  omega

theorem toNat_sqTail_sub_sqHead (h : Submission e w) :
    (w.eng.sqTail - w.dev.sqHead).toNat = w.accepted.length - w.posted.length := by
  rw [h.sqTail, h.sqHead, toNat_ofNat_sub (h.posted_le.trans h.announced_le) h.near]

theorem toNat_doorbell_sub_sqHead (h : Submission e w) :
    (w.dev.sqTail - w.dev.sqHead).toNat = w.announced - w.posted.length := by
  have hnear := h.near
  have hle := h.announced_le
  rw [h.doorbell, h.sqHead, toNat_ofNat_sub h.posted_le (by omega)]

theorem sqHead_eq_sqTail_iff (h : Submission e w) :
    w.dev.sqHead = w.dev.sqTail ↔ w.posted.length = w.announced := by
  have hnear := h.near
  have hle := h.announced_le
  have hle' := h.posted_le
  rw [h.doorbell, h.sqHead, eq_comm, ofNat_inj_of_near hle' (by omega), eq_comm]

/-- The device posts a completion for every submission it takes, so its test for
room in the completion ring never fails. -/
theorem not_cqFull (he : e.WellFormed) (h : Submission e w) : w.dev.cqFull = false := by
  apply cqFull_of_eq
  · rw [h.sqHead, h.cqTail]
  · rw [h.rings.devCqDepth]
    exact he.cqDepth

/-- Refused means that the ring is full. -/
theorem submitCheck_eq (h : Submission e w) (sqe : Sqe) :
    w.eng.submitCheck sqe w.dev.sqHead =
      if w.accepted.length = w.posted.length + e.sqDepth.toNat then .returned (.int eagain)
      else .writeSlot sqe w.eng.sqTail := by
  have hroom := h.room
  have hiff : w.eng.sqDepth ≤ w.eng.sqTail - w.dev.sqHead ↔
      w.accepted.length = w.posted.length + e.sqDepth.toNat := by
    rw [BitVec.le_def, h.toNat_sqTail_sub_sqHead, h.rings.sqDepth]
    have := h.posted_le.trans h.announced_le
    omega
  rw [Engine.submitCheck, if_congr hiff rfl rfl]

/-- No submission is fetched before a doorbell announces it. -/
theorem fetched_le (h : Submission e w) :
    w.posted.length ≤ w.fetched.length ∧ w.fetched.length ≤ w.announced := by
  have hfetch := h.fetch
  have hle := h.posted_le
  cases hc : w.callback with
  | idle =>
      rw [hc] at hfetch
      exact ⟨hfetch.ge, hfetch.le.trans hle⟩
  | loop didWork =>
      rw [hc] at hfetch
      exact ⟨hfetch.ge, hfetch.le.trans hle⟩
  | transfer sqe =>
      rw [hc] at hfetch
      exact ⟨by rw [hfetch.1]; exact Nat.le_succ _, hfetch.1.trans_le hfetch.2.1⟩
  | writeCqe cqe =>
      rw [hc] at hfetch
      exact ⟨by rw [hfetch.1]; exact Nat.le_succ _, hfetch.1.trans_le hfetch.2⟩
  | advance cqe =>
      rw [hc] at hfetch
      exact ⟨by rw [hfetch.1]; exact Nat.le_succ _, hfetch.1.trans_le hfetch.2⟩

/-! ### The driver's steps -/

theorem setDriver (h : Submission e w) {d : Driver}
    (hd : SubmitStage e w.eng.sqTail w.accepted.length w.posted.length
      (sqeLayout.load w.mem e.sq) d) : Submission e { w with driver := d } :=
  { h with rings := { h.rings with }, submit := hd }

theorem setMem (he : e.WellFormed) (h : Submission e w) {m : Mem}
    (hm : ∀ a, e.InSq a → m a = w.mem a) : Submission e { w with mem := m } := by
  have hpos := Nat.pos_of_isPowerOfTwo he.sqDepth
  have hload : ∀ k, sqeLayout.load m e.sq (k % e.sqDepth.toNat) =
      sqeLayout.load w.mem e.sq (k % e.sqDepth.toNat) :=
    fun k => Layout.load_congr (Nat.mod_lt k hpos) hm
  exact { h with
    rings := { h.rings with }
    window := h.window.congr fun k _ _ => hload k
    submit := h.submit.mono le_rfl hload }

/-- The SQE goes to the slot of entry `accepted.length`, which is free. -/
theorem writeSlot (he : e.WellFormed) (h : Submission e w) {sqe : Sqe} {tail : Word}
    (hd : w.driver = .writeSlot sqe tail) :
    Submission e { w with
      mem := w.mem.write (w.eng.sqSlot tail) (sqeLayout.bytes sqe)
      driver := .advanceTail sqe } := by
  have hsubmit := h.submit
  rw [hd] at hsubmit
  obtain ⟨hbuf, rfl, hroom⟩ := hsubmit
  have hpos := Nat.pos_of_isPowerOfTwo he.sqDepth
  have hmem : w.mem.write (w.eng.sqSlot w.eng.sqTail) (sqeLayout.bytes sqe) =
      sqeLayout.store w.mem e.sq (w.accepted.length % e.sqDepth.toNat) sqe := by
    rw [h.sqTail, h.rings.sqSlot_ofNat he.sqDepth]
    rfl
  have hfits : e.sqDepth.toNat * sqeLayout.size ≤ 2 ^ 64 := by
    have := e.sqDepth.isLt
    rw [show sqeLayout.size = 24 from rfl]
    omega
  rw [hmem]
  refine { h with
    rings := { h.rings with }
    window := h.window.congr fun k hlo hhi => ?_
    submit := ⟨hbuf, hroom, Layout.load_store_self (by decide) sqe⟩ }
  have hne := mod_ne_mod_of_near hhi (by omega : w.accepted.length < k + e.sqDepth.toNat)
  exact Layout.load_store_of_ne hfits (Nat.mod_lt k hpos) (Nat.mod_lt _ hpos) hne sqe

theorem advanceTail (h : Submission e w) {sqe : Sqe} (hd : w.driver = .advanceTail sqe) :
    Submission e { w with
      eng := { w.eng with sqTail := w.eng.sqTail + 1 }
      accepted := w.accepted ++ [sqe]
      driver := .returned (.int 0) } := by
  have hsubmit := h.submit
  rw [hd] at hsubmit
  obtain ⟨hbuf, hroom, hslot⟩ := hsubmit
  have hlen : (w.accepted ++ [sqe]).length = w.accepted.length + 1 := by simp
  have hnew : (w.accepted ++ [sqe])[w.accepted.length]? =
      some (sqeLayout.load w.mem e.sq (w.accepted.length % e.sqDepth.toNat)) := by
    rw [hslot, List.getElem?_concat_length]
  refine { h with
    rings := { h.rings with }
    sqTail := ?_
    announced_le := ?_
    room := ?_
    fifo := h.fifo.trans (List.prefix_append ..)
    window := ?_
    buffers := ?_
    submit := trivial }
  · rw [hlen, ofNat_succ, ← h.sqTail]
  · rw [hlen]
    exact Nat.le_succ_of_le h.announced_le
  · rw [hlen]
    exact hroom
  · rw [hlen]
    exact (h.window.append [sqe]).extend hnew
  · intro s hs
    rcases List.mem_append.mp hs with hs | hs
    · exact h.buffers s hs
    · rw [List.mem_singleton.mp hs]
      exact hbuf

theorem writeDoorbell (h : Submission e w) :
    Submission e { w with
      dev := { w.dev with sqTail := w.eng.sqTail, timerArmed := true }
      announced := w.accepted.length
      driver := .returned .void } :=
  { h with
    rings := { h.rings with }
    doorbell := h.sqTail
    posted_le := h.posted_le.trans h.announced_le
    announced_le := le_rfl
    submit := trivial
    fetch := h.fetch.mono h.announced_le
    rest := fun _ harmed => absurd harmed (by simp) }

theorem driverMove (he : e.WellFormed) (h : Submission e w) (hm : DriverMove w w') :
    Submission e w' := by
  cases hm with
  | readHead sqe hd =>
      have hsubmit := h.submit
      rw [hd] at hsubmit
      apply h.setDriver
      rw [h.submitCheck_eq]
      split
      · trivial
      · have hroom := h.room
        exact ⟨hsubmit, rfl, by omega⟩
  | writeSlot sqe tail hd => exact h.writeSlot he hd
  | advanceTail sqe hd => exact h.advanceTail hd
  | writeDoorbell hd => exact h.writeDoorbell
  | readTail max hd =>
      apply h.setDriver
      rw [Engine.drainCheck]
      split_ifs <;> trivial
  | copy cqHead n out hd hn => exact h.setDriver trivial
  | finish cqHead n out hd hn => exact { h with rings := { h.rings with }, submit := trivial }

/-! ### The device's steps -/

theorem getElem?_nextSqe (he : e.WellFormed) (h : Submission e w)
    (hlt : w.posted.length < w.announced) : w.accepted[w.posted.length]? = some w.nextSqe := by
  have haddr : w.dev.sqeAddr =
      sqeLayout.slotAddr e.sq (w.posted.length % e.sqDepth.toNat) := by
    rw [sqeAddr_eq, h.rings.devSq, h.rings.devSqDepth, h.sqHead,
      toNat_ofNat_and_sub_one he.sqDepth]
  rw [World.nextSqe, haddr]
  exact h.window _ le_rfl (hlt.trans_le h.announced_le)

theorem deviceMove (he : e.WellFormed) (h : Submission e w) {r : DmaResult}
    (hm : DeviceMove r w w') : Submission e w' := by
  have hfetch := h.fetch
  cases hm with
  | stop didWork hc htest =>
      obtain ⟨_, _, _, hirq⟩ := raiseIrq_eq didWork w.dev
      rw [hc] at hfetch
      rw [h.not_cqFull he, or_iff_left (by simp), h.sqHead_eq_sqTail_iff] at htest
      rw [hirq]
      exact { h with rings := { h.rings with }, fetch := hfetch, rest := fun _ _ => htest }
  | fetch didWork hc hne hroom =>
      rw [hc] at hfetch
      have hlt : w.posted.length < w.announced :=
        lt_of_le_of_ne h.posted_le fun heq => hne (h.sqHead_eq_sqTail_iff.mpr heq)
      have hnext := h.getElem?_nextSqe he hlt
      have hlen : w.fetched.length = w.posted.length := hfetch
      refine { h with
        rings := { h.rings with }
        fifo := isPrefix_concat h.fifo (by rw [hlen, hnext])
        fetch := ⟨?_, hlt, ?_⟩
        rest := fun hidle => by cases hidle }
      · rw [List.length_append, hlen, List.length_singleton]
      · rw [← hlen, List.getElem?_concat_length]
  | transfer sqe buf m hc hm =>
      rw [hc] at hfetch
      obtain ⟨hlen, hlt, hsqe⟩ := hfetch
      have hmem : sqe ∈ w.accepted := h.fifo.subset (List.mem_of_getElem? hsqe)
      have hsq : ∀ a, e.InSq a → m a = w.mem a :=
        fun a ha => hm a fun hbuf => (h.buffers sqe hmem a hbuf).1 ha
      exact { h.setMem he hsq with
        rings := { h.rings with }
        fetch := ⟨hlen, hlt⟩
        rest := fun hidle => by cases hidle }
  | writeCqe cqe hc =>
      rw [hc] at hfetch
      have hsq : ∀ a, e.InSq a → w.mem.write w.dev.cqeAddr (cqeLayout.bytes cqe) a = w.mem a := by
        intro a ha
        rw [cqeAddr_eq, h.rings.devCq, h.rings.devCqDepth]
        exact Layout.store_of_not_covers (toNat_and_sub_one_lt he.cqDepth _) (he.apart a ha)
      exact { h.setMem he hsq with
        rings := { h.rings with }
        fetch := hfetch
        rest := fun hidle => by cases hidle }
  | advance cqe hc =>
      rw [hc] at hfetch
      obtain ⟨hlen, hlt⟩ := hfetch
      have hposted : (w.posted ++ [cqe]).length = w.posted.length + 1 := by simp
      have hle : w.posted.length ≤ (w.posted ++ [cqe]).length := by omega
      refine { h with
        rings := { h.rings with }
        sqHead := ?_
        cqTail := ?_
        posted_le := ?_
        room := h.room.trans (Nat.add_le_add_right hle _)
        window := h.window.mono hle le_rfl
        submit := h.submit.mono hle fun _ => rfl
        fetch := hlen.trans hposted.symm
        rest := fun hidle => by cases hidle }
      · rw [hposted, ofNat_succ, ← h.sqHead]
      · rw [hposted, ofNat_succ, ← h.cqTail]
      · rw [hposted]
        exact hlt

theorem step (he : e.WellFormed) {a : Action} (ha : a.Apart e) (h : Submission e w)
    (hs : Dma.step w a = some w') : Submission e w' := by
  cases move_of_step hs with
  | enter a d hentry hout => exact h.setDriver (submitStage_of_entry ha hentry)
  | driver w' hm => exact h.driverMove he hm
  | timer hc harmed =>
      have hfetch := h.fetch
      rw [hc] at hfetch
      exact { h with
        rings := { h.rings with }
        fetch := hfetch
        rest := fun hidle => by cases hidle }
  | device r w' hm => exact h.deviceMove he hm
  | host x b =>
      apply h.setMem he
      intro y hy
      have hne : y ≠ x := fun heq => ha.1 (heq ▸ hy)
      exact Function.update_of_ne hne b w.mem

theorem exec (he : e.WellFormed) {as : List Action} (has : ∀ a ∈ as, a.Apart e)
    (h : Submission e w) (hw : Base.exec Dma.step w as = some w') : Submission e w' :=
  exec_invariant_on (fun _ _ _ ha hI hs => hI.step he ha hs) has hw h

end Submission

end SystemsPrep.Dma
