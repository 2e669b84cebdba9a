import SystemsPrep.Dma.Submission

/-!
The completion side.

The completions the device writes are those of the submissions it has fetched, in
order, and the ring holds the last of them. The driver copies from the slots
between its head and the device's tail. What it copies is always the completion
of some submission; it is the right one as long as the device has not gone round
the ring past the driver's head.
-/

namespace SystemsPrep.Dma

open Base

/-! ### What the device posts -/

def Callback.held : Callback → List Cqe
  | .writeCqe cqe | .advance cqe => [cqe]
  | _ => []

def World.written (w : World) : List Cqe := w.posted ++ w.callback.posting

/-- The completions of the submissions whose transfer is over. -/
def World.results (w : World) : List Cqe := List.zipWith completion w.fetched w.failures

structure Posting (e : Engine) (w : World) : Prop where
  failures : w.failures.length = w.posted.length + w.callback.held.length
  results : w.results = w.posted ++ w.callback.held
  /-- The ring holds the last completions written. -/
  ring : Window e.cqDepth.toNat (cqeLayout.load w.mem e.cq) w.written
    (w.written.length - e.cqDepth.toNat) w.written.length

theorem posting_create (e : Engine) (d : DmaEngineState) (m : Mem) (sqDma cqDma : Addr)
    (msi : Bool) (sqDepth cqDepth : Word) :
    Posting e (.create d m sqDma cqDma msi sqDepth cqDepth) where
  failures := rfl
  results := rfl
  ring := fun _ _ hk => absurd hk (Nat.not_lt_zero _)

variable {e : Engine} {w w' : World}

namespace Posting

theorem setMem (hpos : 0 < e.cqDepth.toNat) (h : Posting e w) {m : Mem}
    (hm : ∀ a, e.InCq a → m a = w.mem a) : Posting e { w with mem := m } where
  failures := h.failures
  results := h.results
  ring := h.ring.congr fun k _ _ => Layout.load_congr (Nat.mod_lt k hpos) hm

theorem driverMove (he : e.WellFormed) (hpos : 0 < e.cqDepth.toNat) (hs : Submission e w)
    (h : Posting e w) (hm : DriverMove w w') : Posting e w' := by
  cases hm with
  | writeSlot sqe tail hd =>
      have hcq : ∀ a, e.InCq a →
          w.mem.write (w.eng.sqSlot tail) (sqeLayout.bytes sqe) a = w.mem a := by
        intro a ha
        rw [sqSlot_eq, hs.rings.sq, hs.rings.sqDepth]
        exact Layout.store_of_not_covers
          (toNat_and_sub_one_lt (ne_zero_of_isPowerOfTwo he.sqDepth) tail)
          fun hsq => he.apart a hsq ha
      exact { h.setMem hpos hcq with }
  | _ => exact { h with }

/-- The slot of the CQE is the one past the window. -/
theorem writeCqe (hcq : e.cqDepth.toNat.isPowerOfTwo) (hs : Submission e w) (h : Posting e w)
    {cqe : Cqe} (hc : w.callback = .writeCqe cqe) :
    Posting e { w with
      callback := .advance cqe
      mem := w.mem.write w.dev.cqeAddr (cqeLayout.bytes cqe) } := by
  have hpos := Nat.pos_of_isPowerOfTwo hcq
  have hfail := h.failures
  have hres := h.results
  have hring := h.ring
  rw [hc] at hfail hres
  simp only [World.written, hc, Callback.posting, List.append_nil] at hring
  have hmem : w.mem.write w.dev.cqeAddr (cqeLayout.bytes cqe) =
      cqeLayout.store w.mem e.cq (w.posted.length % e.cqDepth.toNat) cqe := by
    rw [cqeAddr_eq, hs.rings.devCq, hs.rings.devCqDepth, hs.cqTail, toNat_ofNat_and_sub_one hcq]
    rfl
  have hfits : e.cqDepth.toNat * cqeLayout.size ≤ 2 ^ 64 := by
    have := e.cqDepth.isLt
    rw [show cqeLayout.size = 16 from rfl]
    omega
  have hlen : (w.posted ++ [cqe]).length = w.posted.length + 1 := by simp
  refine { failures := hfail, results := hres, ring := ?_ }
  change Window _ _ (w.posted ++ [cqe]) ((w.posted ++ [cqe]).length - _) (w.posted ++ [cqe]).length
  rw [hmem, hlen]
  apply Window.extend
  · apply (hring.mono (by omega) le_rfl).append [cqe] |>.congr
    intro k hlo hhi
    have hne := mod_ne_mod_of_near hhi (by omega : w.posted.length < k + e.cqDepth.toNat)
    exact Layout.load_store_of_ne hfits (Nat.mod_lt k hpos) (Nat.mod_lt _ hpos) hne cqe
  · rw [Layout.load_store_self (by decide), List.getElem?_concat_length]

theorem deviceMove (hcq : e.cqDepth.toNat.isPowerOfTwo) (hs : Submission e w) (h : Posting e w)
    {r : DmaResult} (hm : DeviceMove r w w') : Posting e w' := by
  have hfail := h.failures
  have hres := h.results
  have hring := h.ring
  have hfetch := hs.fetch
  unfold World.written at hring
  unfold World.results at hres
  cases hm with
  | stop didWork hc htest =>
      rw [hc] at hfail hres hring
      exact ⟨hfail, hres, hring⟩
  | fetch didWork hc hne hroom =>
      rw [hc] at hfail hres hring hfetch
      have hle : w.failures.length ≤ w.fetched.length := (hfail.trans hfetch.symm).le
      refine ⟨hfail, ?_, hring⟩
      exact (zipWith_append_left hle [w.nextSqe]).trans hres
  | transfer sqe buf m hc hm =>
      rw [hc] at hfail hres hring hfetch
      obtain ⟨hlen, hlt, hsqe⟩ := hfetch
      have hmem : sqe ∈ w.accepted := hs.fifo.subset (List.mem_of_getElem? hsqe)
      have hcell : ∀ a, e.InCq a → m a = w.mem a :=
        fun a ha => hm a fun hbuf => (hs.buffers sqe hmem a hbuf).2 ha
      have hfailures : w.failures.length = w.posted.length := hfail
      refine ⟨?_, ?_, ?_⟩
      · change (w.failures ++ [r.failed]).length = w.posted.length + 1
        rw [List.length_append, hfailures, List.length_singleton]
      · change List.zipWith completion w.fetched (w.failures ++ [r.failed]) = _
        rw [zipWith_concat_right (by rw [hfailures, hsqe]), hres]
        exact congrArg (· ++ _) (List.append_nil _)
      · exact hring.congr fun k _ _ =>
          Layout.load_congr (Nat.mod_lt k (Nat.pos_of_isPowerOfTwo hcq)) hcell
  | writeCqe cqe hc => exact h.writeCqe hcq hs hc
  | advance cqe hc =>
      rw [hc] at hfail hres hring
      have hposted : (w.posted ++ [cqe]).length = w.posted.length + 1 := by simp
      refine ⟨hfail.trans hposted.symm, hres.trans (List.append_nil _).symm, ?_⟩
      change Window _ _ (w.posted ++ [cqe] ++ []) ((w.posted ++ [cqe] ++ []).length - _)
        (w.posted ++ [cqe] ++ []).length
      rw [List.append_nil]
      exact hring

end Posting

/-! ### What the driver drains -/

def Driver.copied : Driver → List Cqe
  | .copyOut _ _ out => out
  | _ => []

theorem copied_of_entry {a : Action} {d : Driver} (h : a.entry = some d) : d.copied = [] := by
  cases a <;> cases h <;> rfl

def CopyStage (cqHead : Word) (D P : ℕ) : Driver → Prop
  | .copyOut head n out => head = cqHead ∧ D + n.toNat ≤ P ∧ out.length ≤ n.toNat
  | _ => True

theorem copyStage_of_entry {cqHead : Word} {D P : ℕ} {a : Action} {d : Driver}
    (h : a.entry = some d) : CopyStage cqHead D P d := by
  cases a <;> cases h <;> trivial

theorem CopyStage.mono {cqHead : Word} {D P P' : ℕ} {d : Driver} (h : CopyStage cqHead D P d)
    (hle : P ≤ P') : CopyStage cqHead D P' d := by
  cases d with
  | copyOut head n out => exact ⟨h.1, h.2.1.trans hle, h.2.2⟩
  | _ => trivial

structure Draining (w : World) : Prop where
  cqHead : w.eng.cqHead = BitVec.ofNat 32 w.drained.length
  drained_le : w.drained.length ≤ w.posted.length
  copy : CopyStage w.eng.cqHead w.drained.length w.posted.length w.driver
  /-- Whatever is drained is the completion of some submission. -/
  origin : ∀ c ∈ w.drained ++ w.driver.copied, c ∈ w.results

/-- What is drained is what was posted, in order. -/
def World.InOrder (w : World) : Prop := w.drained ++ w.driver.copied <+: w.posted

structure Completion (e : Engine) (w : World) : Prop where
  wellFormed : e.WellFormed
  cqDepth : e.cqDepth.toNat.isPowerOfTwo
  submission : Submission e w
  posting : Posting e w
  draining : Draining w

namespace Completion

theorem cqDepth_pos (h : Completion e w) : 0 < e.cqDepth.toNat := Nat.pos_of_isPowerOfTwo h.cqDepth

theorem copyOut_eq (h : Completion e w) {cqHead n : Word} {out : List Cqe}
    (hd : w.driver = .copyOut cqHead n out) :
    cqeLayout.ofBytes (w.mem.read (w.eng.cqSlot (cqHead + BitVec.ofNat 32 out.length)) 16) =
      cqeLayout.load w.mem e.cq ((w.drained.length + out.length) % e.cqDepth.toNat) := by
  have hcopy := h.draining.copy
  rw [hd] at hcopy
  rw [hcopy.1, h.draining.cqHead, ← BitVec.ofNat_add,
    h.submission.rings.cqSlot_ofNat h.cqDepth]
  rfl

theorem written_subset_results (h : Completion e w) : w.written ⊆ w.results := by
  rw [h.posting.results, World.written]
  cases hc : w.callback with
  | advance cqe => exact List.Subset.refl _
  | _ => simp [Callback.posting]

theorem load_mem_results (h : Completion e w) {k : ℕ} (hk : k < w.posted.length) :
    cqeLayout.load w.mem e.cq (k % e.cqDepth.toNat) ∈ w.results := by
  apply h.written_subset_results
  apply h.posting.ring.mem_of_lt h.cqDepth_pos
  rw [World.written, List.length_append]
  omega

/-- While the device has not gone round the ring past the driver's head, the
slots between the head and the tail hold the completions posted there. -/
theorem window (h : Completion e w)
    (hbound : w.fetched.length ≤ w.drained.length + e.cqDepth.toNat) :
    Window e.cqDepth.toNat (cqeLayout.load w.mem e.cq) w.posted
      w.drained.length w.posted.length := by
  have hlen : w.written.length ≤ w.fetched.length := by
    have hsub := h.posting.results
    have hwritten : w.written.length ≤ w.results.length := by
      rw [hsub, World.written]
      cases hc : w.callback <;> simp [Callback.posting, Callback.held]
    rw [World.results, List.length_zipWith] at hwritten
    omega
  intro k hlo hhi
  have hk : k < w.written.length := by
    rw [World.written, List.length_append]
    omega
  have hring := h.posting.ring k (by omega) hk
  rwa [World.written, List.getElem?_append_left hhi] at hring

end Completion

/-! ### The driver's steps -/

namespace Draining

theorem setDriver (h : Draining w) {d : Driver}
    (hd : CopyStage w.eng.cqHead w.drained.length w.posted.length d) (hcopied : d.copied = []) :
    Draining { w with driver := d } where
  cqHead := h.cqHead
  drained_le := h.drained_le
  copy := hd
  origin c hc := by
    rw [show ({ w with driver := d } : World).driver.copied = [] from hcopied,
      List.append_nil] at hc
    exact h.origin c (List.mem_append_left _ hc)

theorem readTail (h : Draining w) (hs : Submission e w) (max : BitVec 64) :
    Draining { w with driver := w.eng.drainCheck max w.dev.cqTail } := by
  have hsub : (w.dev.cqTail - w.eng.cqHead).toNat ≤ w.posted.length - w.drained.length := by
    rw [hs.cqTail, h.cqHead, ofNat_sub_ofNat_of_le h.drained_le, BitVec.toNat_ofNat]
    exact Nat.mod_le _ _
  have hle := h.drained_le
  have hcount := w.eng.drainCount_le max w.dev.cqTail
  apply h.setDriver
  · rw [Engine.drainCheck]
    split
    · trivial
    · exact ⟨rfl, by omega, Nat.zero_le _⟩
  · rw [Engine.drainCheck]
    split <;> rfl

theorem copyOut (h : Draining w) {cqHead n : Word} {out : List Cqe} {c : Cqe}
    (hd : w.driver = .copyOut cqHead n out) (hn : out.length < n.toNat) (hc : c ∈ w.results) :
    Draining { w with driver := .copyOut cqHead n (out ++ [c]) } := by
  have hcopy := h.copy
  have horigin := h.origin
  rw [hd] at hcopy horigin
  refine
    { cqHead := h.cqHead
      drained_le := h.drained_le
      copy := ⟨hcopy.1, hcopy.2.1, ?_⟩
      origin := fun x hx => ?_ }
  · rw [List.length_append, List.length_singleton]
    exact hn
  · change x ∈ w.drained ++ (out ++ [c]) at hx
    rw [← List.append_assoc] at hx
    rcases List.mem_append.mp hx with hx | hx
    · exact horigin x hx
    · rw [List.mem_singleton.mp hx]
      exact hc

theorem finish (h : Draining w) {cqHead n : Word} {out : List Cqe}
    (hd : w.driver = .copyOut cqHead n out) (hn : n.toNat ≤ out.length) :
    Draining { w with
      eng := { w.eng with cqHead := cqHead + n }
      drained := w.drained ++ out
      driver := .returned (.size n out) } := by
  have hcopy := h.copy
  have horigin := h.origin
  rw [hd] at hcopy horigin
  obtain ⟨rfl, hle, hlen⟩ := hcopy
  have hdrained : (w.drained ++ out).length = w.drained.length + n.toNat := by
    rw [List.length_append, Nat.le_antisymm hlen hn]
  refine { cqHead := ?_, drained_le := hdrained.trans_le hle, copy := trivial, origin := ?_ }
  · rw [hdrained, ofNat_add_toNat, ← h.cqHead]
  · intro x hx
    exact horigin x (by simpa [Driver.copied] using hx)

theorem driverMove (he : Completion e w) (hm : DriverMove w w') : Draining w' := by
  have h := he.draining
  cases hm with
  | readHead sqe hd =>
      apply h.setDriver
      · rw [Engine.submitCheck]
        split <;> trivial
      · rw [Engine.submitCheck]
        split <;> rfl
  | writeSlot sqe tail hd => exact { h.setDriver (d := .advanceTail sqe) trivial rfl with }
  | advanceTail sqe hd => exact { h.setDriver (d := .returned (.int 0)) trivial rfl with }
  | writeDoorbell hd => exact { h.setDriver (d := .returned .void) trivial rfl with }
  | readTail max hd => exact h.readTail he.submission max
  | copy cqHead n out hd hn =>
      have hcopy := h.copy
      rw [hd] at hcopy
      obtain ⟨-, hle, -⟩ := hcopy
      rw [he.copyOut_eq hd]
      exact h.copyOut hd hn (he.load_mem_results (by omega))
  | finish cqHead n out hd hn => exact h.finish hd hn

theorem deviceMove (he : Completion e w) {r : DmaResult} (hm : DeviceMove r w w')
    (hresults : w.results <+: w'.results) : Draining w' := by
  have h := he.draining
  have horigin : ∀ c ∈ w.drained ++ w.driver.copied, c ∈ w'.results :=
    fun c hc => hresults.subset (h.origin c hc)
  cases hm with
  | advance cqe hc =>
      have hle : w.posted.length ≤ (w.posted ++ [cqe]).length := by simp
      exact ⟨h.cqHead, h.drained_le.trans hle, h.copy.mono hle, horigin⟩
  | _ => exact ⟨h.cqHead, h.drained_le, h.copy, horigin⟩

end Draining

namespace Completion

/-- The completions of the transfers that are over do not change. -/
theorem results_isPrefix (h : Completion e w) {r : DmaResult} (hm : DeviceMove r w w') :
    w.results <+: w'.results := by
  have hfail := h.posting.failures
  have hfetch := h.submission.fetch
  cases hm with
  | fetch didWork hc hne hroom =>
      rw [hc] at hfail hfetch
      have hle : w.failures.length ≤ w.fetched.length := (hfail.trans hfetch.symm).le
      rw [World.results, World.results, zipWith_append_left hle]
  | transfer sqe buf m hc hm =>
      rw [hc] at hfail hfetch
      have hfailures : w.failures.length = w.posted.length := hfail
      rw [World.results, World.results,
        zipWith_concat_right (x := sqe) (by rw [hfailures, hfetch.2.2])]
      exact List.prefix_append _ _
  | _ => exact List.prefix_refl _

theorem driverMove (h : Completion e w) (hm : DriverMove w w') : Completion e w' where
  wellFormed := h.wellFormed
  cqDepth := h.cqDepth
  submission := h.submission.driverMove h.wellFormed hm
  posting := h.posting.driverMove h.wellFormed h.cqDepth_pos h.submission hm
  draining := Draining.driverMove h hm

theorem deviceMove (h : Completion e w) {r : DmaResult} (hm : DeviceMove r w w') :
    Completion e w' where
  wellFormed := h.wellFormed
  cqDepth := h.cqDepth
  submission := h.submission.deviceMove h.wellFormed hm
  posting := h.posting.deviceMove h.cqDepth h.submission hm
  draining := Draining.deviceMove h hm (h.results_isPrefix hm)

theorem step {a : Action} (ha : a.Apart e) (h : Completion e w)
    (hs : Dma.step w a = some w') : Completion e w' := by
  have hsub := h.submission.step h.wellFormed ha hs
  cases move_of_step hs with
  | enter a d hentry hout =>
      exact ⟨h.wellFormed, h.cqDepth, hsub, { h.posting with },
        h.draining.setDriver (copyStage_of_entry hentry) (copied_of_entry hentry)⟩
  | driver w' hm => exact h.driverMove hm
  | timer hc harmed =>
      have hposting := h.posting
      refine ⟨h.wellFormed, h.cqDepth, hsub, ⟨?_, ?_, ?_⟩, { h.draining with }⟩
      · have hfail := hposting.failures
        rw [hc] at hfail
        exact hfail
      · have hres := hposting.results
        rw [hc] at hres
        exact hres
      · have hring := hposting.ring
        rw [World.written, hc] at hring
        exact hring
  | device r w' hm => exact h.deviceMove hm
  | host x b =>
      refine ⟨h.wellFormed, h.cqDepth, hsub, h.posting.setMem h.cqDepth_pos ?_,
        { h.draining with }⟩
      intro y hy
      have hne : y ≠ x := fun heq => ha.2 (heq ▸ hy)
      exact Function.update_of_ne hne b w.mem

theorem exec {as : List Action} (has : ∀ a ∈ as, a.Apart e)
    (h : Completion e w) (hw : Base.exec Dma.step w as = some w') : Completion e w' :=
  exec_invariant_on (fun _ _ _ ha hI hs => hI.step ha hs) has hw h

end Completion

/-! ### Draining in order -/

namespace Completion

/-- A drain keeps the order as long as the device stays within a lap. -/
theorem inOrder_driverMove (h : Completion e w) (hm : DriverMove w w') (ho : w.InOrder)
    (hbound : w.fetched.length ≤ w.drained.length + e.cqDepth.toNat) : w'.InOrder := by
  have hprefix : w.drained <+: w.posted := (List.prefix_append _ _).trans ho
  unfold World.InOrder at ho ⊢
  cases hm with
  | readHead sqe hd =>
      have hcopied : (w.eng.submitCheck sqe w.dev.sqHead).copied = [] := by
        rw [Engine.submitCheck]
        split <;> rfl
      simpa only [hcopied, List.append_nil] using hprefix
  | readTail max hd =>
      have hcopied : (w.eng.drainCheck max w.dev.cqTail).copied = [] := by
        rw [Engine.drainCheck]
        split <;> rfl
      simpa only [hcopied, List.append_nil] using hprefix
  | copy cqHead n out hd hn =>
      have hcopy := h.draining.copy
      rw [hd] at hcopy ho
      obtain ⟨-, hle, -⟩ := hcopy
      change w.drained ++ out <+: w.posted at ho
      change w.drained ++ (out ++ [_]) <+: w.posted
      rw [← List.append_assoc, h.copyOut_eq hd, ← List.length_append]
      apply isPrefix_concat ho
      rw [List.length_append]
      exact h.window hbound _ (Nat.le_add_right _ _) (by omega)
  | finish cqHead n out hd hn =>
      rw [hd] at ho
      simpa only [Driver.copied, List.append_nil] using ho
  | _ => simpa only [Driver.copied, List.append_nil] using hprefix

theorem inOrder_deviceMove {r : DmaResult} (hm : DeviceMove r w w') (ho : w.InOrder) :
    w'.InOrder := by
  unfold World.InOrder at ho ⊢
  cases hm with
  | advance cqe hc => exact ho.trans (List.prefix_append _ _)
  | _ => exact ho

theorem inOrder_step {a : Action} (h : Completion e w) (hs : Dma.step w a = some w')
    (ho : w.InOrder) (hbound : w.fetched.length ≤ w.drained.length + e.cqDepth.toNat) :
    w'.InOrder := by
  have hprefix : w.drained <+: w.posted := (List.prefix_append _ _).trans ho
  have hcall : ∀ d : Driver, d.copied = [] → ({ w with driver := d } : World).InOrder := by
    intro d hd
    simpa only [World.InOrder, hd, List.append_nil] using hprefix
  cases move_of_step hs with
  | enter a d hentry hout => exact hcall d (copied_of_entry hentry)
  | driver w' hm => exact h.inOrder_driverMove hm ho hbound
  | device r w' hm => exact inOrder_deviceMove hm ho
  | timer | host => exact ho

/-- Drained in order, over a run in which the device stays within a lap of the
driver's head. -/
theorem inOrder_exec {as : List Action} (has : ∀ a ∈ as, a.Apart e)
    (h : Completion e w) (ho : w.InOrder)
    (hbound : Always Dma.step w as fun t => t.fetched.length ≤ t.drained.length + e.cqDepth.toNat)
    (hw : Base.exec Dma.step w as = some w') : w'.InOrder := by
  have hstep : ∀ t a t', (a.Apart e ∧ t.fetched.length ≤ t.drained.length + e.cqDepth.toNat) →
      Completion e t ∧ t.InOrder → Dma.step t a = some t' → Completion e t' ∧ t'.InOrder := by
    rintro t a t' ⟨ha, hlap⟩ ⟨ht, hto⟩ hs
    exact ⟨ht.step ha hs, ht.inOrder_step hs hto hlap⟩
  exact (((Steps.of_forall_mem has).and hbound.steps).invariant hstep hw ⟨h, ho⟩).2

end Completion

end SystemsPrep.Dma
