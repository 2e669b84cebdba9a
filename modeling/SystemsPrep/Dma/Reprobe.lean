import SystemsPrep.Dma.ProbeOutcome

/-!
The smoke test on a device that has been used before.

`engine_create` does not reset the indices of the device. On a device whose indices are not
zero the submissions of a new engine are refused, which the probe does not notice, while its
doorbell, with the tail of the new engine, sends the device round a ring of zeros. Nothing
is transferred, so the probe cannot pass; and when it gives up it frees the rings under a
device that is still going round.
-/

namespace SystemsPrep.Dma

open Base

structure DmaEngineState.Used (d : DmaEngineState) : Prop where
  sqHead : d.sqHead ≠ 0
  cqTail : d.cqTail = d.sqHead

def Driver.Refused : Driver → Prop
  | .writeSlot _ _ | .advanceTail _ => False
  | _ => True

/-- A new engine on such a device: nothing has been submitted, and the ring is empty. -/
structure Stale (e : Engine) (d : DmaEngineState) (w : World) : Prop where
  rings : OnRings e w
  wellFormed : e.WellFormed
  sqDepth : e.sqDepth = 16
  sqHead : w.dev.sqHead = d.sqHead + BitVec.ofNat 32 w.posted.length
  cqTail : w.dev.cqTail = w.dev.sqHead
  sqTail : w.eng.sqTail = 0
  driver : w.driver.Refused
  zero : ∀ x, e.InSq x → w.mem x = 0
  noOp : ∀ sqe, w.callback = .transfer sqe → sqe.op = 0

structure World.GoesRound (w : World) : Prop where
  sqTail : w.dev.sqTail = 0
  armed : w.callback = .idle → w.dev.timerArmed = true

/-- The device has not gone nearly all the way round its indices. -/
def World.Short (d : DmaEngineState) (w : World) : Prop :=
  d.sqHead.toNat + w.posted.length ≤ 2 ^ 32 - 16

section Stale

variable {e : Engine} {d : DmaEngineState} {w w' : World} {a : Action} {src dst : Addr}

theorem Stale.toNat_sqHead (h : Stale e d w) (hshort : w.Short d) :
    w.dev.sqHead.toNat = d.sqHead.toNat + w.posted.length := by
  unfold World.Short at hshort
  rw [h.sqHead, BitVec.toNat_add, BitVec.toNat_ofNat]
  omega

theorem Stale.sqHead_range (h : Stale e d w) (hused : d.Used) (hshort : w.Short d) :
    0 < w.dev.sqHead.toNat ∧ w.dev.sqHead.toNat ≤ 2 ^ 32 - 16 := by
  have hhead := h.toNat_sqHead hshort
  have hne : d.sqHead.toNat ≠ 0 := fun hzero => hused.sqHead (BitVec.eq_of_toNat_eq hzero)
  unfold World.Short at hshort
  omega

/-- The submission ring looks full. -/
theorem Stale.submitCheck_eq (h : Stale e d w) (hused : d.Used) (hshort : w.Short d) (sqe : Sqe) :
    w.eng.submitCheck sqe w.dev.sqHead = .returned (.int eagain) := by
  have hrange := h.sqHead_range hused hshort
  have hfull : w.eng.sqDepth ≤ w.eng.sqTail - w.dev.sqHead := by
    rw [h.sqTail, h.rings.sqDepth, h.sqDepth, BitVec.le_def, BitVec.toNat_sub]
    change 16 ≤ (2 ^ 32 - w.dev.sqHead.toNat + 0) % 2 ^ 32
    omega
  exact if_pos hfull

theorem Stale.cqFull_eq (h : Stale e d w) : w.dev.cqFull = false := by
  have hne := h.wellFormed.cqDepth
  have hnot : ¬ w.dev.cqDepth ≤ w.dev.cqTail - w.dev.sqHead := by
    rw [h.cqTail, BitVec.sub_self, h.rings.devCqDepth]
    intro hle
    exact hne (BitVec.eq_of_toNat_eq (Nat.le_zero.mp (BitVec.le_def.mp hle)))
  exact decide_eq_false hnot

theorem Stale.nextSqe_op (h : Stale e d w) : w.nextSqe.op = 0 := by
  have hread : w.mem.read w.dev.sqeAddr 24 = List.replicate 24 0 := by
    refine List.eq_replicate_iff.mpr ⟨Mem.length_read .., fun b hb => ?_⟩
    obtain ⟨k, hk, rfl⟩ := List.mem_map.mp hb
    refine h.zero _ ?_
    rw [sqeAddr_eq, h.rings.devSq, h.rings.devSqDepth]
    exact Layout.covers_slot
      (toNat_and_sub_one_lt (ne_zero_of_isPowerOfTwo h.wellFormed.sqDepth) _)
      (List.mem_range.mp hk)
  rw [World.nextSqe, hread]
  rfl

/-- Memory outside the completion ring changes by writes from elsewhere only. -/
theorem Stale.mem_eq (h : Stale e d w) (hs : step w a = some w') {x : Addr} (hcq : ¬ e.InCq x)
    (hhost : ∀ v, a ≠ .host x v) : w'.mem x = w.mem x := by
  cases move_of_step hs with
  | enter | timer => rfl
  | driver w' hm =>
      cases hm with
      | writeSlot sqe tail hd =>
          have hrefused := h.driver
          rw [hd] at hrefused
          exact hrefused.elim
      | readHead | advanceTail | writeDoorbell | readTail | copy | finish => rfl
  | device r w' hm =>
      cases hm with
      | transfer sqe buf m hc hm =>
          rw [deviceStep_transfer hc hs, dataDma_unknown]
          · rw [h.noOp sqe hc]
            decide
          · rw [h.noOp sqe hc]
            decide
      | writeCqe cqe hc =>
          change w.mem.write w.dev.cqeAddr (cqeLayout.bytes cqe) x = w.mem x
          rw [cqeAddr_eq, h.rings.devCq, h.rings.devCqDepth]
          exact Layout.store_of_not_covers (toNat_and_sub_one_lt h.wellFormed.cqDepth _) hcq
      | stop | fetch | advance => rfl
  | host y b =>
      have hne : x ≠ y := fun heq => hhost b (heq ▸ rfl)
      exact Function.update_of_ne hne b w.mem

theorem Stale.step (h : Stale e d w) (hused : d.Used) (hshort : w.Short d)
    (hhost : ∀ x v, a = .host x v → ¬ e.InSq x) (hs : Dma.step w a = some w') :
    Stale e d w' := by
  have hrings := onRings_step h.rings hs
  have hzero : ∀ x, e.InSq x → w'.mem x = 0 := fun x hx =>
    (h.mem_eq hs (h.wellFormed.apart x hx) fun v hv => hhost x v hv hx).trans (h.zero x hx)
  cases move_of_step hs with
  | enter a b hentry =>
      refine { h with rings := hrings, zero := hzero, driver := ?_ }
      cases a with
      | submit | doorbell | drain =>
          cases hentry
          trivial
      | driver | timer | device | host => cases hentry
  | driver w' hm =>
      cases hm with
      | readHead sqe hd =>
          refine { h with rings := hrings, zero := hzero, driver := ?_ }
          change (w.eng.submitCheck sqe w.dev.sqHead).Refused
          rw [h.submitCheck_eq hused hshort]
          trivial
      | writeSlot _ _ hd | advanceTail _ hd =>
          have hrefused := h.driver
          rw [hd] at hrefused
          exact hrefused.elim
      | readTail max hd =>
          refine { h with rings := hrings, zero := hzero, driver := ?_ }
          change (w.eng.drainCheck max w.dev.cqTail).Refused
          rw [Engine.drainCheck]
          split <;> trivial
      | writeDoorbell | copy | finish =>
          exact { h with rings := hrings, zero := hzero, driver := trivial }
  | timer hc harmed =>
      exact { h with rings := hrings, zero := hzero, noOp := fun sqe hsqe => by cases hsqe }
  | device r w' hm =>
      cases hm with
      | stop didWork hc htest =>
          obtain ⟨_, _, _, hirq⟩ := raiseIrq_eq didWork w.dev
          rw [hirq] at hrings ⊢
          exact { h with rings := hrings, zero := hzero, noOp := fun sqe hsqe => by cases hsqe }
      | fetch didWork hc hne hroom =>
          refine { h with rings := hrings, zero := hzero, noOp := fun sqe hsqe => ?_ }
          obtain rfl : w.nextSqe = sqe := Callback.transfer.inj hsqe
          exact h.nextSqe_op
      | transfer | writeCqe =>
          exact { h with rings := hrings, zero := hzero, noOp := fun sqe hsqe => by cases hsqe }
      | advance cqe hc =>
          refine { h with
            rings := hrings
            zero := hzero
            noOp := fun sqe hsqe => by cases hsqe
            sqHead := ?_
            cqTail := congrArg (· + 1) h.cqTail }
          change w.dev.sqHead + 1 = _
          rw [h.sqHead, List.length_append, List.length_singleton, BitVec.ofNat_add,
            BitVec.add_assoc]
          rfl
  | host x b => exact { h with rings := hrings, zero := hzero }

/-- A device that goes round does not stop. -/
theorem World.GoesRound.step (hr : w.GoesRound) (h : Stale e d w) (hused : d.Used)
    (hshort : w.Short d) (hs : Dma.step w a = some w') : w'.GoesRound := by
  have hrange := h.sqHead_range hused hshort
  cases move_of_step hs with
  | enter | host => exact ⟨hr.sqTail, hr.armed⟩
  | timer => exact ⟨hr.sqTail, fun hidle => by cases hidle⟩
  | driver w' hm =>
      cases hm with
      | writeDoorbell => exact ⟨h.sqTail, fun _ => rfl⟩
      | readHead | writeSlot | advanceTail | readTail | copy | finish =>
          exact ⟨hr.sqTail, hr.armed⟩
  | device r w' hm =>
      cases hm with
      | stop didWork hc htest =>
          exfalso
          rcases htest with heq | hfull
          · rw [heq, hr.sqTail] at hrange
            exact absurd hrange.1 (by decide)
          · rw [h.cqFull_eq] at hfull
            cases hfull
      | fetch | transfer | writeCqe | advance => exact ⟨hr.sqTail, fun hidle => by cases hidle⟩

/-- Nor does it settle. -/
theorem World.GoesRound.not_settled (hr : w.GoesRound) (h : Stale e d w) (hused : d.Used)
    (hshort : w.Short d) : ¬ Settled w.dev w.callback := by
  have hrange := h.sqHead_range hused hshort
  have hgo : ¬ w.dev.Stops := by
    rintro (heq | hfull)
    · rw [heq, hr.sqTail] at hrange
      exact absurd hrange.1 (by decide)
    · rw [h.cqFull_eq] at hfull
      cases hfull
  cases hc : w.callback with
  | idle => exact fun hs => hgo (hs (hr.armed hc))
  | loop didWork => exact hgo
  | transfer | writeCqe => exact fun hs => hs
  | advance cqe =>
      rintro (heq | hfull)
      · rw [hr.sqTail] at heq
        have hnat := congrArg BitVec.toNat heq
        rw [BitVec.toNat_add] at hnat
        change (w.dev.sqHead.toNat + 1) % 2 ^ 32 = 0 at hnat
        omega
      · rw [h.cqFull_eq] at hfull
        cases hfull

end Stale

/-! ### The second smoke test -/

/-- From the first doorbell on the device goes round, and the probe has not passed. -/
def Probe.GoesRound (p : Probe) : ProbeStage → Prop
  | .call .submit .tx | .inCall .submit .tx | .call .doorbell .tx => True
  | .inCall .doorbell .tx => p.world.driver = .writeDoorbell ∨ p.world.GoesRound
  | .free _ true | .returned => False
  | _ => p.world.GoesRound

/-- What holds throughout such a probe: the buffers are as they have been set. -/
structure Vain (e : Engine) (d : DmaEngineState) (p : Probe) : Prop where
  stale : Stale e d p.world
  apart : ∀ b x, Covers (p.buffer b) 64 x → ¬ e.InSq x ∧ ¬ e.InCq x
  src : (∀ b, p.stage.holds b = true) → p.world.mem.read (p.buffer .tx) 18 = message
  dst : (∀ b, p.stage.holds b = true) →
    p.world.mem.read (p.buffer .rx) 18 = List.replicate 18 0
  stage : p.GoesRound p.stage

section Vain

variable {hz : ℕ} {e : Engine} {d : DmaEngineState} {p p' : Probe} {a : ProbeAction} {w : World}

theorem Vain.not_roundtripped (h : Vain e d p) (hstage : p.stage = .compare) :
    p.roundtripped = false := by
  have hholds : ∀ b, p.stage.holds b = true := fun b => by cases b <;> rw [hstage] <;> rfl
  refine decide_eq_false ?_
  rw [h.src hholds, h.dst hholds]
  decide

theorem posted_length_le {w' : World} {b : Action} (hs : step w b = some w') :
    w.posted.length ≤ w'.posted.length := by
  cases move_of_step hs with
  | enter | timer | host => exact le_rfl
  | driver w' hm => cases hm <;> exact le_rfl
  | device r w' hm =>
      cases hm with
      | advance cqe hc => exact Nat.le_of_lt (by simp)
      | stop | fetch | transfer | writeCqe => exact le_rfl

theorem Vain.world (h : Vain e d p) (hused : d.Used) (hshort : p.world.Short d) {b : Action}
    (hhost : ∀ x v, b = .host x v → ¬ e.InSq x ∧
      ∀ c, p.stage.holds c = true → ¬ Covers (p.buffer c) 64 x) {w' : World}
    (hs : step p.world b = some w') :
    Stale e d w' ∧ ∀ c, (∀ c, p.stage.holds c = true) →
      w'.mem.read (p.buffer c) 18 = p.world.mem.read (p.buffer c) 18 := by
  refine ⟨h.stale.step hused hshort (fun x v hv => (hhost x v hv).1) hs, fun c hholds => ?_⟩
  refine Mem.read_congr fun i hi => h.stale.mem_eq hs ?_ fun v hv => ?_
  · exact (h.apart c _ (covers_add (by omega))).2
  · exact (hhost _ v hv).2 c (hholds c) (covers_add (by omega))

/-- The world has moved on without the probe. -/
theorem Probe.GoesRound.setWorld {stage : ProbeStage} (h : p.GoesRound stage)
    (hdriver : w.driver = p.world.driver) (hstep : p.world.GoesRound → w.GoesRound) :
    (p.setWorld w).GoesRound stage := by
  cases stage with
  | call c b =>
      cases c with
      | submit | doorbell =>
          cases b with
          | tx => trivial
          | rx => exact hstep h
      | wait | drain => cases b <;> exact hstep h
  | inCall c b =>
      cases c with
      | submit =>
          cases b with
          | tx => trivial
          | rx => exact hstep h
      | doorbell =>
          cases b with
          | tx => exact h.imp hdriver.trans hstep
          | rx => exact hstep h
      | wait | drain => cases b <;> exact hstep h
  | unmap | compare | errUnmap | destroy => exact hstep h
  | free b passed =>
      cases passed with
      | true => exact h.elim
      | false => exact hstep h
  | returned => exact h.elim

/-- What the driver does inside a call does not stop the device, and a doorbell starts it. -/
theorem Vain.goesRound_driver (h : Vain e d p) (hused : d.Used) (hshort : p.world.Short d)
    {c : ProbeCall} {b : Direction} (hstage : p.stage = .inCall c b) (hc : c ≠ .wait)
    (hw : step p.world .driver = some w) : (p.setWorld w).GoesRound (.inCall c b) := by
  have hround := h.stage
  rw [hstage] at hround
  have hstep : p.world.GoesRound → w.GoesRound :=
    fun hr => hr.step h.stale hused hshort hw
  cases c with
  | wait => exact absurd rfl hc
  | submit =>
      cases b with
      | tx => trivial
      | rx => exact hstep hround
  | doorbell =>
      cases b with
      | tx =>
          refine Or.inr (hround.elim (fun hbell => ?_) hstep)
          cases driverMove_of_driverStep hw with
          | writeDoorbell => exact ⟨h.stale.sqTail, fun _ => rfl⟩
          | readHead _ hd | writeSlot _ _ hd | advanceTail _ hd | readTail _ hd
          | copy _ _ _ hd | finish _ _ _ hd =>
              rw [hbell] at hd
              cases hd
      | rx => exact hstep hround
  | drain => cases b <;> exact hstep hround

/-- Where the statements of the probe lead, with the device going round. -/
theorem Vain.goesRound_next (h : Vain e d p) (hused : d.Used) (hshort : p.world.Short d)
    (hm : ProbeMove hz p p') : p'.GoesRound p'.stage := by
  have hround := h.stage
  cases hm with
  | enter c b hstage hc =>
      rw [hstage] at hround
      cases c with
      | wait => exact absurd rfl hc
      | submit =>
          cases b with
          | tx => trivial
          | rx => exact ⟨hround.sqTail, hround.armed⟩
      | doorbell =>
          cases b with
          | tx => exact Or.inl rfl
          | rx => exact ⟨hround.sqTail, hround.armed⟩
      | drain => cases b <;> exact ⟨hround.sqTail, hround.armed⟩
  | enterWait b hstage =>
      rw [hstage] at hround
      cases b <;> exact hround
  | driver c b w hstage hc hw =>
      change (p.setWorld w).GoesRound p.stage
      rw [hstage]
      exact h.goesRound_driver hused hshort hstage hc hw
  | wait b host hstage hn =>
      rw [hstage] at hround
      have hworld : host.world = p.world := Waiting.world_next hn
      change Probe.GoesRound { p with host := host } p.stage
      rw [hstage]
      cases b <;>
      · change host.world.GoesRound
        rw [hworld]
        exact hround
  | leave c b ret hstage hc hret =>
      rw [hstage] at hround
      cases c with
      | wait => exact absurd rfl hc
      | submit => cases b <;> exact hround
      | doorbell =>
          cases b with
          | tx =>
              refine hround.resolve_left fun hbell => ?_
              rw [hret] at hbell
              cases hbell
          | rx => exact hround
      | drain =>
          simp only [Probe.afterCall]
          cases ret.oneGood <;> cases b <;> exact hround
  | found b hstage =>
      rw [hstage] at hround
      cases b <;> exact hround
  | late b v hstage =>
      rw [hstage] at hround
      cases b <;> exact hround
  | unmap b hstage =>
      rw [hstage] at hround
      cases b <;> exact hround
  | compare hstage =>
      rw [hstage] at hround
      rw [h.not_roundtripped hstage]
      exact hround
  | errUnmap b hstage =>
      rw [hstage] at hround
      cases b <;> exact hround
  | free b passed hstage =>
      rw [hstage] at hround
      cases passed with
      | true => cases b <;> exact hround.elim
      | false => cases b <;> exact hround

theorem Vain.next (h : Vain e d p) (hused : d.Used) (hshort : p.world.Short d)
    (hm : ProbeMove hz p p') : Vain e d p' := by
  obtain ⟨hbuffer, hholds⟩ := buffer_of_move hm
  have hworld : Stale e d p'.world ∧ ∀ c, (∀ c, p.stage.holds c = true) →
      p'.world.mem.read (p.buffer c) 18 = p.world.mem.read (p.buffer c) 18 := by
    rcases world_of_move hm with heq | ⟨b, hdriver, hstep, -⟩
    · rw [heq]
      exact ⟨h.stale, fun _ _ => rfl⟩
    · refine h.world hused hshort (fun x v hv => ?_) hstep
      rw [hv] at hdriver
      cases hdriver
  refine ⟨hworld.1, ?_, fun hall => ?_, fun hall => ?_, h.goesRound_next hused hshort hm⟩
  · rw [hbuffer]
    exact h.apart
  · have hheld : ∀ c, p.stage.holds c = true := fun c => hholds c (hall c)
    rw [hbuffer, hworld.2 .tx hheld, h.src hheld]
  · have hheld : ∀ c, p.stage.holds c = true := fun c => hholds c (hall c)
    rw [hbuffer, hworld.2 .rx hheld, h.dst hheld]

theorem Vain.around (h : Vain e d p) (hused : d.Used) (hshort : p.world.Short d)
    (halone : LeavesAlone p a p') {host : Waiting} (hr : Around p a host) :
    Vain e d { p with host := host } := by
  have hrings := h.stale.rings
  cases hr with
  | tick | signal | wake => exact ⟨h.stale, h.apart, h.src, h.dst, h.stage⟩
  | world b w hb hs =>
      have hworld : Stale e d w ∧ ∀ c, (∀ c, p.stage.holds c = true) →
          w.mem.read (p.buffer c) 18 = p.world.mem.read (p.buffer c) 18 := by
        refine h.world hused hshort (fun x v hv => ?_) hs
        subst hv
        obtain ⟨hsq, -, hbuf⟩ := halone
        exact ⟨by rwa [Engine.InSq, ← hrings.sq, ← hrings.sqDepth], hbuf⟩
      refine ⟨hworld.1, h.apart, fun hall => ?_, fun hall => ?_, ?_⟩
      · exact (hworld.2 .tx hall).trans (h.src hall)
      · exact (hworld.2 .rx hall).trans (h.dst hall)
      · exact h.stage.setWorld (sameCalls_of_step hb hs).driver
          fun hr => hr.step h.stale hused hshort hs

theorem posted_mono (hs : probeStep hz p a = some p') :
    p.world.posted.length ≤ p'.world.posted.length := by
  rcases move_of_probeStep hs with ⟨-, hm⟩ | ⟨host, rfl, hr⟩
  · rcases world_of_move hm with heq | ⟨b, -, hstep, -⟩
    · rw [heq]
    · exact posted_length_le hstep
  · exact hr.sameCalls.posted

theorem vain_step (hused : d.Used) (halone : LeavesAlone p a p')
    (h : p.world.Short d → Vain e d p) (hs : probeStep hz p a = some p')
    (hshort : p'.world.Short d) : Vain e d p' := by
  have hbefore : p.world.Short d := by
    have hle := posted_mono hs
    unfold World.Short at hshort ⊢
    omega
  rcases move_of_probeStep hs with ⟨-, hm⟩ | ⟨host, rfl, hr⟩
  · exact (h hbefore).next hused hbefore hm
  · exact (h hbefore).around hused hbefore halone hr

variable {m : Mem} {sqDma cqDma src dst : Addr} {msi : Bool} {as : List ProbeAction}

/-- A callback that is still running when the engine is created may have no work in hand. -/
theorem vain_start (hused : d.Used) (h : Placed sqDma cqDma src dst)
    (hzero : ∀ x, Covers sqDma (16 * 24) x → m x = 0) {c : Callback}
    (hc : ∀ sqe, c ≠ .transfer sqe) :
    Vain (engineCreate sqDma cqDma msi d 16 16).1 d
      (.start { World.create d (fillBuffers m src dst) sqDma cqDma msi 16 16 with callback := c }
        src dst) where
  stale :=
    { rings := { onRings_create d (fillBuffers m src dst) sqDma cqDma msi 16 16 with }
      wellFormed := engineCreate_wellFormed ⟨4, rfl⟩ (by decide) h.rings
      sqDepth := rfl
      sqHead := by
        change (engineCreate sqDma cqDma msi d 16 16).2.sqHead = d.sqHead + 0
        rw [engineCreate_device]
        exact (BitVec.add_zero _).symm
      cqTail := by
        change (engineCreate sqDma cqDma msi d 16 16).2.cqTail =
          (engineCreate sqDma cqDma msi d 16 16).2.sqHead
        rw [engineCreate_device]
        exact hused.cqTail
      sqTail := rfl
      driver := trivial
      zero := fun x hx => by
        change fillBuffers m src dst x = 0
        rw [← hzero x hx]
        refine (Mem.write_of_not_covers fun hdst => ?_).trans
          (Mem.write_of_not_covers fun hsrc => ?_)
        · rw [List.length_replicate] at hdst
          exact h.dstSq x hdst hx
        · exact h.srcSq x (covers_of_le (by decide) hsrc) hx
      noOp := fun sqe hsqe => absurd hsqe (hc sqe) }
  apart b x hx := by
    cases b with
    | tx => exact ⟨h.srcSq x hx, h.srcCq x hx⟩
    | rx => exact ⟨h.dstSq x hx, h.dstCq x hx⟩
  src _ := read_fillBuffers h.buffers
  dst _ := by
    have hread : (fillBuffers m src dst).read dst 64 = List.replicate 64 0 := by
      have hwrite : (fillBuffers m src dst).read dst (List.replicate 64 (0 : Byte)).length = _ :=
        Mem.read_write (by simp)
      rwa [List.length_replicate] at hwrite
    have htake : (fillBuffers m src dst).read dst 18 =
        ((fillBuffers m src dst).read dst 64).take 18 := by
      rw [Mem.read, Mem.read, ← List.map_take, List.take_range]
      rfl
    exact htake.trans (by rw [hread]; rfl)
  stage := trivial

theorem Vain.exec {q : Probe} (h : Vain e d q) (hused : d.Used)
    (halone : Steps (probeStep hz) LeavesAlone q as)
    (hp : Base.exec (probeStep hz) q as = some p) (hshort : p.world.Short d) : Vain e d p :=
  halone.invariant (I := fun p => p.world.Short d → Vain e d p)
    (fun _ _ _ => vain_step hused) hp (fun _ => h) hshort

theorem Vain.not_returned (h : Vain e d p) : p.stage ≠ .returned := by
  intro hreturned
  have hround := h.stage
  rw [hreturned] at hround
  exact hround

theorem Vain.destroy_unsafe (h : Vain e d p) (hused : d.Used) (hshort : p.world.Short d)
    (hdestroy : p.stage = .destroy) : p.world.destroy.Unsafe := by
  have hround := h.stage
  rw [hdestroy] at hround
  exact Dma.destroy_unsafe h.stale.rings h.stale.cqFull_eq
    (World.GoesRound.not_settled hround h.stale hused hshort)

/-- **A second smoke test fails.** On a device that has been used, with a ring of zeros and
nobody else writing to the rings and the buffers, and until the device has gone nearly all
the way round its indices, the probe does not pass: the bytes that it compares differ. When
it gives up, some interleaving of `engine_destroy` with the device has the device access a
ring that has been freed. -/
theorem reprobe_fails (hused : d.Used) (h : Placed sqDma cqDma src dst)
    (hzero : ∀ x, Covers sqDma (16 * 24) x → m x = 0)
    (halone : Steps (probeStep hz) LeavesAlone (.create d m sqDma cqDma src dst msi) as)
    (hp : exec (probeStep hz) (.create d m sqDma cqDma src dst msi) as = some p)
    (hshort : d.sqHead.toNat + p.world.posted.length ≤ 2 ^ 32 - 16) :
    p.stage ≠ .returned ∧ (p.stage = .compare → p.roundtripped = false) ∧
      (p.stage = .destroy → ∃ bs, ¬ Steps teardownStep NoFreedDma p.world.destroy bs) := by
  have hstart : Vain (engineCreate sqDma cqDma msi d 16 16).1 d
      (.create d m sqDma cqDma src dst msi) :=
    vain_start (c := .idle) hused h hzero fun sqe hidle => by cases hidle
  have hvain := hstart.exec hused halone hp hshort
  exact ⟨hvain.not_returned, hvain.not_roundtripped, hvain.destroy_unsafe hused hshort⟩

def usedDevice : DmaEngineState :=
  { DmaEngineState.fresh with sqHead := 2, sqTail := 2, cqTail := 2 }

def secondTest : List ProbeAction := List.replicate 33 .next

theorem reprobe_fails_secondTest :
    ∃ p, exec (probeStep 250) (.create usedDevice (fun _ => 0) 0x1000 0x2000 0x3000 0x4000 true)
        secondTest = some p ∧ p.stage = .destroy ∧ p.timedOut = false ∧
      ∃ bs, ¬ Steps teardownStep NoFreedDma p.world.destroy bs := by
  have hrun : (exec (probeStep 250)
      (.create usedDevice (fun _ => 0) 0x1000 0x2000 0x3000 0x4000 true) secondTest).any
      (fun p => (p.stage = .destroy ∧ p.timedOut = false) ∧ p.world.posted.length = 0) = true := by
    decide +kernel
  obtain ⟨p, hs, hends⟩ := (Option.any_eq_true _ _).mp hrun
  obtain ⟨⟨hdestroy, hin⟩, hposted⟩ := of_decide_eq_true hends
  refine ⟨p, hs, hdestroy, hin, (reprobe_fails ⟨by decide, rfl⟩ placed_pages (fun _ _ => rfl)
    (leavesAlone_of_quiet rfl) hs ?_).2.2 hdestroy⟩
  rw [hposted]
  decide

end Vain

/-! ### Removing the driver and loading it again -/

/-- The device is at rest with both indices at `n`. -/
structure Rested (n : Word) (s : DmaEngineState) (c : Callback) : Prop where
  sqHead : s.sqHead = n
  cqTail : s.cqTail = n
  settled : Settled s c
  callback : c = .idle ∨ ∃ didWork, c = .loop didWork

def Teardown.reprobe (t : Teardown) (m : Mem) (sqDma cqDma src dst : Addr) (msi : Bool) : Probe :=
  .start { World.create t.dev (fillBuffers m src dst) sqDma cqDma msi 16 16 with
    callback := t.callback } src dst

section Reload

variable {hz : ℕ} {n : Word} {e : Engine} {p q : Probe} {t t' : Teardown}

theorem rested_destroyStep (h : Rested n t.dev t.callback) (hs : destroyStep t = some t') :
    Rested n t'.dev t'.callback := by
  have hsettled := settled_destroyStep h.settled hs
  unfold destroyStep at hs
  split at hs <;> cases hs <;> exact ⟨h.sqHead, h.cqTail, hsettled, h.callback⟩

theorem rested_teardownStep {a : TeardownAction} (h : Rested n t.dev t.callback)
    (hs : teardownStep t a = some t') : Rested n t'.dev t'.callback := by
  have hsettled := settled_teardownStep h.settled hs
  cases a with
  | destroy => exact rested_destroyStep h hs
  | host x b =>
      cases hs
      exact h
  | timer =>
      obtain ⟨⟨dev, callback⟩, hfire, rfl⟩ := Option.map_eq_some_iff.mp hs
      unfold timerFire at hfire
      split at hfire
      · split at hfire <;> cases hfire
        exact ⟨h.sqHead, h.cqTail, hsettled, Or.inr ⟨false, rfl⟩⟩
      · cases hfire
  | device r stack =>
      obtain ⟨⟨dev, callback, mem⟩, hstep, rfl⟩ := Option.map_eq_some_iff.mp hs
      rcases h.callback with hc | ⟨didWork, hc⟩
      · rw [hc] at hstep
        cases hstep
      · have hstop : t.dev.sqHead = t.dev.sqTail ∨ t.dev.cqFull = true := by
          have hloop := h.settled
          rw [hc] at hloop
          exact hloop
        rw [hc, callbackStep, if_pos hstop, Option.some.injEq, Prod.mk.injEq,
          Prod.mk.injEq] at hstep
        obtain ⟨rfl, rfl, -⟩ := hstep
        obtain ⟨_, _, _, hirq⟩ := raiseIrq_eq didWork t.dev
        refine ⟨?_, ?_, hsettled, Or.inl rfl⟩
        · change (if didWork then dmaEngineRaiseIrq t.dev else t.dev).sqHead = n
          rw [hirq]
          exact h.sqHead
        · change (if didWork then dmaEngineRaiseIrq t.dev else t.dev).cqTail = n
          rw [hirq]
          exact h.cqTail

/-- A smoke test that has passed has used both indices twice. -/
theorem Sound.rested (h : Sound e p) (hreturned : p.stage = .returned) :
    Rested 2 p.world.dev p.world.callback := by
  have hpassed := h.stage
  rw [hreturned] at hpassed
  have hsub := h.completion.submission
  have hlen : p.world.posted.length = 2 := by
    have hfail := h.completion.posting.failures
    rw [hpassed.failures] at hfail
    rcases hsub.resting hpassed.served with hc | ⟨didWork, hc⟩ <;> rw [hc] at hfail <;>
      exact hfail.symm
  have hhead := hsub.sqHead
  have htail := hsub.cqTail
  rw [hlen] at hhead htail
  exact ⟨hhead, htail, hsub.settled hpassed.served, hsub.resting hpassed.served⟩

variable {d : DmaEngineState} {m m' : Mem} {sqDma cqDma src dst sqDma' cqDma' src' dst' : Addr}
  {msi msi' : Bool} {as cs : List ProbeAction} {bs : List TeardownAction}

/-- **The driver cannot be loaded twice.** After a smoke test that has passed and an
`engine_destroy`, the smoke test of the next engine on the device does not pass, until the
device has gone nearly all the way round its indices, and gives up with a device that may
still access the freed rings. -/
theorem reload_fails (hd : d.InStep) (h : Placed sqDma cqDma src dst)
    (halone : Steps (probeStep hz) LeavesAlone (.create d m sqDma cqDma src dst msi) as)
    (hp : exec (probeStep hz) (.create d m sqDma cqDma src dst msi) as = some p)
    (hreturned : p.stage = .returned) (ht : exec teardownStep p.world.destroy bs = some t)
    (h' : Placed sqDma' cqDma' src' dst') (hzero : ∀ x, Covers sqDma' (16 * 24) x → m' x = 0)
    (halone' : Steps (probeStep hz) LeavesAlone
      (t.reprobe m' sqDma' cqDma' src' dst' msi') cs)
    (hq : exec (probeStep hz) (t.reprobe m' sqDma' cqDma' src' dst' msi') cs = some q)
    (hshort : 2 + q.world.posted.length ≤ 2 ^ 32 - 16) :
    q.stage ≠ .returned ∧
      (q.stage = .destroy → ∃ bs, ¬ Steps teardownStep NoFreedDma q.world.destroy bs) := by
  have hrested : Rested 2 t.dev t.callback :=
    exec_invariant (I := fun t => Rested 2 t.dev t.callback)
      (fun _ _ _ => rested_teardownStep) ht ((sound_exec hd h halone hp).rested hreturned)
  have hused : t.dev.Used := by
    refine ⟨?_, hrested.cqTail.trans hrested.sqHead.symm⟩
    rw [hrested.sqHead]
    decide
  have hshort' : q.world.Short t.dev := by
    unfold World.Short
    rw [hrested.sqHead]
    exact hshort
  have hrest : ∀ sqe, t.callback ≠ .transfer sqe := by
    intro sqe hc
    rcases hrested.callback with hidle | ⟨didWork, hloop⟩
    · rw [hidle] at hc
      cases hc
    · rw [hloop] at hc
      cases hc
  have hvain := (vain_start hused h' hzero hrest).exec hused halone' hq hshort'
  exact ⟨hvain.not_returned, hvain.destroy_unsafe hused hshort'⟩

theorem reload_fails_secondTest :
    ∃ p t q, exec (probeStep 250)
        (.create .fresh (fun _ => 0) 0x1000 0x2000 0x3000 0x4000 true) smokeTest = some p ∧
      p.stage = .returned ∧
      exec teardownStep p.world.destroy (List.replicate 9 .destroy) = some t ∧ t.next = .done ∧
      exec (probeStep 250) (t.reprobe (fun _ => 0) 0x1000 0x2000 0x3000 0x4000 true) secondTest =
        some q ∧
      q.stage = .destroy ∧ ∃ bs, ¬ Steps teardownStep NoFreedDma q.world.destroy bs := by
  have hrun : (exec (probeStep 250)
      (.create .fresh (fun _ => 0) 0x1000 0x2000 0x3000 0x4000 true) smokeTest).any (fun p =>
        p.stage = .returned ∧
        (exec teardownStep p.world.destroy (List.replicate 9 .destroy)).any (fun t =>
          t.next = .done ∧
          (exec (probeStep 250) (t.reprobe (fun _ => 0) 0x1000 0x2000 0x3000 0x4000 true)
            secondTest).any (fun q =>
              q.stage = .destroy ∧ q.world.posted.length = 0) = true) = true) = true := by
    decide +kernel
  obtain ⟨p, hp, hreturned⟩ := (Option.any_eq_true _ _).mp hrun
  obtain ⟨hreturned, hrun⟩ := of_decide_eq_true hreturned
  obtain ⟨t, ht, hdone⟩ := (Option.any_eq_true _ _).mp hrun
  obtain ⟨hdone, hrun⟩ := of_decide_eq_true hdone
  obtain ⟨q, hq, hdestroy⟩ := (Option.any_eq_true _ _).mp hrun
  obtain ⟨hdestroy, hposted⟩ := of_decide_eq_true hdestroy
  refine ⟨p, t, q, hp, hreturned, ht, hdone, hq, hdestroy,
    (reload_fails inStep_fresh placed_pages (leavesAlone_of_quiet rfl) hp hreturned ht placed_pages
      (fun _ _ => rfl) (leavesAlone_of_quiet rfl) hq ?_).2 hdestroy⟩
  rw [hposted]
  decide

end Reload

end SystemsPrep.Dma
