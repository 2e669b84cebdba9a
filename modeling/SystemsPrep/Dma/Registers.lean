import SystemsPrep.Dma.Process

/-!
The ring accesses of the device under any programming of its registers.

The slots are chosen by masking with a depth less one, and the depths are taken
as they are written: nothing looks at the ready condition of `REG_DEVICE_STATUS`
before the rings are used. A mask from a depth that is not zero stays inside the
ring, power of two or not. A completion is only written when the test for room
has passed, which it never does on a ring of depth zero; nothing of the kind
protects the submission ring.
-/

namespace SystemsPrep.Dma

open Base

/-- Write a register, let the timer fire, take the next action of its callback,
or write a byte of guest memory. -/
inductive RegAction
  | mmioWrite (addr : ℕ) (val : BitVec 64)
  | timer
  | device (b : Bus)
  | host (a : Addr) (b : Byte)

/-- Registers are written between callbacks: the register handlers and the timer
exclude each other. Guest memory may be written at any moment. -/
def regStep (p : Processing) : RegAction → Option Processing
  | .mmioWrite addr val =>
      match p.callback with
      | .idle => some { p with dev := dmaEngineMmioWrite p.dev addr val }
      | _ => none
  | .timer =>
      (timerFire p.dev p.callback).map fun (dev, callback) =>
        { p with dev := dev, callback := callback }
  | .device b => processStep p b
  | .host a b => some { p with mem := Function.update p.mem a b }

def Processing.fresh (m : Mem) : Processing where
  dev := .fresh
  callback := .idle
  mem := m

def regNote (p : Processing) (a : RegAction) (p' : Processing) : List DmaEvent :=
  match a with
  | .device b => processNote p b p'
  | _ => []

/-- The access lies in the rings of the device as they are configured. -/
def DmaEvent.InRings (s : DmaEngineState) : DmaEvent → Prop
  | .fetchSqe addr _ => ∃ i < s.sqDepth.toNat, addr = s.sqBase + BitVec.ofNat 64 (i * 24)
  | .writeCqe addr _ => ∃ j < s.cqDepth.toNat, addr = s.cqBase + BitVec.ofNat 64 (j * 16)
  | .raiseIrq => True

def RingAccess (p : Processing) (a : RegAction) (p' : Processing) : Prop :=
  ∀ e ∈ regNote p a p', e.InRings p.dev

def CqeAccess (p : Processing) (a : RegAction) (p' : Processing) : Prop :=
  ∀ addr cqe, .writeCqe addr cqe ∈ regNote p a p' → (DmaEvent.writeCqe addr cqe).InRings p.dev

/-- What is noted of the step is what it does on the bus. -/
def Accounted (p : Processing) (a : RegAction) (p' : Processing) : Prop :=
  match a with
  | .device b => OnBus p b p'
  | .host x v => p'.mem = Function.update p.mem x v
  | .mmioWrite _ _ | .timer => p'.mem = p.mem

/-- A callback that starts here has no submission to fetch, or a ring to fetch it from. -/
def DmaEngineState.MayStart (s : DmaEngineState) : Prop :=
  s.sqHead = s.sqTail ∨ s.cqFull = true ∨ s.sqDepth ≠ 0

/-- Every callback starts where it may. -/
def StartAtTimer (p : Processing) (a : RegAction) (_ : Processing) : Prop :=
  match a with
  | .timer => p.dev.MayStart
  | _ => True

instance (s : DmaEngineState) : Decidable s.MayStart :=
  inferInstanceAs (Decidable (_ ∨ _ ∨ _))

instance (p : Processing) (a : RegAction) (p' : Processing) : Decidable (StartAtTimer p a p') :=
  match a with
  | .timer => inferInstanceAs (Decidable p.dev.MayStart)
  | .mmioWrite _ _ | .device _ | .host _ _ => .isTrue trivial

/-! ### The accesses of a step -/

theorem sqe_inRings {s : DmaEngineState} (h : s.sqDepth ≠ 0) (sqe : Sqe) :
    (DmaEvent.fetchSqe s.sqeAddr sqe).InRings s :=
  ⟨_, toNat_and_sub_one_lt h s.sqHead, sqeAddr_eq s⟩

theorem cqe_inRings {s : DmaEngineState} (h : s.cqDepth ≠ 0) (cqe : Cqe) :
    (DmaEvent.writeCqe s.cqeAddr cqe).InRings s :=
  ⟨_, toNat_and_sub_one_lt h s.cqTail, cqeAddr_eq s⟩

/-- On a ring of depth zero there is no place for a submission. -/
theorem not_sqe_inRings {s : DmaEngineState} (h : s.sqDepth = 0) (sqe : Sqe) :
    ¬ (DmaEvent.fetchSqe s.sqeAddr sqe).InRings s := by
  rintro ⟨i, hi, -⟩
  rw [h] at hi
  exact Nat.not_lt_zero i hi

def DepthsKnown (p : Processing) : Prop :=
  match p.callback with
  | .idle => True
  | .loop _ => p.dev.MayStart
  | .transfer _ | .writeCqe _ | .advance _ => p.dev.sqDepth ≠ 0 ∧ p.dev.cqDepth ≠ 0

theorem depthsKnown_processMove {p p' : Processing} (h : DepthsKnown p) (hm : ProcessMove p p') :
    DepthsKnown p' := by
  cases hm with
  | stop didWork hc htest => trivial
  | fetch didWork sqe hc hwork hroom =>
      simp only [DepthsKnown, hc] at h
      refine ⟨?_, cqDepth_ne_zero hroom⟩
      rcases h with heq | hfull | hdepth
      · exact absurd heq hwork
      · rw [hroom] at hfull
        cases hfull
      · exact hdepth
  | transfer sqe cqe buf m hc =>
      simp only [DepthsKnown, hc] at h
      exact h
  | writeCqe cqe m hc =>
      simp only [DepthsKnown, hc] at h
      exact h
  | advance cqe hc =>
      simp only [DepthsKnown, hc] at h
      exact Or.inr (Or.inr h.1)

theorem timer_eq_some {p p' : Processing} (h : regStep p .timer = some p') :
    p.callback = .idle ∧ p.dev.timerArmed = true ∧
      p' = { p with dev := { p.dev with timerArmed := false }, callback := .loop false } := by
  simp only [regStep, timerFire] at h
  split at h
  · rename_i hc
    split at h <;> rename_i harmed
    · cases h
      exact ⟨hc, harmed, rfl⟩
    · cases h
  · cases h

theorem depthsKnown_step {p p' : Processing} {a : RegAction} (hstart : StartAtTimer p a p')
    (h : DepthsKnown p) (hs : regStep p a = some p') : DepthsKnown p' := by
  cases a with
  | mmioWrite addr val =>
      simp only [regStep] at hs
      split at hs <;> cases hs
      rename_i hc
      simp only [DepthsKnown, hc]
  | timer =>
      obtain ⟨-, -, rfl⟩ := timer_eq_some hs
      exact hstart
  | device b => exact depthsKnown_processMove h (processMove_of_processStep hs)
  | host a b =>
      cases hs
      exact h

theorem ringAccess_of_depthsKnown {p p' : Processing} {a : RegAction} (h : DepthsKnown p)
    (hs : regStep p a = some p') : RingAccess p a p' := by
  intro e he
  cases a with
  | mmioWrite addr val => cases he
  | timer => cases he
  | host a b => cases he
  | device b =>
      cases processMove_of_processStep hs with
      | stop didWork hc htest =>
          cases didWork with
          | false => simp [regNote, processNote, hc] at he
          | true =>
              simp only [regNote, processNote, hc, List.mem_singleton] at he
              rw [he]
              trivial
      | fetch didWork sqe hc hwork hroom =>
          have hknown := depthsKnown_processMove h (.fetch didWork sqe hc hwork hroom)
          simp only [regNote, processNote, hc, List.mem_singleton] at he
          rw [he]
          exact sqe_inRings hknown.1 sqe
      | transfer sqe cqe buf m hc => simp [regNote, processNote, hc] at he
      | writeCqe cqe m hc =>
          simp only [DepthsKnown, hc] at h
          simp only [regNote, processNote, hc, List.mem_singleton] at he
          rw [he]
          exact cqe_inRings h.2 cqe
      | advance cqe hc => simp [regNote, processNote, hc] at he

def CqDepthKnown (p : Processing) : Prop :=
  match p.callback with
  | .idle | .loop _ => True
  | .transfer _ | .writeCqe _ | .advance _ => p.dev.cqDepth ≠ 0

theorem cqDepthKnown_step {p p' : Processing} {a : RegAction} (h : CqDepthKnown p)
    (hs : regStep p a = some p') : CqDepthKnown p' := by
  cases a with
  | mmioWrite addr val =>
      simp only [regStep] at hs
      split at hs <;> cases hs
      rename_i hc
      simp only [CqDepthKnown, hc]
  | timer =>
      obtain ⟨-, -, rfl⟩ := timer_eq_some hs
      trivial
  | host a b =>
      cases hs
      exact h
  | device b =>
      cases processMove_of_processStep hs with
      | stop | advance => trivial
      | fetch didWork sqe hc hwork hroom => exact cqDepth_ne_zero hroom
      | transfer _ _ _ _ hc | writeCqe _ _ hc =>
          simp only [CqDepthKnown, hc] at h
          exact h

theorem cqeAccess_of_cqDepthKnown {p p' : Processing} {a : RegAction} (h : CqDepthKnown p) :
    CqeAccess p a p' := by
  intro addr cqe he
  cases a with
  | mmioWrite | timer | host => cases he
  | device b =>
      simp only [regNote, processNote] at he
      split at he <;> simp only [List.mem_singleton, List.not_mem_nil, reduceCtorEq] at he
      rename_i hc
      cases he
      simp only [CqDepthKnown, hc] at h
      exact cqe_inRings h _

theorem accounted_of_regStep {p p' : Processing} {a : RegAction} (hs : regStep p a = some p') :
    Accounted p a p' := by
  cases a with
  | mmioWrite addr val =>
      simp only [regStep] at hs
      split at hs <;> cases hs
      rfl
  | timer =>
      obtain ⟨-, -, rfl⟩ := timer_eq_some hs
      rfl
  | host a b =>
      cases hs
      rfl
  | device b => exact onBus_of_processStep hs

theorem ringAccess_of_startAtTimer {m : Mem} {as : List RegAction}
    (h : Steps regStep StartAtTimer (.fresh m) as) :
    Steps regStep RingAccess (.fresh m) as := by
  intro bs a t t' hbs ht hs
  obtain ⟨cs, rfl⟩ := hbs
  have hbefore : Steps regStep StartAtTimer (.fresh m) bs := h.of_append.of_append
  have hfresh : DepthsKnown (.fresh m) := trivial
  refine ringAccess_of_depthsKnown (hbefore.invariant ?_ ht hfresh) hs
  exact fun _ _ _ => depthsKnown_step

/-! ### The other direction -/

def Doomed (p : Processing) : Prop :=
  p.callback = .loop false ∧ ¬ p.dev.MayStart

/-- A callback that may not start, but runs to its end, accesses memory outside the ring. -/
theorem not_ringAccess_of_doomed {p p' : Processing} {as : List RegAction} (hp : Doomed p)
    (h : exec regStep p as = some p') (hidle : p'.callback = .idle) :
    ¬ Steps regStep RingAccess p as := by
  induction as generalizing p with
  | nil =>
      simp only [exec_nil, Option.some.injEq] at h
      rw [← h, hp.1] at hidle
      cases hidle
  | cons a as ih =>
      obtain ⟨t, hs, ht⟩ := exec_cons_eq_some.mp h
      intro hsteps
      obtain ⟨haccess, hrest⟩ := steps_cons.mp hsteps t hs
      cases a with
      | mmioWrite addr val => simp [regStep, hp.1] at hs
      | timer =>
          have hc := (timer_eq_some hs).1
          rw [hp.1] at hc
          cases hc
      | host a b =>
          cases hs
          exact ih (p := { p with mem := Function.update p.mem a b }) hp ht hrest
      | device b =>
          -- the first step of the callback is a fetch, and it misses the ring
          obtain ⟨hc, hmay⟩ := hp
          simp only [DmaEngineState.MayStart, not_or, ne_eq, not_not] at hmay
          cases processMove_of_processStep hs with
          | stop didWork hc' htest => exact htest.elim hmay.1 hmay.2.1
          | fetch didWork sqe hc' hwork hroom =>
              refine not_sqe_inRings hmay.2.2 sqe (haccess _ ?_)
              simp [regNote, processNote, hc]
          | transfer sqe cqe buf m hc' =>
              rw [hc] at hc'
              cases hc'
          | writeCqe cqe m hc' =>
              rw [hc] at hc'
              cases hc'
          | advance cqe hc' =>
              rw [hc] at hc'
              cases hc'

theorem startAtTimer_of_ringAccess {m : Mem} {as : List RegAction} {p : Processing}
    (h : exec regStep (.fresh m) as = some p) (hidle : p.callback = .idle)
    (haccess : Steps regStep RingAccess (.fresh m) as) :
    Steps regStep StartAtTimer (.fresh m) as := by
  intro bs a t t' hbs ht hs
  cases a with
  | timer =>
      obtain ⟨cs, rfl⟩ := hbs
      by_contra hmay
      have ht' : exec regStep (.fresh m) (bs ++ [.timer]) = some t' :=
        exec_concat_eq_some.mpr ⟨t, ht, hs⟩
      have hdoomed : Doomed t' := by
        obtain ⟨-, -, rfl⟩ := timer_eq_some hs
        exact ⟨rfl, hmay⟩
      exact not_ringAccess_of_doomed hdoomed (exec_after ht' h) hidle (haccess.after ht')
  | _ => trivial

/-- **The ring accesses of the device lie inside its rings exactly when no
callback starts with a submission to fetch, room for its completion and a
submission ring of depth zero.** The completions always lie in theirs. -/
theorem ringAccess_iff_startAtTimer {m : Mem} {as : List RegAction} {p : Processing}
    (h : exec regStep (.fresh m) as = some p) :
    (Steps regStep StartAtTimer (.fresh m) as → Steps regStep RingAccess (.fresh m) as) ∧
      (p.callback = .idle →
        (Steps regStep RingAccess (.fresh m) as ↔ Steps regStep StartAtTimer (.fresh m) as)) ∧
      Steps regStep CqeAccess (.fresh m) as ∧ Steps regStep Accounted (.fresh m) as := by
  refine ⟨ringAccess_of_startAtTimer, fun hidle =>
    ⟨startAtTimer_of_ringAccess h hidle, ringAccess_of_startAtTimer⟩, ?_,
    fun _ _ _ _ _ _ hs => accounted_of_regStep hs⟩
  exact Steps.of_invariant (A := fun _ => True) (I := CqDepthKnown)
    (fun _ _ _ _ hk hs => cqDepthKnown_step hk hs) (fun _ _ _ hk _ => cqeAccess_of_cqDepthKnown hk)
    (fun _ _ => trivial) trivial

def configuredDoorbell : List RegAction :=
  [.mmioWrite Reg.sqDepth.offset 3, .mmioWrite Reg.cqDepth.offset 4,
    .mmioWrite Reg.sqDoorbell.offset 1, .timer, .device (.granted .ok), .device (.granted .ok),
    .device (.granted .ok), .device (.granted .ok), .device (.granted .ok)]

theorem ringAccess_iff_startAtTimer_configuredDoorbell :
    Steps regStep StartAtTimer (.fresh fun _ => 0) configuredDoorbell ∧
      Steps regStep RingAccess (.fresh fun _ => 0) configuredDoorbell := by
  have hs : exec regStep (.fresh fun _ => 0) configuredDoorbell = some _ := rfl
  have hstart : Steps regStep StartAtTimer (.fresh fun _ => 0) configuredDoorbell := by
    decide +kernel
  exact ⟨hstart, ((ringAccess_iff_startAtTimer hs).2.1 rfl).mpr hstart⟩

/-- A doorbell while `REG_SQ_DEPTH` still reads zero. -/
def earlyDoorbell : List RegAction :=
  [.mmioWrite Reg.cqDepth.offset 4, .mmioWrite Reg.sqDoorbell.offset 1, .timer,
    .device (.granted .ok)]

/-- The device fetches a submission although its ring has no slots. -/
theorem earlyDoorbell_outside_rings :
    ¬ ∀ (m : Mem) (as : List RegAction) (p : Processing),
      exec regStep (.fresh m) as = some p → Steps regStep RingAccess (.fresh m) as := by
  intro h
  have hs : exec regStep (.fresh fun _ => 0) earlyDoorbell = some _ := rfl
  have haccess := h _ _ _ hs (earlyDoorbell.take 3) _ _ _ (List.prefix_refl _) rfl rfl
  obtain ⟨i, hi, -⟩ := haccess _ (List.mem_singleton_self _)
  exact Nat.not_lt_zero i hi

end SystemsPrep.Dma
