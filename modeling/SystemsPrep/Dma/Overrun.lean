import SystemsPrep.Dma.EndToEnd

/-!
Overrunning the completion ring.

The device tests for room in the completion ring with `cq_tail - sq_head`. The two
indices advance together, so the test always passes, and a callback posts a
completion for every announced submission whether or not the driver has made
room. The callbacks are harmless exactly when each finds room for all it is about
to post.
-/

namespace SystemsPrep.Dma

open Base

def Driver.AtRest : Driver → Prop
  | .idle | .returned _ => True
  | _ => False

instance : DecidablePred Driver.AtRest
  | .idle | .returned _ => .isTrue trivial
  | .readHead _ | .writeSlot _ _ | .advanceTail _ | .writeDoorbell | .readTail _
  | .copyOut _ _ _ => .isFalse id

/-- Calls and callbacks run one after the other. -/
def Serial (w : World) (a : Action) (_ : World) : Prop :=
  match a with
  | .submit _ | .doorbell | .drain _ | .driver => w.callback = .idle
  | .timer => w.driver.AtRest
  | .device _ | .host _ _ => True

instance (w : World) (a : Action) (w' : World) : Decidable (Serial w a w') :=
  match a with
  | .submit _ | .doorbell | .drain _ | .driver => inferInstanceAs (Decidable (_ = _))
  | .timer => inferInstanceAs (Decidable w.driver.AtRest)
  | .device _ | .host _ _ => .isTrue trivial

/-- No completion is overwritten before it is drained: the undrained ones fit the
ring, and the drained ones are those posted, in order. -/
def World.Intact (cqDepth : Word) (w : World) : Prop :=
  w.posted.length ≤ w.drained.length + cqDepth.toNat ∧
    w.dev.cqTail - w.eng.cqHead ≤ cqDepth ∧ w.drained <+: w.posted

instance (cqDepth : Word) : DecidablePred (World.Intact cqDepth) :=
  fun _ => inferInstanceAs (Decidable (_ ∧ _ ∧ _))

/-- A callback starts with room for every completion it is going to post: the
announced submissions together with the undrained completions fit the ring. -/
def RoomAtTimer (cqDepth : Word) (w : World) (a : Action) (_ : World) : Prop :=
  a = .timer →
    (w.dev.sqTail - w.dev.sqHead).toNat + (w.dev.cqTail - w.eng.cqHead).toNat ≤ cqDepth.toNat

variable {e : Engine} {w w' : World}

namespace Completion

theorem toNat_cqTail_sub_cqHead (h : Completion e w)
    (hle : w.posted.length ≤ w.drained.length + e.cqDepth.toNat) :
    (w.dev.cqTail - w.eng.cqHead).toNat = w.posted.length - w.drained.length := by
  have := e.cqDepth.isLt
  rw [h.submission.cqTail, h.draining.cqHead,
    toNat_ofNat_sub h.draining.drained_le (by omega)]

theorem room_iff (h : Completion e w)
    (hle : w.posted.length ≤ w.drained.length + e.cqDepth.toNat) :
    (w.dev.sqTail - w.dev.sqHead).toNat + (w.dev.cqTail - w.eng.cqHead).toNat ≤ e.cqDepth.toNat ↔
      w.announced ≤ w.drained.length + e.cqDepth.toNat := by
  have hposted := h.submission.posted_le
  have hdrained := h.draining.drained_le
  rw [h.submission.toNat_doorbell_sub_sqHead, h.toNat_cqTail_sub_cqHead hle]
  omega

end Completion

/-! ### Room is enough -/

/-- What is posted fits the ring, and so does what a callback in progress is
still to post. -/
def Roomy (e : Engine) (w : World) : Prop :=
  (w.callback = .idle ∧ w.posted.length ≤ w.drained.length + e.cqDepth.toNat) ∨
    w.announced ≤ w.drained.length + e.cqDepth.toNat

namespace Roomy

theorem posted_le (hr : Roomy e w) (h : Submission e w) :
    w.posted.length ≤ w.drained.length + e.cqDepth.toNat := by
  rcases hr with ⟨-, hle⟩ | hle
  · exact hle
  · exact h.posted_le.trans hle

theorem fetched_le (hr : Roomy e w) (h : Submission e w) :
    w.fetched.length ≤ w.drained.length + e.cqDepth.toNat := by
  rcases hr with ⟨hc, hle⟩ | hle
  · have hfetch := h.fetch
    rw [hc] at hfetch
    exact (show w.fetched.length = w.posted.length from hfetch).le.trans hle
  · exact h.fetched_le.2.trans hle

theorem of_idle (hr : Roomy e w) (h : Submission e w) (hc' : w'.callback = .idle)
    (hposted : w'.posted = w.posted) (hdrained : w.drained.length ≤ w'.drained.length) :
    Roomy e w' := by
  have hle := hr.posted_le h
  exact Or.inl ⟨hc', by rw [hposted]; omega⟩

theorem driverMove (hr : Roomy e w) (h : Submission e w) (hc : w.callback = .idle)
    (hm : DriverMove w w') : Roomy e w' := by
  cases hm with
  | finish cqHead n out hd hn => exact hr.of_idle h hc rfl (by simp)
  | _ => exact hr.of_idle h hc rfl le_rfl

theorem announced_le (hr : Roomy e w) (hc : w.callback ≠ .idle) :
    w.announced ≤ w.drained.length + e.cqDepth.toNat :=
  hr.resolve_left fun hidle => hc hidle.1

theorem deviceMove {r : DmaResult} (hr : Roomy e w) (h : Submission e w)
    (hm : DeviceMove r w w') : Roomy e w' := by
  cases hm with
  | stop didWork hc htest => exact hr.of_idle h rfl rfl le_rfl
  | fetch didWork hc hne hroom => exact Or.inr (hr.announced_le (by simp [hc]))
  | transfer sqe buf m hc hm => exact Or.inr (hr.announced_le (by simp [hc]))
  | writeCqe cqe hc => exact Or.inr (hr.announced_le (by simp [hc]))
  | advance cqe hc => exact Or.inr (hr.announced_le (by simp [hc]))

theorem step {a : Action} (hr : Roomy e w) (h : Completion e w) (hserial : Serial w a w')
    (hroom : RoomAtTimer e.cqDepth w a w') (hs : Dma.step w a = some w') : Roomy e w' := by
  have hsub := h.submission
  cases a with
  | submit sqe => obtain rfl := enter_eq_some hs; exact hr.of_idle hsub hserial rfl le_rfl
  | doorbell => obtain rfl := enter_eq_some hs; exact hr.of_idle hsub hserial rfl le_rfl
  | drain max => obtain rfl := enter_eq_some hs; exact hr.of_idle hsub hserial rfl le_rfl
  | driver => exact hr.driverMove hsub hserial (driverMove_of_driverStep hs)
  | timer =>
      obtain ⟨-, -, rfl⟩ := timerStep_eq_some hs
      exact Or.inr ((h.room_iff (hr.posted_le hsub)).mp (hroom rfl))
  | device r => exact hr.deviceMove hsub (deviceMove_of_deviceStep hs)
  | host a b => cases hs; exact hr

end Roomy

/-! ### Room is needed -/

/-- A callback that is going to post more than the ring has room for. -/
def Overrunning (e : Engine) (w : World) : Prop :=
  w.callback ≠ .idle ∧ w.drained.length + e.cqDepth.toNat < w.announced

/-- It cannot end without an overrun. -/
theorem Overrunning.step {a : Action} (ho : Overrunning e w) (h : Completion e w)
    (hserial : Serial w a w')
    (hle : w.posted.length ≤ w.drained.length + e.cqDepth.toNat)
    (hs : Dma.step w a = some w') : Overrunning e w' := by
  obtain ⟨hbusy, hlt⟩ := ho
  cases a with
  | submit sqe => exact absurd hserial hbusy
  | doorbell => exact absurd hserial hbusy
  | drain max => exact absurd hserial hbusy
  | driver => exact absurd hserial hbusy
  | timer =>
      obtain ⟨hc, -, -⟩ := timerStep_eq_some hs
      exact absurd hc hbusy
  | device r =>
      cases deviceMove_of_deviceStep hs with
      | stop didWork hc htest =>
          rw [h.submission.not_cqFull h.wellFormed, or_iff_left (by simp),
            h.submission.sqHead_eq_sqTail_iff] at htest
          omega
      | _ => exact ⟨by simp, hlt⟩
  | host a b => cases hs; exact ⟨hbusy, hlt⟩

/-! ### The condition -/

section

variable {s : World} {as : List Action}

theorem intact_of_roomAtTimer (he : Completion e s) (ho : s.InOrder) (hr : Roomy e s)
    (has : ∀ a ∈ as, a.Apart e) (hserial : Steps step Serial s as)
    (hroom : Steps step (RoomAtTimer e.cqDepth) s as) :
    Always step s as (World.Intact e.cqDepth) := by
  intro bs hbs t ht
  obtain ⟨cs, rfl⟩ := hbs
  have hstep : ∀ u a u', ((a.Apart e ∧ Serial u a u') ∧ RoomAtTimer e.cqDepth u a u') →
      (Completion e u ∧ u.InOrder ∧ Roomy e u) → step u a = some u' →
      Completion e u' ∧ u'.InOrder ∧ Roomy e u' := by
    rintro u a u' ⟨⟨ha, hser⟩, hrm⟩ ⟨hu, huo, hur⟩ hs
    exact ⟨hu.step ha hs, hu.inOrder_step hs huo (hur.fetched_le hu.submission),
      hur.step hu hser hrm hs⟩
  have hsteps := ((Steps.of_forall_mem has).and hserial).and hroom
  obtain ⟨h, horder, hroomy⟩ := hsteps.of_append.invariant hstep ht ⟨he, ho, hr⟩
  have hle := hroomy.posted_le h.submission
  refine ⟨hle, ?_, (List.prefix_append _ _).trans horder⟩
  rw [BitVec.le_def, h.toNat_cqTail_sub_cqHead hle]
  omega

theorem roomAtTimer_of_intact (he : Completion e s) (has : ∀ a ∈ as, a.Apart e)
    (hserial : Steps step Serial s as) (hw : exec step s as = some w)
    (hidle : w.callback = .idle) (hintact : Always step s as (World.Intact e.cqDepth)) :
    Steps step (RoomAtTimer e.cqDepth) s as := by
  rintro bs a t t' ⟨cs, rfl⟩ ht hta rfl
  have ht' : exec step s (bs ++ [.timer]) = some t' := exec_concat_eq_some.mpr ⟨t, ht, hta⟩
  have hcs := exec_after ht' hw
  have hmem : ∀ b ∈ bs, b.Apart e :=
    fun b hb => has b (List.mem_append_left _ (List.mem_append_left _ hb))
  have h := he.exec hmem ht
  have hle : t.posted.length ≤ t.drained.length + e.cqDepth.toNat :=
    (hintact bs (by rw [List.append_assoc]; exact List.prefix_append _ _) t ht).1
  rw [h.room_iff hle]
  by_contra hlt
  -- the callback that starts here never ends
  obtain ⟨hc, harmed, rfl⟩ := timerStep_eq_some hta
  have hstart : Overrunning e
      { t with dev := { t.dev with timerArmed := false }, callback := .loop false } :=
    ⟨by simp, Nat.lt_of_not_le hlt⟩
  have hstep : ∀ u a u', ((a.Apart e ∧ Serial u a u') ∧ u.Intact e.cqDepth) →
      (Completion e u ∧ Overrunning e u) → step u a = some u' →
      Completion e u' ∧ Overrunning e u' := by
    rintro u a u' ⟨⟨ha, hser⟩, hint⟩ ⟨hu, huo⟩ hs
    exact ⟨hu.step ha hs, huo.step hu hser hint.1 hs⟩
  have hsteps := (((Steps.of_forall_mem has).and hserial).and hintact.steps).after ht'
  have hsub := hsteps.invariant hstep hcs ⟨h.step (a := .timer) trivial hta, hstart⟩
  exact hsub.2.1 hidle

end

variable {m : Mem} {sqDma cqDma : Addr} {msi : Bool} {sqDepth cqDepth : Word}

/-- **When no completion is overwritten.** In a run of whole calls and callbacks
every completion is drained as it was posted, in order, if and only if every
callback starts with room for what it is going to post. -/
theorem intact_iff_roomAtTimer {as : List Action}
    (hsq : sqDepth.toNat.isPowerOfTwo) (hcq : cqDepth.toNat.isPowerOfTwo)
    (hrings : Apart sqDma (sqDepth.toNat * 24) cqDma (cqDepth.toNat * 16))
    (has : ∀ a ∈ as, a.Apart (engineCreate sqDma cqDma msi .fresh sqDepth cqDepth).1)
    (hserial : Steps step Serial (.create .fresh m sqDma cqDma msi sqDepth cqDepth) as)
    (hw : exec step (.create .fresh m sqDma cqDma msi sqDepth cqDepth) as = some w)
    (hidle : w.callback = .idle) :
    Always step (.create .fresh m sqDma cqDma msi sqDepth cqDepth) as (World.Intact cqDepth) ↔
      Steps step (RoomAtTimer cqDepth) (.create .fresh m sqDma cqDma msi sqDepth cqDepth) as := by
  have hstart : Completion (engineCreate sqDma cqDma msi .fresh sqDepth cqDepth).1
      (.create .fresh m sqDma cqDma msi sqDepth cqDepth) :=
    completion_create inStep_fresh hsq hcq hrings
  constructor
  · exact roomAtTimer_of_intact hstart has hserial hw hidle
  · exact intact_of_roomAtTimer hstart (List.prefix_refl _) (Or.inr (Nat.zero_le _)) has hserial

theorem intact_iff_roomAtTimer_probeCalls :
    Always step (.create .fresh (fun _ => 0) 0x1000 0x2000 true 2 1) probeCalls
        (World.Intact 1) ∧
      Steps step (RoomAtTimer 1) (.create .fresh (fun _ => 0) 0x1000 0x2000 true 2 1)
        probeCalls := by
  have hs : exec step (.create .fresh (fun _ => 0) 0x1000 0x2000 true 2 1) probeCalls =
      some _ := rfl
  have hintact : Always step (.create .fresh (fun _ => 0) 0x1000 0x2000 true 2 1) probeCalls
      (World.Intact 1) := by decide +kernel
  refine ⟨hintact, (intact_iff_roomAtTimer ⟨1, rfl⟩ ⟨0, rfl⟩
    (apart_of_le (by decide) (by decide)) ?_ (by decide +kernel) hs rfl).mp hintact⟩
  exact probeCalls_apart (probeSqes_apart rfl rfl (by decide) (by decide))

def undrainedRounds : List Action :=
  submitCall txSqe ++ [.doorbell, .driver] ++ processOne .ok ++
    submitCall rxSqe ++ [.doorbell, .driver] ++ processOne .ok ++
    [.drain 2, .driver, .driver, .driver, .driver]

theorem undrainedRounds_apart (h : txSqe.Apart e ∧ rxSqe.Apart e) :
    ∀ a ∈ undrainedRounds, a.Apart e := by
  simp [undrainedRounds, submitCall, processOne, Action.Apart, h]

/-- The first completion is overwritten by the second, which is drained twice. -/
theorem undrained_completion_overwritten :
    (∀ a ∈ undrainedRounds, a.Apart (engineCreate 0x1000 0x2000 true .fresh 1 1).1) ∧
      ∃ w, exec step (.create .fresh (fun _ => 0) 0x1000 0x2000 true 1 1) undrainedRounds =
          some w ∧
        Steps step Serial (.create .fresh (fun _ => 0) 0x1000 0x2000 true 1 1) undrainedRounds ∧
        w.callback = .idle ∧
        w.posted = [completion txSqe false, completion rxSqe false] ∧
        w.drained = [completion rxSqe false, completion rxSqe false] ∧
        ¬ Always step (.create .fresh (fun _ => 0) 0x1000 0x2000 true 1 1) undrainedRounds
          (World.Intact 1) := by
  have hs : exec step (.create .fresh (fun _ => 0) 0x1000 0x2000 true 1 1) undrainedRounds =
      some _ := rfl
  constructor
  · exact undrainedRounds_apart (probeSqes_apart rfl rfl (by decide) (by decide))
  · exact ⟨_, hs, by decide +kernel, rfl, by decide +kernel, by decide +kernel,
      by decide +kernel⟩

end SystemsPrep.Dma
