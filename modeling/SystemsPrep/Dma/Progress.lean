import SystemsPrep.Base.Fair
import SystemsPrep.Dma.Coalescing

/-!
No doorbell is lost.

A doorbell that is written while the callback runs arms the timer once more, and the callback
itself looks at the tail at every turn of its loop. If the timer and the device have turns
again and again, a submission that was announced is completed, whatever calls the driver
makes meanwhile.
-/

namespace SystemsPrep.Dma

open Base

inductive DeviceThread
  | timer
  | callback
  deriving DecidableEq

def Action.thread : Action → Option DeviceThread
  | .timer => some .timer
  | .device _ => some .callback
  | _ => none

def Callback.thread : Callback → DeviceThread
  | .idle => .timer
  | _ => .callback

def Callback.stage : Callback → ℕ
  | .idle => 0
  | .loop _ => 4
  | .transfer _ => 3
  | .writeCqe _ => 2
  | .advance _ => 1

/-- The steps of the device to the completion of `N` submissions. -/
def World.distance (N : ℕ) (w : World) : ℕ :=
  4 * (N - w.posted.length) + w.callback.stage +
    match w.callback.thread with
    | .timer => 5
    | .callback => 0

section Progress

variable {e : Engine} {w w' : World} {a : Action} {N : ℕ}

theorem callbackStep_isSome (b : Bus) (s : DmaEngineState) {c : Callback} (m : Mem)
    (hc : c ≠ .idle) : (callbackStep b s c m).isSome := by
  cases c with
  | idle => exact absurd rfl hc
  | loop didWork =>
      rw [callbackStep]
      split <;> rfl
  | transfer | writeCqe | advance => rfl

theorem announced_le_step (hs : Submission e w) (hstep : step w a = some w') :
    w.announced ≤ w'.announced := by
  cases move_of_step hstep with
  | driver w' hm =>
      cases hm with
      | writeDoorbell hd => exact hs.announced_le
      | _ => exact le_rfl
  | device r w' hm => cases hm <;> exact le_rfl
  | enter | timer | host => exact le_rfl

/-- The device does not stop short of what was announced. -/
theorem distance_deviceMove {r : DmaResult} (he : e.WellFormed) (hs : Submission e w)
    (hmore : w.posted.length < N) (hann : N ≤ w.announced) (hm : DeviceMove r w w') :
    w'.distance N < w.distance N := by
  cases hm with
  | stop didWork hc htest =>
      -- the loop ends only when it has caught up with the doorbell
      rw [hs.not_cqFull he, or_iff_left Bool.false_ne_true, hs.sqHead_eq_sqTail_iff] at htest
      omega
  | fetch didWork hc hne hroom =>
      simp only [World.distance, hc, Callback.stage, Callback.thread]
      omega
  | transfer sqe buf m hc hm =>
      simp only [World.distance, hc, Callback.stage, Callback.thread]
      omega
  | writeCqe cqe hc =>
      simp only [World.distance, hc, Callback.stage, Callback.thread]
      omega
  | advance cqe hc =>
      simp only [World.distance, hc, Callback.stage, Callback.thread, List.length_append,
        List.length_singleton]
      omega

/-- A step of the device brings the completion nearer, and no other step matters. -/
theorem distance_step (he : e.WellFormed) (hs : Submission e w) (hmore : w.posted.length < N)
    (hann : N ≤ w.announced) (hstep : step w a = some w') :
    w'.distance N < w.distance N ∨
      (w'.distance N = w.distance N ∧ w'.callback = w.callback ∧ a.thread = none) := by
  cases move_of_step hstep with
  | enter a d hentry hout =>
      refine Or.inr ⟨rfl, rfl, ?_⟩
      cases a <;> cases hentry <;> rfl
  | driver w' hm => cases hm <;> exact Or.inr ⟨rfl, rfl, rfl⟩
  | timer hc harmed =>
      refine Or.inl ?_
      simp only [World.distance, hc, Callback.stage, Callback.thread]
      omega
  | device r w' hm => exact Or.inl (distance_deviceMove he hs hmore hann hm)
  | host x b => exact Or.inr ⟨rfl, rfl, rfl⟩

/-- The device is not blocked if its timer is armed while it is at rest. -/
theorem turn_isSome (harmed : w.callback = .idle → w.dev.timerArmed = true)
    (hturn : a.thread = some w.callback.thread) : (step w a).isSome := by
  cases a with
  | timer =>
      cases hc : w.callback with
      | idle => simp [step, timerStep, timerFire, hc, harmed hc]
      | _ =>
          rw [hc] at hturn
          cases hturn
  | device r =>
      have hne : w.callback ≠ .idle := by
        intro hc
        rw [hc] at hturn
        cases hturn
      have hcallback := callbackStep_isSome (Bus.granted r) w.dev w.mem hne
      simpa [step, deviceStep] using hcallback
  | submit | doorbell | drain | driver | host => cases hturn

theorem Submission.armed (hs : Submission e w) (hmore : w.posted.length < w.announced)
    (hc : w.callback = .idle) : w.dev.timerArmed = true := by
  by_contra harmed
  have hrest := hs.rest hc (Bool.not_eq_true _ ▸ harmed)
  omega

theorem helpful_device (he : e.WellFormed) (N : ℕ) :
    Helpful step Action.thread (fun a => a.Apart e) (fun w => Submission e w ∧ N ≤ w.announced)
      (fun w => N ≤ w.posted.length) (World.distance N) (fun w => some w.callback.thread) where
  inv _ _ _ ha hI hs _ := ⟨hI.1.step he ha hs, hI.2.trans (announced_le_step hI.1 hs)⟩
  own w a ha hI hgoal hturn := by
    obtain ⟨hsub, hann⟩ := hI
    obtain ⟨w', hs⟩ := Option.isSome_iff_exists.mp (turn_isSome (hsub.armed (by omega)) hturn)
    refine ⟨w', hs, fun _ => ?_⟩
    obtain hlt | ⟨-, -, hnone⟩ := distance_step he hsub (Nat.not_le.mp hgoal) hann hs
    · exact hlt
    · rw [hturn] at hnone
      cases hnone
  other w a w' ha hI hgoal _ _ hs := by
    obtain hlt | ⟨hsame, hcallback, -⟩ :=
      distance_step he hI.1 (Nat.not_le.mp hgoal) hI.2 hs
    · exact Or.inl hlt
    · exact Or.inr ⟨hsame, by rw [hcallback]⟩

end Progress

def DeviceFair (sched : ℕ → Action) : Prop := ∀ t n, ∃ m, n ≤ m ∧ (sched m).thread = some t

variable {d : DmaEngineState} {m : Mem} {sqDma cqDma : Addr} {msi : Bool} {sqDepth cqDepth : Word}

/-- **What is announced is completed.** On a device whose indices start at zero, after any
run: in every schedule that gives the timer and the callback turns again and again, whatever
the driver submits, announces and drains in it, each submission that a doorbell has announced
gets its own completion posted, in its place. -/
theorem announced_completes {as : List Action} {w : World} {sched : ℕ → Action} {k : ℕ}
    {sqe : Sqe} (hd : d.InStep) (hsq : sqDepth.toNat.isPowerOfTwo)
    (hcq : cqDepth.toNat.isPowerOfTwo)
    (hrings : Apart sqDma (sqDepth.toNat * 24) cqDma (cqDepth.toNat * 16))
    (has : ∀ a ∈ as, a.Apart (engineCreate sqDma cqDma msi d sqDepth cqDepth).1)
    (hs : exec step (.create d m sqDma cqDma msi sqDepth cqDepth) as = some w)
    (hfair : DeviceFair sched)
    (hsched : ∀ n, (sched n).Apart (engineCreate sqDma cqDma msi d sqDepth cqDepth).1)
    (hk : k < w.announced) (hsqe : w.accepted[k]? = some sqe) :
    ∃ n failed, (stateAt step w sched n).failures[k]? = some failed ∧
      (stateAt step w sched n).posted[k]? = some (completion sqe failed) := by
  have hcomp : Completion (engineCreate sqDma cqDma msi d sqDepth cqDepth).1 w :=
    (completion_create hd hsq hcq hrings).exec has hs
  obtain ⟨n, hn⟩ := (helpful_device hcomp.wellFormed (k + 1)).eventually
    (fun w => hfair w.callback.thread) hsched ⟨hcomp.submission, hk⟩
  -- the schedule so far is a run
  obtain ⟨bs, hbs, hmem⟩ := exists_exec_stateAt w sched n
  have hlater : Completion (engineCreate sqDma cqDma msi d sqDepth cqDepth).1
      (stateAt step w sched n) := by
    refine hcomp.exec (fun a ha => ?_) hbs
    obtain ⟨i, -, rfl⟩ := hmem a ha
    exact hsched i
  obtain ⟨cqe, hcqe⟩ : ∃ cqe, (stateAt step w sched n).posted[k]? = some cqe :=
    ⟨_, List.getElem?_eq_getElem hn⟩
  obtain ⟨sqe', failed, hsqe', hfailed, rfl⟩ :=
    hlater.of_results (getElem?_of_isPrefix hlater.posted_isPrefix hcqe)
  rw [getElem?_of_isPrefix (accepted_exec hbs) hsqe] at hsqe'
  obtain rfl := Option.some.inj hsqe'
  exact ⟨n, failed, hfailed, hcqe⟩

def announceFirst : List Action := submitCall txSqe ++ [.doorbell, .driver]

theorem announceFirst_apart {e : Engine} (h : txSqe.Apart e) : ∀ a ∈ announceFirst, a.Apart e := by
  simp [announceFirst, submitCall, Action.Apart, h]

def submitMeanwhile (n : ℕ) : Action :=
  match n % 4 with
  | 0 => .timer
  | 1 => .submit rxSqe
  | 2 => .driver
  | _ => .device .ok

theorem deviceFair_submitMeanwhile : DeviceFair submitMeanwhile := by
  intro t n
  have hmod (k : ℕ) (hk : k < 4) : (4 * n + k) % 4 = k := by omega
  cases t with
  | timer => exact ⟨4 * n + 0, by omega, by rw [submitMeanwhile, hmod 0 (by decide)]; rfl⟩
  | callback => exact ⟨4 * n + 3, by omega, by rw [submitMeanwhile, hmod 3 (by decide)]; rfl⟩

theorem submitMeanwhile_apart {e : Engine} (h : rxSqe.Apart e) (n : ℕ) :
    (submitMeanwhile n).Apart e := by
  unfold submitMeanwhile
  split <;> first | exact h | exact trivial

theorem announced_completes_submitMeanwhile :
    ∃ w, exec step (.create .fresh (fun _ => 0) 0x1000 0x2000 true 2 2) announceFirst = some w ∧
      ∃ n failed, (stateAt step w submitMeanwhile n).failures[0]? = some failed ∧
        (stateAt step w submitMeanwhile n).posted[0]? = some (completion txSqe failed) := by
  have hs : exec step (.create .fresh (fun _ => 0) 0x1000 0x2000 true 2 2) announceFirst =
      some _ := rfl
  obtain ⟨htx, hrx⟩ := probeSqes_apart (e := (engineCreate 0x1000 0x2000 true .fresh 2 2).1) rfl
    rfl (by decide) (by decide)
  exact ⟨_, hs, announced_completes inStep_fresh ⟨1, rfl⟩ ⟨1, rfl⟩
    (apart_of_le (by decide) (by decide)) (announceFirst_apart htx) hs
    deviceFair_submitMeanwhile (submitMeanwhile_apart hrx) (by decide) rfl⟩

end SystemsPrep.Dma
