import SystemsPrep.Dma.Interrupts

/-!
What `engine_wait` returns.

The kernel's wait returns the time that is left, 0 when there is none, or a negative
error, and `engine_wait` takes whatever is positive for success. It does not tell a
signal from the end of the timeout, and a negative timeout is not an infinite one: it
comes back as it is, or ends a sleep at once.
-/

namespace SystemsPrep.Dma

open Base

def erestartsys : ℤ := -512

/-- `MAX_SCHEDULE_TIMEOUT`, the largest `long`. -/
def maxScheduleTimeout : ℤ := 2 ^ 63 - 1

/-- The next action of `engine_wait` inside `wait_event_interruptible_timeout`: the first
check of the condition; then, round after round, joining the queue, the check with what
joining said about a signal, and the sleep, which ends no later than `expire` if it is
given. -/
inductive WaitStage
  | entry
  | prepare
  | test (interrupted : Bool)
  | schedule
  | asleep (expire : Option ℤ)
  | returned (ret : ℤ)
  deriving DecidableEq

structure Check where
  jiffies : ℕ
  found : Bool

/-- A thread in `engine_wait`, its task state, the jiffies since the call, and its checks,
the last one first. -/
structure Waiting where
  world : World
  timeout : ℤ
  ret : ℤ
  stage : WaitStage
  jiffies : ℕ
  signalled : Bool
  running : Bool
  checks : List Check

/-- The call of `engine_wait` with this timeout. -/
def Waiting.start (world : World) (timeout : ℤ) (signalled : Bool) : Waiting where
  world := world
  timeout := timeout
  ret := timeout
  stage := .entry
  jiffies := 0
  signalled := signalled
  running := true
  checks := []

/-- A step of the device or of the rest of the system, a clock tick, a signal, a wake-up of
the queue, or the next step of `engine_wait`. -/
inductive WaitAction
  | world (a : Action)
  | tick
  | signal
  | wake
  | next

namespace Waiting

def condition (h : Waiting) : Bool :=
  ioread32 h.world.dev Reg.cqTail.offset ≠ h.world.eng.cqHead

/-- What `___wait_cond_timeout` does. -/
def check (h : Waiting) : Waiting :=
  { h with
    ret := if h.condition = true ∧ h.ret = 0 then 1 else h.ret
    checks := ⟨h.jiffies, h.condition⟩ :: h.checks }

def ends (h : Waiting) : Bool := h.condition || decide (h.ret = 0)

/-- `return ret > 0 ? 0 : -ETIMEDOUT`. -/
def finish (h : Waiting) (ret : ℤ) : Waiting :=
  { h with ret := ret, stage := .returned (if 0 < ret then 0 else etimedout) }

def remaining (h : Waiting) : Option ℤ → ℤ
  | none => maxScheduleTimeout
  | some expire => max 0 (expire - h.jiffies)

/-- Something lets the sleeper run: a wake-up, a signal or its timer. -/
def Roused (h : Waiting) (expire : Option ℤ) : Prop :=
  h.running = true ∨ h.signalled = true ∨ ∃ e ∈ expire, e ≤ h.jiffies

instance (h : Waiting) : (expire : Option ℤ) → Decidable (h.Roused expire)
  | none => decidable_of_iff (h.running = true ∨ h.signalled = true) (by simp [Roused])
  | some e => decidable_of_iff (h.running = true ∨ h.signalled = true ∨ e ≤ h.jiffies)
      (by simp [Roused])

/-- The next step of `engine_wait`. -/
def next (h : Waiting) : Option Waiting :=
  match h.stage with
  | .entry =>
      some (if h.ends then h.check.finish h.check.ret else { h.check with stage := .prepare })
  | .prepare =>
      some (if h.signalled then { h with stage := .test true }
        else { h with running := false, stage := .test false })
  | .test interrupted =>
      some (if h.ends then h.check.finish h.check.ret
        else if interrupted then h.check.finish erestartsys
        else { h.check with stage := .schedule })
  | .schedule =>
      some (if h.ret = maxScheduleTimeout then { h with stage := .asleep none }
        else if h.ret < 0 then { h with ret := 0, running := true, stage := .prepare }
        else { h with stage := .asleep (some (h.jiffies + h.ret)) })
  | .asleep expire =>
      if h.Roused expire then
        some { h with ret := h.remaining expire, running := true, stage := .prepare }
      else none
  | .returned _ => none

end Waiting

def waitStep (h : Waiting) : WaitAction → Option Waiting
  | .world a => if a.byDriver then none else (step h.world a).map fun w => { h with world := w }
  | .tick => some { h with jiffies := h.jiffies + 1 }
  | .signal => some { h with signalled := true }
  | .wake => some { h with running := true }
  | .next => h.next

/-- What `engine_wait` has documented about a return of `v`. -/
structure WaitContract (h : Waiting) (v : ℤ) : Prop where
  /-- The last check found a completion. -/
  found : ∀ k ∈ h.checks.head?, k.found = true → v = 0
  /-- That many jiffies passed without one. -/
  timedOut : v = etimedout → 0 ≤ h.timeout ∧ (∀ k ∈ h.checks, k.found = false) ∧
    ∃ k ∈ h.checks.head?, h.timeout ≤ k.jiffies
  /-- A negative timeout ends with a completion or a signal only. -/
  forever : h.timeout < 0 → h.ret = erestartsys ∨ ∃ k ∈ h.checks.head?, k.found = true

def Waiting.Kept (h : Waiting) : Prop := ∀ v, h.stage = .returned v → WaitContract h v

/-- With a timeout that is not negative, no signal cuts the wait short. With a negative
one, neither of the first two checks finds a completion or a signal, and the third one,
after a sleep of no length, finds a completion. -/
def Waiting.Suits (h : Waiting) : Prop :=
  match h.stage with
  | .entry => 0 ≤ h.timeout ∨ h.condition = false
  | .test interrupted =>
      if 0 ≤ h.timeout then
        h.condition = true ∨ h.ret = 0 ∨ interrupted = false ∨ h.timeout ≤ h.jiffies
      else if h.ret = 0 then h.condition = true
      else h.condition = false ∧ interrupted = false
  | _ => True

instance (h : Waiting) : Decidable h.Suits :=
  match hstage : h.stage with
  | .entry => decidable_of_iff (0 ≤ h.timeout ∨ h.condition = false)
      (by simp only [Waiting.Suits, hstage])
  | .test interrupted => decidable_of_iff
      (if 0 ≤ h.timeout then
        h.condition = true ∨ h.ret = 0 ∨ interrupted = false ∨ h.timeout ≤ h.jiffies
      else if h.ret = 0 then h.condition = true
      else h.condition = false ∧ interrupted = false)
      (by simp only [Waiting.Suits, hstage])
  | .prepare | .schedule | .asleep _ | .returned _ =>
      .isTrue (by simp only [Waiting.Suits, hstage])

/-! ### The time that is left -/

def Enough (timeout left jiffies : ℤ) : Prop :=
  if 0 ≤ timeout then 0 ≤ left ∧ timeout ≤ left + jiffies else left ≤ 0

namespace Enough

variable {timeout left : ℤ} {jiffies : ℕ}

theorem start (timeout : ℤ) (jiffies : ℕ) : Enough timeout timeout jiffies := by
  unfold Enough
  split <;> omega

theorem of_pos (henough : Enough timeout left jiffies) (hleft : 0 < left) :
    0 ≤ timeout ∧ timeout ≤ left + jiffies := by
  have htimeout : 0 ≤ timeout := by
    by_contra hneg
    exact absurd hleft (not_lt.mpr ((if_neg hneg).mp henough))
  exact ⟨htimeout, ((if_pos htimeout).mp henough).2⟩

theorem timeout_neg (henough : Enough timeout left jiffies) (hleft : left < 0) :
    ¬ 0 ≤ timeout := by
  intro htimeout
  exact absurd hleft (not_lt.mpr ((if_pos htimeout).mp henough).1)

theorem tick (henough : Enough timeout left jiffies) :
    Enough timeout left (jiffies + 1 : ℕ) := by
  unfold Enough at henough ⊢
  split <;> rename_i htimeout <;> simp only [htimeout, if_true, if_false] at henough <;> omega

end Enough

def Waiting.Counts (h : Waiting) : Prop :=
  match h.stage with
  | .entry => h.ret = h.timeout ∧ h.checks = []
  | .prepare | .test _ => (∀ k ∈ h.checks, k.found = false) ∧ Enough h.timeout h.ret h.jiffies
  | .schedule =>
      (∀ k ∈ h.checks, k.found = false) ∧ Enough h.timeout h.ret h.jiffies ∧ h.ret ≠ 0
  | .asleep expire =>
      (∀ k ∈ h.checks, k.found = false) ∧ 0 ≤ h.timeout ∧
        h.timeout ≤ expire.getD (maxScheduleTimeout + h.jiffies)
  | .returned _ => True

namespace Waiting

variable {h h' : Waiting}

theorem found_check (hc : h.condition = false) (hfound : ∀ k ∈ h.checks, k.found = false) :
    ∀ k ∈ h.check.checks, k.found = false := by
  intro k hk
  rcases List.mem_cons.mp hk with rfl | hk
  · exact hc
  · exact hfound k hk

theorem condition_of_not_ends (hends : h.ends = false) : h.condition = false ∧ h.ret ≠ 0 := by
  simpa [ends] using hends

theorem check_ret_of_not_ends (hends : h.ends = false) : h.check.ret = h.ret :=
  if_neg fun hzero => (condition_of_not_ends hends).2 hzero.2

theorem counts_check (hends : h.ends = false) (hfound : ∀ k ∈ h.checks, k.found = false)
    (henough : Enough h.timeout h.ret h.jiffies) :
    (∀ k ∈ h.check.checks, k.found = false) ∧ Enough h.timeout h.check.ret h.jiffies ∧
      h.check.ret ≠ 0 := by
  obtain ⟨hc, hne⟩ := condition_of_not_ends hends
  rw [check_ret_of_not_ends hends]
  exact ⟨found_check hc hfound, henough, hne⟩

theorem counts_next (hn : h.next = some h') (hh : h.Counts) : h'.Counts := by
  unfold next at hn
  split at hn <;> rename_i hstage <;> simp only [Counts, hstage] at hh
  · -- the first check
    obtain ⟨hret, hchecks⟩ := hh
    cases hn
    split <;> rename_i hends
    · trivial
    · rw [Bool.not_eq_true] at hends
      have henough : Enough h.timeout h.ret h.jiffies := by
        rw [hret]
        exact .start h.timeout h.jiffies
      obtain ⟨hfound, hleft, -⟩ := counts_check hends (by simp [hchecks]) henough
      exact ⟨hfound, hleft⟩
  · -- joining the queue
    cases hn
    split <;> exact hh
  · -- the check before each sleep
    cases hn
    split <;> rename_i hends
    · trivial
    · rw [Bool.not_eq_true] at hends
      split
      · trivial
      · exact counts_check hends hh.1 hh.2
  · -- going to sleep
    obtain ⟨hfound, henough, hne⟩ := hh
    cases hn
    split <;> rename_i hmax
    · obtain ⟨htimeout, hle⟩ := henough.of_pos (by rw [hmax]; decide)
      rw [hmax] at hle
      exact ⟨hfound, htimeout, hle⟩
    · split <;> rename_i hneg
      · -- `schedule_timeout` returns at once, with nothing left
        exact ⟨hfound, (if_neg (henough.timeout_neg hneg)).mpr le_rfl⟩
      · obtain ⟨htimeout, hle⟩ := henough.of_pos (by omega)
        refine ⟨hfound, htimeout, ?_⟩
        change h.timeout ≤ h.jiffies + h.ret
        omega
  · -- waking up
    rename_i expire
    split at hn <;> cases hn
    obtain ⟨hfound, hpos, hexpire⟩ := hh
    refine ⟨hfound, (if_pos hpos).mpr ?_⟩
    cases expire with
    | none =>
        have hmax : 0 ≤ maxScheduleTimeout := by decide
        exact ⟨hmax, hexpire⟩
    | some e =>
        simp only [Option.getD_some] at hexpire
        simp only [remaining]
        omega
  · cases hn

theorem Counts.tick (hh : h.Counts) : Counts { h with jiffies := h.jiffies + 1 } := by
  unfold Counts at hh ⊢
  split at hh <;> rename_i hstage <;> simp only [hstage]
  · exact hh
  · exact ⟨hh.1, hh.2.tick⟩
  · exact ⟨hh.1, hh.2.tick⟩
  · exact ⟨hh.1, hh.2.1.tick, hh.2.2⟩
  · rename_i expire
    obtain ⟨hfound, hpos, hexpire⟩ := hh
    refine ⟨hfound, hpos, ?_⟩
    cases expire with
    | none =>
        simp only [Option.getD_none] at hexpire ⊢
        omega
    | some e => exact hexpire

/-! ### The return -/

/-- What the contract says of a return right after a check, the first one to find a
completion if it did. -/
theorem kept_check_finish (hfound : ∀ k ∈ h.checks, k.found = false) (ret : ℤ) :
    (h.check.finish ret).Kept ↔
      if 0 < ret then h.timeout < 0 → h.condition = true
      else h.condition = false ∧ 0 ≤ h.timeout ∧ h.timeout ≤ h.jiffies := by
  have hstage : (h.check.finish ret).Kept ↔
      WaitContract (h.check.finish ret) (if 0 < ret then 0 else etimedout) := by
    constructor
    · exact fun hkept => hkept _ rfl
    · rintro hcontract v hv
      cases hv
      exact hcontract
  rw [hstage]
  split <;> rename_i hpos
  · constructor
    · intro hcontract hneg
      rcases hcontract.forever hneg with hret | ⟨k, hk, hkfound⟩
      · have hret' : ret = erestartsys := hret
        rw [hret'] at hpos
        exact absurd hpos (by decide)
      · cases hk
        exact hkfound
    · intro hcond
      refine ⟨fun _ _ _ => rfl, fun hv => absurd hv (by decide), fun hneg => Or.inr ?_⟩
      exact ⟨_, rfl, hcond hneg⟩
  · constructor
    · intro hcontract
      obtain ⟨htimeout, hnone, k, hk, hle⟩ := hcontract.timedOut rfl
      cases hk
      exact ⟨hnone _ (List.mem_cons_self ..), htimeout, hle⟩
    · rintro ⟨hc, htimeout, hle⟩
      refine ⟨?_, fun _ => ⟨htimeout, found_check hc hfound, _, rfl, hle⟩,
        fun hneg => absurd htimeout (not_le.mpr hneg)⟩
      rintro k hk hkfound
      cases hk
      exact absurd (hc.symm.trans hkfound) Bool.false_ne_true

theorem check_ret_pos_iff (hc : h.condition = true) : 0 < h.check.ret ↔ 0 ≤ h.ret := by
  by_cases hzero : h.ret = 0
  · simp [check, hc, hzero]
  · have hret : h.check.ret = h.ret := if_neg fun hboth => hzero hboth.2
    omega

/-- A check that ends the call keeps the contract when it finds a completion with time left
or none with no time left, and the timeout was not negative. -/
theorem kept_iff_of_ends (hfound : ∀ k ∈ h.checks, k.found = false)
    (henough : Enough h.timeout h.ret h.jiffies) (hends : h.ends = true) :
    (h.check.finish h.check.ret).Kept ↔
      0 ≤ h.timeout ∨ h.ret = 0 ∧ h.condition = true := by
  rw [kept_check_finish hfound]
  unfold Enough at henough
  cases hc : h.condition with
  | true =>
      have hleft : 0 ≤ h.ret ↔ 0 ≤ h.timeout ∨ h.ret = 0 := by
        split_ifs at henough <;> omega
      simp [check_ret_pos_iff hc, hleft]
  | false =>
      have hzero : h.ret = 0 := by simpa [ends, hc] using hends
      have hret : h.check.ret = 0 := by simp [check, hc, hzero]
      rw [hzero] at henough
      simp only [hret, lt_irrefl, if_false, true_and, Bool.false_eq_true, and_false, or_false]
      split_ifs at henough <;> omega

/-- **A step keeps the contract exactly when it suits.** -/
theorem kept_iff_suits (hn : h.next = some h') (hh : h.Counts) : h'.Kept ↔ h.Suits := by
  unfold next at hn
  split at hn <;> rename_i hstage <;> simp only [Counts, hstage] at hh <;>
    simp only [Suits, hstage]
  · -- the first check
    obtain ⟨hret, hchecks⟩ := hh
    cases hn
    split <;> rename_i hends
    · rw [kept_iff_of_ends (by simp [hchecks]) (hret ▸ .start h.ret h.jiffies) hends]
      simp only [ends, Bool.or_eq_true, decide_eq_true_eq] at hends
      cases hc : h.condition with
      | true =>
          simp
          omega
      | false =>
          have hzero : h.ret = 0 := hends.resolve_left (by simp [hc])
          simp
          omega
    · rw [Bool.not_eq_true] at hends
      exact iff_of_true (fun _ hv => by cases hv) (Or.inr (condition_of_not_ends hends).1)
  · cases hn
    split <;> exact iff_of_true (fun _ hv => by cases hv) trivial
  · -- the check before each sleep
    rename_i interrupted
    obtain ⟨hfound, henough⟩ := hh
    cases hn
    split <;> rename_i hends
    · rw [kept_iff_of_ends hfound henough hends]
      simp only [ends, Bool.or_eq_true, decide_eq_true_eq] at hends
      split <;> rename_i htimeout
      · exact iff_of_true (Or.inl htimeout) (hends.imp_right Or.inl)
      · split <;> rename_i hzero
        · simp [htimeout, hzero]
        · simp [htimeout, hzero, hends.resolve_right hzero]
    · rw [Bool.not_eq_true] at hends
      obtain ⟨hc, hne⟩ := condition_of_not_ends hends
      split <;> rename_i hsignal
      · -- a signal ends the wait
        rw [kept_check_finish hfound, if_neg (by decide)]
        split <;> rename_i htimeout <;> simp [hc, hne, hsignal, htimeout]
      · refine iff_of_true (fun _ hv => by cases hv) ?_
        rw [Bool.not_eq_true] at hsignal
        simp [hc, hne, hsignal]
  · cases hn
    split
    · exact iff_of_true (fun _ hv => by cases hv) trivial
    · split <;> exact iff_of_true (fun _ hv => by cases hv) trivial
  · split at hn <;> cases hn
    exact iff_of_true (fun _ hv => by cases hv) trivial
  · cases hn

end Waiting

/-! ### Runs -/

/-- A step of `engine_wait` itself suits the contract. -/
def NextSuits (h : Waiting) (a : WaitAction) (_ : Waiting) : Prop :=
  match a with
  | .next => h.Suits
  | _ => True

instance (h : Waiting) : (a : WaitAction) → (h' : Waiting) → Decidable (NextSuits h a h')
  | .next, _ => inferInstanceAs (Decidable h.Suits)
  | .world _, _ | .tick, _ | .signal, _ | .wake, _ => .isTrue trivial

theorem counts_waitStep {h h' : Waiting} {a : WaitAction} (hs : waitStep h a = some h')
    (hh : h.Counts) : h'.Counts := by
  cases a with
  | next => exact Waiting.counts_next hs hh
  | world a =>
      simp only [waitStep] at hs
      split at hs
      · cases hs
      · obtain ⟨w, -, rfl⟩ := Option.map_eq_some_iff.mp hs
        exact hh
  | tick =>
      cases hs
      exact hh.tick
  | signal | wake =>
      cases hs
      exact hh

theorem WaitContract.congr {u h : Waiting} {v : ℤ} (hcontract : WaitContract h v)
    (hchecks : u.checks = h.checks) (hret : u.ret = h.ret) (htimeout : u.timeout = h.timeout) :
    WaitContract u v where
  found := by
    rw [hchecks]
    exact hcontract.found
  timedOut := by
    rw [hchecks, htimeout]
    exact hcontract.timedOut
  forever := by
    rw [hchecks, hret, htimeout]
    exact hcontract.forever

/-- What happens around the thread does not change what it has seen and returned. -/
theorem kept_of_around {h h' : Waiting} {a : WaitAction} (ha : a ≠ .next)
    (hs : waitStep h a = some h') : h'.Kept ↔ h.Kept := by
  have hframe : ∀ u : Waiting, u.stage = h.stage → u.checks = h.checks → u.ret = h.ret →
      u.timeout = h.timeout → (u.Kept ↔ h.Kept) := by
    intro u hstage hchecks hret htimeout
    unfold Waiting.Kept
    rw [hstage]
    refine forall_congr' fun v => imp_congr_right fun _ => ?_
    exact ⟨fun hu => hu.congr hchecks.symm hret.symm htimeout.symm,
      fun hh => hh.congr hchecks hret htimeout⟩
  cases a with
  | next => exact absurd rfl ha
  | world a =>
      simp only [waitStep] at hs
      split at hs
      · cases hs
      · obtain ⟨w, -, rfl⟩ := Option.map_eq_some_iff.mp hs
        exact hframe _ rfl rfl rfl rfl
  | tick | signal | wake =>
      cases hs
      exact hframe _ rfl rfl rfl rfl

/-- **`engine_wait` keeps its contract exactly when, with a timeout that is not negative, no
signal cuts the wait short, and with a negative one the first two checks find nothing and
the third one finds a completion.** -/
theorem kept_iff_nextSuits {world : World} {timeout : ℤ} {signalled : Bool}
    {as : List WaitAction} {h : Waiting}
    (hrun : exec waitStep (.start world timeout signalled) as = some h) :
    h.Kept ↔ Steps waitStep NextSuits (.start world timeout signalled) as := by
  induction as using List.reverseRecOn generalizing h with
  | nil =>
      simp only [exec_nil, Option.some.injEq] at hrun
      subst hrun
      exact iff_of_true (fun _ hv => by cases hv) steps_nil
  | append_singleton as a ih =>
      obtain ⟨u, hu, hs⟩ := exec_concat_eq_some.mp hrun
      have hcounts : u.Counts :=
        exec_invariant (I := Waiting.Counts) (fun _ _ _ hh hs => counts_waitStep hs hh) hu
          ⟨rfl, rfl⟩
      by_cases ha : a = .next
      · subst ha
        -- the call had not returned before this step, so all the earlier ones suit
        have hbefore : Steps waitStep NextSuits (.start world timeout signalled) as := by
          refine (ih hu).mp fun v hv => ?_
          simp [waitStep, Waiting.next, hv] at hs
        rw [Waiting.kept_iff_suits hs hcounts]
        constructor
        · refine fun hsuits => hbefore.concat fun t t' ht _ => ?_
          rw [hu] at ht
          cases ht
          exact hsuits
        · exact fun hsteps => hsteps.last hu hs
      · rw [kept_of_around ha hs, ih hu]
        constructor
        · refine fun hsteps => hsteps.concat fun _ _ _ _ => ?_
          cases a with
          | next => exact absurd rfl ha
          | _ => trivial
        · exact fun hsteps => hsteps.of_append

def quiet : World := .create .fresh (fun _ => 0) 0x1000 0x2000 true 4 4

def toSleep : List WaitAction := List.replicate 4 .next

theorem kept_iff_nextSuits_expired :
    ∃ h, exec waitStep (.start quiet 2 false) (toSleep ++ [.tick, .tick, .next, .next, .next]) =
      some h ∧ h.stage = .returned etimedout ∧ h.Kept := by
  have hrun : exec waitStep (.start quiet 2 false)
      (toSleep ++ [.tick, .tick, .next, .next, .next]) = some _ := rfl
  exact ⟨_, hrun, rfl, (kept_iff_nextSuits hrun).mpr (by decide)⟩

/-- A wait for ever is over at once, and so is one of 1000 jiffies when a signal arrives. -/
theorem quiet_waits_not_kept :
    (∃ h, exec waitStep (.start quiet (-1) false) (List.replicate 6 .next) = some h ∧
      h.stage = .returned etimedout ∧ ¬ h.Kept) ∧
    ∃ h, exec waitStep (.start quiet 1000 false) (toSleep ++ [.signal, .next, .next, .next]) =
      some h ∧ h.stage = .returned etimedout ∧ ¬ h.Kept := by
  refine ⟨⟨_, rfl, rfl, fun hkept => ?_⟩, ⟨_, rfl, rfl, fun hkept => ?_⟩⟩
  · exact absurd ((hkept _ rfl).timedOut rfl).1 (by decide)
  · obtain ⟨-, -, k, hk, hle⟩ := (hkept _ rfl).timedOut rfl
    cases hk
    exact absurd hle (by decide)

end SystemsPrep.Dma
