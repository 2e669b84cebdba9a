import SystemsPrep.Base.Exec
import Mathlib.Order.WellFounded

/-!
Endless schedules.

A schedule names an action for every instant. An action that is not enabled when its
turn comes leaves the state as it is. Each action belongs to a thread, and a schedule is
fair if every thread has a turn again and again. What a fair schedule leads to is shown
with a rank that no step raises and that each step of one thread, the helpful one,
lowers; which thread that is depends on the state.
-/

namespace SystemsPrep.Base

variable {σ α ι β : Type*} {step : σ → α → Option σ}

def attempt (step : σ → α → Option σ) (s : σ) (a : α) : σ := (step s a).getD s

/-- The state after the first `n` instants of a schedule. -/
def stateAt (step : σ → α → Option σ) (s : σ) (sched : ℕ → α) : ℕ → σ
  | 0 => s
  | n + 1 => attempt step (stateAt step s sched n) (sched n)

theorem stateAt_succ (s : σ) (sched : ℕ → α) (n : ℕ) :
    stateAt step s sched (n + 1) = attempt step (stateAt step s sched n) (sched n) := rfl

theorem attempt_of_some {s s' : σ} {a : α} (h : step s a = some s') : attempt step s a = s' := by
  rw [attempt, h, Option.getD_some]

theorem attempt_of_none {s : σ} {a : α} (h : step s a = none) : attempt step s a = s := by
  rw [attempt, h, Option.getD_none]

/-- **The invariant rule**, along a schedule. -/
theorem stateAt_invariant {A : α → Prop} {I : σ → Prop}
    (hstep : ∀ s a s', A a → I s → step s a = some s' → I s') {s : σ} {sched : ℕ → α}
    (hA : ∀ n, A (sched n)) (hs : I s) (n : ℕ) : I (stateAt step s sched n) := by
  induction n with
  | zero => exact hs
  | succ n ih =>
      rw [stateAt_succ]
      cases ht : step (stateAt step s sched n) (sched n) with
      | none => rwa [attempt_of_none ht]
      | some t =>
          rw [attempt_of_some ht]
          exact hstep _ _ t (hA n) ih ht

theorem exists_exec_stateAt (s : σ) (sched : ℕ → α) (n : ℕ) :
    ∃ as, exec step s as = some (stateAt step s sched n) ∧ ∀ a ∈ as, ∃ m < n, a = sched m := by
  induction n with
  | zero => exact ⟨[], rfl, by simp⟩
  | succ n ih =>
      obtain ⟨as, has, hmem⟩ := ih
      have hmem' : ∀ a ∈ as, ∃ m < n + 1, a = sched m := fun a ha =>
        (hmem a ha).imp fun m hm => ⟨hm.1.trans (Nat.lt_succ_self n), hm.2⟩
      rw [stateAt_succ]
      cases ht : step (stateAt step s sched n) (sched n) with
      | none => exact ⟨as, by rw [attempt_of_none ht, has], hmem'⟩
      | some t =>
          refine ⟨as ++ [sched n], exec_concat_eq_some.mpr ⟨_, has, ?_⟩, fun a ha => ?_⟩
          · rw [attempt_of_some ht, ht]
          · rcases List.mem_append.mp ha with ha | ha
            · exact hmem' a ha
            · exact ⟨n, Nat.lt_succ_self n, List.mem_singleton.mp ha⟩

/-! ### Fairness -/

/-- Every thread has a turn after every instant. -/
def Fair (thread : α → ι) (sched : ℕ → α) : Prop := ∀ i n, ∃ m, n ≤ m ∧ thread (sched m) = i

/-- What a schedule makes of the steps of one thread: as long as the goal is not reached,
the invariant is kept, the helpful thread is not blocked and its steps lower the rank; the
steps of the others lower it too, or change neither the rank nor which thread is helpful. -/
structure Helpful [LT β] (step : σ → α → Option σ) (thread : α → ι) (A : α → Prop)
    (I Goal : σ → Prop) (rank : σ → β) (helpful : σ → ι) : Prop where
  inv : ∀ s a s', A a → I s → step s a = some s' → ¬ Goal s' → I s'
  own : ∀ s a, A a → I s → ¬ Goal s → thread a = helpful s →
    ∃ s', step s a = some s' ∧ (¬ Goal s' → rank s' < rank s)
  other : ∀ s a s', A a → I s → ¬ Goal s → ¬ Goal s' → thread a ≠ helpful s →
    step s a = some s' → rank s' < rank s ∨ (rank s' = rank s ∧ helpful s' = helpful s)

section Rule

variable [LT β] {thread : α → ι} {A : α → Prop} {I Goal : σ → Prop} {rank : σ → β}
  {helpful : σ → ι} {s : σ} {sched : ℕ → α}

theorem Helpful.inv_stateAt (h : Helpful step thread A I Goal rank helpful)
    (hA : ∀ n, A (sched n)) (hs : I s) (hnever : ∀ n, ¬ Goal (stateAt step s sched n)) (n : ℕ) :
    I (stateAt step s sched n) := by
  induction n with
  | zero => exact hs
  | succ n ih =>
      have hnot := hnever (n + 1)
      rw [stateAt_succ] at hnot ⊢
      cases ht : step (stateAt step s sched n) (sched n) with
      | none => rwa [attempt_of_none ht]
      | some t =>
          rw [attempt_of_some ht] at hnot ⊢
          exact h.inv _ _ t (hA n) ih ht hnot

/-- Up to the next turn of the helpful thread the rank falls. -/
theorem Helpful.rank_falls (h : Helpful step thread A I Goal rank helpful)
    (hA : ∀ n, A (sched n)) (hs : I s) (hnever : ∀ n, ¬ Goal (stateAt step s sched n)) (d : ℕ) :
    ∀ n, thread (sched (n + d)) = helpful (stateAt step s sched n) →
      ∃ m, rank (stateAt step s sched m) < rank (stateAt step s sched n) := by
  have hown : ∀ n, thread (sched n) = helpful (stateAt step s sched n) →
      rank (stateAt step s sched (n + 1)) < rank (stateAt step s sched n) := by
    intro n hnow
    obtain ⟨t, ht, hlt⟩ := h.own _ _ (hA n) (h.inv_stateAt hA hs hnever n) (hnever n) hnow
    have hnot := hnever (n + 1)
    rw [stateAt_succ, attempt_of_some ht] at hnot ⊢
    exact hlt hnot
  induction d with
  | zero => exact fun n hturn => ⟨n + 1, hown n hturn⟩
  | succ d ih =>
      intro n hturn
      have hlater : n + (d + 1) = n + 1 + d := by omega
      by_cases hnow : thread (sched n) = helpful (stateAt step s sched n)
      · exact ⟨n + 1, hown n hnow⟩
      -- the step of another thread, if it is enabled
      have hkept : rank (stateAt step s sched (n + 1)) < rank (stateAt step s sched n) ∨
          (rank (stateAt step s sched (n + 1)) = rank (stateAt step s sched n) ∧
            helpful (stateAt step s sched (n + 1)) = helpful (stateAt step s sched n)) := by
        have hnot := hnever (n + 1)
        rw [stateAt_succ] at hnot ⊢
        cases ht : step (stateAt step s sched n) (sched n) with
        | none =>
            rw [attempt_of_none ht]
            exact Or.inr ⟨rfl, rfl⟩
        | some t =>
            rw [attempt_of_some ht] at hnot ⊢
            exact h.other _ _ t (hA n) (h.inv_stateAt hA hs hnever n) (hnever n) hnot hnow ht
      rcases hkept with hlt | ⟨hrank, hhelp⟩
      · exact ⟨n + 1, hlt⟩
      · obtain ⟨m, hlt⟩ := ih (n + 1) (by rw [← hlater, hturn, hhelp])
        exact ⟨m, by rwa [← hrank]⟩

/-- **The rule of the helpful thread.** The goal is reached if every thread that may be
helpful has a turn again and again. -/
theorem Helpful.eventually [WellFoundedLT β] (h : Helpful step thread A I Goal rank helpful)
    (hturns : ∀ s n, ∃ m, n ≤ m ∧ thread (sched m) = helpful s) (hA : ∀ n, A (sched n))
    (hs : I s) : ∃ n, Goal (stateAt step s sched n) := by
  by_contra hnever
  rw [not_exists] at hnever
  have hfrom : ∀ b n, rank (stateAt step s sched n) ≠ b := by
    intro b
    induction b using WellFoundedLT.induction with
    | ind b ih =>
        rintro n rfl
        obtain ⟨m, hnm, hturn⟩ := hturns (stateAt step s sched n) n
        obtain ⟨d, rfl⟩ := Nat.exists_eq_add_of_le hnm
        obtain ⟨k, hlt⟩ := h.rank_falls hA hs hnever d n hturn
        exact ih _ hlt k rfl
  exact hfrom _ 0 rfl

end Rule

theorem Fair.drop {thread : α → ι} {sched : ℕ → α} (h : Fair thread sched) (k : ℕ) :
    Fair thread fun n => sched (k + n) := by
  intro i n
  obtain ⟨m, hm, hi⟩ := h i (k + n)
  obtain ⟨d, rfl⟩ := Nat.exists_eq_add_of_le hm
  exact ⟨n + d, Nat.le_add_right n d, by rwa [Nat.add_assoc] at hi⟩

theorem stateAt_add (s : σ) (sched : ℕ → α) (k n : ℕ) :
    stateAt step s sched (k + n) = stateAt step (stateAt step s sched k) (fun m => sched (k + m)) n := by
  induction n with
  | zero => rfl
  | succ n ih => rw [← Nat.add_assoc, stateAt_succ, stateAt_succ, ih]

end SystemsPrep.Base
