import SystemsPrep.Base.Exec
import Mathlib.Data.List.Range

/-!
Runs that need not end.

A run along an endless supply of actions halts in the first state that has no step. If
every step that satisfies a condition takes something from a measure, a run halts
exactly when its steps satisfy the condition from some point on.
-/

namespace SystemsPrep.Base

variable {σ α : Type*} {step : σ → α → Option σ} {acts : ℕ → α}

/-- The state after the first `n` actions. -/
def along (step : σ → α → Option σ) (acts : ℕ → α) (s : σ) (n : ℕ) : Option σ :=
  exec step s ((List.range n).map acts)

@[simp] theorem along_zero (s : σ) : along step acts s 0 = some s := rfl

theorem along_succ (s : σ) (n : ℕ) :
    along step acts s (n + 1) = (along step acts s n).bind fun t => step t (acts n) := by
  rw [along, List.range_succ, List.map_append, exec_append]
  congr 1
  funext t
  simp [exec]

theorem along_succ_eq_some {s t' : σ} {n : ℕ} :
    along step acts s (n + 1) = some t' ↔
      ∃ t, along step acts s n = some t ∧ step t (acts n) = some t' := by
  rw [along_succ, Option.bind_eq_some_iff]

theorem along_succ' (s : σ) (n : ℕ) :
    along step acts s (n + 1) =
      (step s (acts 0)).bind fun t => along step (fun i => acts (i + 1)) t n := by
  rw [along, List.range_succ_eq_map, List.map_cons, List.map_map, exec]
  rfl

theorem along_add (s : σ) (m n : ℕ) :
    along step acts s (m + n) =
      (along step acts s m).bind fun t => along step (fun i => acts (m + i)) t n := by
  induction n with
  | zero => simp
  | succ n ih =>
      rw [← Nat.add_assoc, along_succ, ih, Option.bind_assoc]
      congr 1
      funext t
      rw [along_succ]

/-! ### Halting -/

def Halts (step : σ → α → Option σ) (acts : ℕ → α) (s : σ) : Prop :=
  ∃ n t, along step acts s n = some t ∧ step t (acts n) = none

theorem halts_of_along_eq_none {s : σ} {n : ℕ} (h : along step acts s n = none) :
    Halts step acts s := by
  induction n with
  | zero => cases h
  | succ n ih =>
      cases ht : along step acts s n with
      | none => exact ih ht
      | some t =>
          rw [along_succ, ht, Option.bind_some] at h
          exact ⟨n, t, ht, h⟩

theorem along_eq_none_of_halted {s t : σ} {m n : ℕ} (hm : along step acts s m = some t)
    (hhalt : step t (acts m) = none) (h : m < n) : along step acts s n = none := by
  obtain ⟨k, rfl⟩ := Nat.exists_eq_add_of_lt h
  rw [Nat.add_assoc, along_add, hm, Option.bind_some, along_succ']
  simp [hhalt]

section Measure

variable {C : σ → α → Prop} {μ : σ → ℕ}

/-- Within `μ s` steps a run from `s` halts, or takes a step that is not covered. -/
theorem halts_or_breaks (acts : ℕ → α)
    (hμ : ∀ s a s', C s a → step s a = some s' → μ s' < μ s) (s : σ) :
    ∃ n ≤ μ s, ∃ t, along step acts s n = some t ∧
      (step t (acts n) = none ∨ ¬ C t (acts n)) := by
  induction hk : μ s using Nat.strong_induction_on generalizing s acts with
  | _ k ih =>
      by_cases hC : C s (acts 0)
      · cases hs : step s (acts 0) with
        | none => exact ⟨0, Nat.zero_le _, s, rfl, Or.inl hs⟩
        | some s' =>
            have hlt : μ s' < k := hk ▸ hμ s (acts 0) s' hC hs
            obtain ⟨n, hn, t, ht, hend⟩ := @ih (μ s') hlt (fun i => acts (i + 1)) s' rfl
            refine ⟨n + 1, by omega, t, ?_, hend⟩
            rw [along_succ', hs, Option.bind_some, ht]
      · exact ⟨0, Nat.zero_le _, s, rfl, Or.inr hC⟩

/-- **A run halts exactly when its steps are covered from some point on.** -/
theorem halts_iff_eventually (hμ : ∀ s a s', C s a → step s a = some s' → μ s' < μ s) (s : σ) :
    Halts step acts s ↔
      ∃ N, ∀ n ≥ N, ∀ t, along step acts s n = some t → C t (acts n) := by
  constructor
  · rintro ⟨m, t, hm, hhalt⟩
    refine ⟨m + 1, fun n hn u hu => ?_⟩
    rw [along_eq_none_of_halted hm hhalt hn] at hu
    cases hu
  · rintro ⟨N, hN⟩
    cases ht : along step acts s N with
    | none => exact halts_of_along_eq_none ht
    | some t =>
        obtain ⟨n, -, u, hu, hend⟩ := halts_or_breaks (fun i => acts (N + i)) hμ t
        have hu' : along step acts s (N + n) = some u := by
          rw [along_add, ht, Option.bind_some, hu]
        have hcovered : C u (acts (N + n)) := hN (N + n) (Nat.le_add_right N n) u hu'
        exact ⟨N + n, u, hu', hend.resolve_right (not_not.mpr hcovered)⟩

end Measure

end SystemsPrep.Base
