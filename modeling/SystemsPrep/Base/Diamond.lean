import SystemsPrep.Base.Exec

/-!
Runs whose steps commute.

Suppose that any two different actions enabled in the same state can be taken in
either order with the same result. Then the order of the actions does not
matter: all runs that end where nothing is enabled end in the same state, after
the same actions in some order, and no run is longer.
-/

namespace SystemsPrep.Base

variable {σ α : Type*} {step : σ → α → Option σ}

/-- Different enabled actions commute. -/
def Diamond (step : σ → α → Option σ) : Prop :=
  ∀ s a b sa sb, a ≠ b → step s a = some sa → step s b = some sb →
    ∃ t, step sa b = some t ∧ step sb a = some t

def Stuck (step : σ → α → Option σ) (s : σ) : Prop := ∀ a, step s a = none

/-- An action enabled at the start of a run that ends stuck is taken in it, and
may as well be taken first. -/
theorem Diamond.pull (hd : Diamond step) {s sa u : σ} {a : α} {as : List α}
    (ha : step s a = some sa) (hu : exec step s as = some u) (hstuck : Stuck step u) :
    ∃ bs, as.Perm (a :: bs) ∧ exec step sa bs = some u := by
  induction as generalizing s sa with
  | nil =>
      simp only [exec_nil, Option.some.injEq] at hu
      subst hu
      rw [hstuck a] at ha
      cases ha
  | cons b as ih =>
      obtain ⟨sb, hb, hu'⟩ := exec_cons_eq_some.mp hu
      by_cases hab : a = b
      · subst hab
        rw [ha, Option.some.injEq] at hb
        exact ⟨as, List.Perm.refl _, hb ▸ hu'⟩
      · obtain ⟨t, hta, htb⟩ := hd s a b sa sb hab ha hb
        obtain ⟨bs, hperm, hbs⟩ := ih htb hu'
        refine ⟨b :: bs, ?_, exec_cons_eq_some.mpr ⟨t, hta, hbs⟩⟩
        calc (b :: as).Perm (b :: a :: bs) := hperm.cons b
          _ |>.Perm (a :: b :: bs) := List.Perm.swap a b bs

/-- **Confluence.** All runs from a state to a stuck one end in the same state,
with the same actions. -/
theorem Diamond.unique_end (hd : Diamond step) {s u v : σ} {as bs : List α}
    (hu : exec step s as = some u) (hustuck : Stuck step u)
    (hv : exec step s bs = some v) (hvstuck : Stuck step v) : u = v ∧ as.Perm bs := by
  induction as generalizing s bs with
  | nil =>
      simp only [exec_nil, Option.some.injEq] at hu
      subst hu
      cases bs with
      | nil =>
          simp only [exec_nil, Option.some.injEq] at hv
          exact ⟨hv, List.Perm.refl _⟩
      | cons b bs =>
          obtain ⟨t, ht, -⟩ := exec_cons_eq_some.mp hv
          rw [hustuck b] at ht
          cases ht
  | cons a as ih =>
      obtain ⟨sa, ha, hu⟩ := exec_cons_eq_some.mp hu
      obtain ⟨cs, hperm, hcs⟩ := hd.pull ha hv hvstuck
      obtain ⟨huv, hperm'⟩ := ih hu hcs
      exact ⟨huv, (hperm'.cons a).trans hperm.symm⟩

/-- No run is longer than one that ends stuck. -/
theorem Diamond.length_le (hd : Diamond step) {s u v : σ} {as bs : List α}
    (hu : exec step s as = some u) (hustuck : Stuck step u)
    (hv : exec step s bs = some v) : bs.length ≤ as.length := by
  induction bs generalizing s as with
  | nil => exact Nat.zero_le _
  | cons b bs ih =>
      obtain ⟨sb, hb, hv⟩ := exec_cons_eq_some.mp hv
      obtain ⟨cs, hperm, hcs⟩ := hd.pull hb hu hustuck
      have hle := ih hcs hv
      rw [hperm.length_eq, List.length_cons, List.length_cons]
      omega

end SystemsPrep.Base
