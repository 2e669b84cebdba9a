import SystemsPrep.Base.Exec

/-!
Runs of two levels.

A step of the lower level is matched by a run of the upper level, which may be empty.
What the steps note is then a run of the upper level as a whole, and an end of the
upper level bounds the lower one if every step has a price: it is paid by the upper
steps it is matched by, or by what earlier steps have put aside.
-/

namespace SystemsPrep.Base

variable {σ τ α β : Type*} {step : σ → α → Option σ}

/-- **The simulation rule.** `note` names the upper actions that match a step. -/
theorem Steps.simulate {upper : τ → β → Option τ} {R : σ → τ → Prop} {C : σ → α → σ → Prop}
    {note : σ → α → σ → List β}
    (hstep : ∀ s a s' v, C s a s' → R s v → step s a = some s' →
      ∃ v', exec upper v (note s a s') = some v' ∧ R s' v')
    {s s' : σ} {as : List α} {v : τ} (hC : Steps step C s as) (h : exec step s as = some s')
    (hv : R s v) : ∃ v', exec upper v (record step note s as) = some v' ∧ R s' v' := by
  refine hC.record_invariant (I := fun t l => ∃ v', exec upper v l = some v' ∧ R t v') ?_ h
    ⟨v, rfl, hv⟩
  rintro t l a t' hCt ⟨u, hu, hR⟩ hta
  obtain ⟨u', hu', hR'⟩ := hstep t a t' u hCt hR hta
  exact ⟨u', exec_append_eq_some.mpr ⟨u, hu, hu'⟩, hR'⟩

/-! ### What a run costs -/

def total (step : σ → α → Option σ) (f : σ → α → σ → ℕ) : σ → List α → ℕ
  | _, [] => 0
  | s, a :: as =>
      match step s a with
      | none => 0
      | some s' => f s a s' + total step f s' as

theorem total_cons {f : σ → α → σ → ℕ} {s s' : σ} {a : α} (as : List α)
    (hs : step s a = some s') : total step f s (a :: as) = f s a s' + total step f s' as := by
  simp only [total, hs]

theorem length_record (note : σ → α → σ → List β) (s : σ) (as : List α) :
    (record step note s as).length = total step (fun s a s' => (note s a s').length) s as := by
  induction as generalizing s with
  | nil => rfl
  | cons a as ih =>
      cases hs : step s a with
      | none => simp only [record, total, hs, List.length_nil]
      | some s' => simp only [record, total, hs, List.length_append, ih s']

theorem total_add (f g : σ → α → σ → ℕ) (s : σ) (as : List α) :
    total step (fun s a s' => f s a s' + g s a s') s as = total step f s as + total step g s as := by
  induction as generalizing s with
  | nil => rfl
  | cons a as ih =>
      cases hs : step s a with
      | none => simp only [total, hs]
      | some s' =>
          simp only [total, hs, ih s']
          omega

theorem total_mul (k : ℕ) (f : σ → α → σ → ℕ) (s : σ) (as : List α) :
    total step (fun s a s' => k * f s a s') s as = k * total step f s as := by
  induction as generalizing s with
  | nil => rfl
  | cons a as ih =>
      cases hs : step s a with
      | none => simp only [total, hs, Nat.mul_zero]
      | some s' => simp only [total, hs, ih s', Nat.mul_add]

theorem total_of_countP {p : α → Bool} {s s' : σ} {as : List α}
    (h : exec step s as = some s') :
    total step (fun _ a _ => (p a).toNat) s as = as.countP p := by
  induction as generalizing s with
  | nil => rfl
  | cons a as ih =>
      obtain ⟨t, ht, hts⟩ := exec_cons_eq_some.mp h
      rw [total_cons as ht, ih hts, List.countP_cons]
      cases p a <;> simp [Nat.add_comm]

theorem total_growth {g : σ → ℕ} (hg : ∀ s a s', step s a = some s' → g s ≤ g s')
    {s s' : σ} {as : List α} (h : exec step s as = some s') :
    total step (fun s _ s' => g s' - g s) s as + g s = g s' := by
  induction as generalizing s with
  | nil =>
      simp only [exec_nil, Option.some.injEq] at h
      simp only [total, h, Nat.zero_add]
  | cons a as ih =>
      obtain ⟨t, ht, hts⟩ := exec_cons_eq_some.mp h
      have hle := hg s a t ht
      have hrest := ih hts
      rw [total_cons as ht]
      omega

/-- **The potential rule.** If what a step costs, `c`, is covered by what it earns, `e`, and
by the fall of a potential `f`, then so is what a run costs. -/
theorem Steps.total_le {C : σ → α → σ → Prop} {f : σ → ℕ} {c e : σ → α → σ → ℕ}
    (hstep : ∀ s a s', C s a s' → step s a = some s' → c s a s' + f s' ≤ f s + e s a s')
    {s s' : σ} {as : List α} (hC : Steps step C s as) (h : exec step s as = some s') :
    total step c s as + f s' ≤ f s + total step e s as := by
  induction as generalizing s with
  | nil =>
      simp only [exec_nil, Option.some.injEq] at h
      exact h ▸ Nat.le_of_eq (Nat.add_comm ..)
  | cons a as ih =>
      obtain ⟨t, ht, hts⟩ := exec_cons_eq_some.mp h
      obtain ⟨hCt, hCs⟩ := steps_cons.mp hC t ht
      have hfirst := hstep s a t hCt ht
      have hrest := ih hCs hts
      rw [total_cons as ht, total_cons as ht]
      omega

/-- **The rank rule.** A kind of action that lowers a rank `f`, which no other action raises,
is taken no more often than the rank says. -/
theorem countP_add_rank_le {A : α → Prop} {I : σ → Prop} {f : σ → ℕ} {p : α → Bool}
    (hinv : ∀ s a s', I s → step s a = some s' → I s')
    (hstep : ∀ s a s', A a → I s → step s a = some s' → (p a).toNat + f s' ≤ f s)
    {s s' : σ} {as : List α} (hA : ∀ a ∈ as, A a) (hs : I s) (h : exec step s as = some s') :
    as.countP p + f s' ≤ f s := by
  induction as generalizing s with
  | nil =>
      simp only [exec_nil, Option.some.injEq] at h
      simp [h]
  | cons a as ih =>
      obtain ⟨t, ht, hts⟩ := exec_cons_eq_some.mp h
      have hfirst := hstep s a t (hA a List.mem_cons_self) hs ht
      have hrest := ih (fun b hb => hA b (List.mem_cons_of_mem a hb)) (hinv s a t hs ht) hts
      rw [List.countP_cons]
      cases hp : p a <;> simp only [hp, Bool.toNat_false, Bool.toNat_true, if_true] at hfirst ⊢ <;>
        simp <;> omega

end SystemsPrep.Base
