import Mathlib.Tactic.Common
import Mathlib.Data.List.Infix

/-!
Runs of a partial step function.

Every component of this development is a function `step : σ → α → Option σ`:
the state after an action, or `none` when the action is not enabled. A run is
the list of the actions taken, so the states of a run are the results of its
initial segments, and a statement about every point of every run is a statement
about every list of actions.
-/

namespace SystemsPrep.Base

variable {σ α : Type*} {step : σ → α → Option σ}

def exec (step : σ → α → Option σ) : σ → List α → Option σ
  | s, [] => some s
  | s, a :: as => (step s a).bind fun s' => exec step s' as

@[simp] theorem exec_nil (s : σ) : exec step s [] = some s := rfl

theorem exec_cons_eq_some {s s' : σ} {a : α} {as : List α} :
    exec step s (a :: as) = some s' ↔
      ∃ t, step s a = some t ∧ exec step t as = some s' := by
  simp [exec, Option.bind_eq_some_iff]

theorem exec_append (s : σ) (as bs : List α) :
    exec step s (as ++ bs) = (exec step s as).bind fun t => exec step t bs := by
  induction as generalizing s with
  | nil => rfl
  | cons a as ih =>
      simp only [List.cons_append, exec, Option.bind_assoc]
      congr 1
      funext t
      exact ih t

theorem exec_append_eq_some {s s' : σ} {as bs : List α} :
    exec step s (as ++ bs) = some s' ↔
      ∃ t, exec step s as = some t ∧ exec step t bs = some s' := by
  rw [exec_append, Option.bind_eq_some_iff]

/-- Runs are deterministic: what follows an initial segment of a run is a run from
where that segment ended. -/
theorem exec_after {s t s' : σ} {as bs : List α} (ht : exec step s as = some t)
    (h : exec step s (as ++ bs) = some s') : exec step t bs = some s' := by
  rw [exec_append, ht] at h
  exact h

theorem exec_concat_eq_some {s s' : σ} {as : List α} {a : α} :
    exec step s (as ++ [a]) = some s' ↔
      ∃ t, exec step s as = some t ∧ step t a = some s' := by
  rw [exec_append_eq_some]
  simp [exec_cons_eq_some]

/-! ### Conditions on the steps of a run -/

/-- Every step of the run satisfies `C`, which may look at the action and at the
states on both sides. -/
def Steps (step : σ → α → Option σ) (C : σ → α → σ → Prop) (s : σ) (as : List α) : Prop :=
  ∀ bs a t t', bs ++ [a] <+: as → exec step s bs = some t → step t a = some t' → C t a t'

theorem Steps.of_append {C : σ → α → σ → Prop} {s : σ} {as bs : List α}
    (h : Steps step C s (as ++ bs)) : Steps step C s as :=
  fun cs a t t' hcs => h cs a t t' (hcs.trans (List.prefix_append as bs))

theorem Steps.after {C : σ → α → σ → Prop} {s t : σ} {as bs : List α}
    (h : Steps step C s (as ++ bs)) (ht : exec step s as = some t) : Steps step C t bs := by
  intro cs a u u' hcs hu
  refine h (as ++ cs) a u u' ?_ (exec_append_eq_some.mpr ⟨t, ht, hu⟩)
  rw [List.append_assoc]
  exact (List.prefix_append_right_inj as).mpr hcs

theorem Steps.last {C : σ → α → σ → Prop} {s t s' : σ} {as : List α} {a : α}
    (h : Steps step C s (as ++ [a])) (ht : exec step s as = some t) (hs : step t a = some s') :
    C t a s' :=
  h as a t s' (List.prefix_refl _) ht hs

theorem Steps.concat {C : σ → α → σ → Prop} {s : σ} {as : List α} {a : α}
    (h : Steps step C s as)
    (hlast : ∀ t t', exec step s as = some t → step t a = some t' → C t a t') :
    Steps step C s (as ++ [a]) := by
  intro bs b t t' hbs ht hs
  rcases List.prefix_concat_iff.mp hbs with heq | hpre
  · obtain ⟨rfl, hba⟩ := List.append_inj' heq rfl
    obtain rfl := List.singleton_inj.mp hba
    exact hlast t t' ht hs
  · exact h bs b t t' hpre ht hs

theorem Steps.of_forall_mem {A : α → Prop} {s : σ} {as : List α} (h : ∀ a ∈ as, A a) :
    Steps step (fun _ a _ => A a) s as :=
  fun _ a _ _ hbs _ _ => h a (hbs.subset (by simp))

theorem Steps.and {C D : σ → α → σ → Prop} {s : σ} {as : List α} (hC : Steps step C s as)
    (hD : Steps step D s as) : Steps step (fun t a t' => C t a t' ∧ D t a t') s as :=
  fun bs a t t' hbs ht hs => ⟨hC bs a t t' hbs ht hs, hD bs a t t' hbs ht hs⟩

theorem steps_nil {C : σ → α → σ → Prop} {s : σ} : Steps step C s [] :=
  fun bs a _ _ hbs => absurd (List.prefix_nil.mp hbs) (by simp)

theorem steps_cons {C : σ → α → σ → Prop} {s : σ} {a : α} {as : List α} :
    Steps step C s (a :: as) ↔ ∀ s', step s a = some s' → C s a s' ∧ Steps step C s' as := by
  constructor
  · intro h s' hs'
    refine ⟨h [] a s s' (List.cons_prefix_cons.mpr ⟨rfl, List.nil_prefix⟩) rfl hs', ?_⟩
    rw [← List.singleton_append] at h
    exact h.after (exec_cons_eq_some.mpr ⟨s', hs', rfl⟩)
  · intro h bs b t t' hbs ht hs
    cases bs with
    | nil =>
        obtain ⟨rfl, -⟩ := List.cons_prefix_cons.mp hbs
        simp only [exec_nil, Option.some.injEq] at ht
        subst ht
        exact (h t' hs).1
    | cons c bs =>
        obtain ⟨rfl, hbs'⟩ := List.cons_prefix_cons.mp hbs
        obtain ⟨u, hu, ht⟩ := exec_cons_eq_some.mp ht
        exact (h u hu).2 bs b t t' hbs' ht hs

instance decidableSteps (C : σ → α → σ → Prop) [∀ s a s', Decidable (C s a s')] :
    (s : σ) → (as : List α) → Decidable (Steps step C s as)
  | _, [] => .isTrue steps_nil
  | s, a :: as =>
      match hs : step s a with
      | none => .isTrue (steps_cons.mpr (by simp [hs]))
      | some s' =>
          have := decidableSteps C s' as
          decidable_of_iff (C s a s' ∧ Steps step C s' as) (by rw [steps_cons, hs]; simp)

/-- **The invariant rule**, for runs whose steps all satisfy `C`. -/
theorem Steps.invariant {C : σ → α → σ → Prop} {I : σ → Prop}
    (hstep : ∀ s a s', C s a s' → I s → step s a = some s' → I s')
    {s s' : σ} {as : List α} (hC : Steps step C s as) (h : exec step s as = some s') (hs : I s) :
    I s' := by
  induction as using List.reverseRecOn generalizing s' with
  | nil =>
      simp only [exec_nil, Option.some.injEq] at h
      exact h ▸ hs
  | append_singleton as a ih =>
      obtain ⟨t, ht, hta⟩ := exec_concat_eq_some.mp h
      exact hstep t a s' (hC.last ht hta) (ih hC.of_append ht) hta

/-- **The invariant rule**, for runs whose actions all satisfy `A`. -/
theorem exec_invariant_on {A : α → Prop} {I : σ → Prop}
    (hstep : ∀ s a s', A a → I s → step s a = some s' → I s')
    {s s' : σ} {as : List α} (hA : ∀ a ∈ as, A a) (h : exec step s as = some s') (hs : I s) :
    I s' :=
  (Steps.of_forall_mem hA).invariant hstep h hs

/-- What an invariant says of a step holds of every step of a run. -/
theorem Steps.of_invariant {A : α → Prop} {I : σ → Prop} {C : σ → α → σ → Prop}
    (hstep : ∀ s a s', A a → I s → step s a = some s' → I s')
    (hC : ∀ s a s', I s → step s a = some s' → C s a s')
    {s : σ} {as : List α} (hA : ∀ a ∈ as, A a) (hs : I s) : Steps step C s as := by
  intro bs a t t' hbs ht hta
  have hbs' : ∀ b ∈ bs, A b := fun b hb => hA b (hbs.subset (List.mem_append_left _ hb))
  exact hC t a t' (exec_invariant_on hstep hbs' ht hs) hta

/-- **The invariant rule.** -/
theorem exec_invariant {I : σ → Prop}
    (hstep : ∀ s a s', I s → step s a = some s' → I s')
    {s s' : σ} {as : List α} (h : exec step s as = some s') (hs : I s) : I s' :=
  exec_invariant_on (A := fun _ => True) (fun s a s' _ => hstep s a s') (fun _ _ => trivial) h hs

/-! ### All points of a run, some point of a run -/

/-- `P` holds in every state of the run, the first and the last included. -/
def Always (step : σ → α → Option σ) (s : σ) (as : List α) (P : σ → Prop) : Prop :=
  ∀ bs, bs <+: as → ∀ t, exec step s bs = some t → P t

/-- `P` holds in some state of the run, the first and the last included. -/
def Visits (step : σ → α → Option σ) (s : σ) (as : List α) (P : σ → Prop) : Prop :=
  ∃ bs, bs <+: as ∧ ∃ t, exec step s bs = some t ∧ P t

theorem Always.last {s s' : σ} {as : List α} {P : σ → Prop} (h : Always step s as P)
    (hs : exec step s as = some s') : P s' :=
  h as (List.prefix_refl as) s' hs

theorem Always.of_append {s : σ} {as bs : List α} {P : σ → Prop}
    (h : Always step s (as ++ bs) P) : Always step s as P :=
  fun cs hcs => h cs (hcs.trans (List.prefix_append as bs))

theorem Always.steps {s : σ} {as : List α} {P : σ → Prop} (h : Always step s as P) :
    Steps step (fun t _ _ => P t) s as :=
  fun bs a t _ hbs ht _ => h bs ((List.prefix_append bs [a]).trans hbs) t ht

theorem Visits.first {s : σ} {as : List α} {P : σ → Prop} (h : P s) : Visits step s as P :=
  ⟨[], List.nil_prefix, s, rfl, h⟩

theorem Visits.last {s s' : σ} {as : List α} {P : σ → Prop}
    (hs : exec step s as = some s') (h : P s') : Visits step s as P :=
  ⟨as, List.prefix_refl as, s', hs, h⟩

theorem Visits.append {s : σ} {as : List α} {P : σ → Prop} (h : Visits step s as P)
    (bs : List α) : Visits step s (as ++ bs) P := by
  obtain ⟨cs, hcs, t, ht, hP⟩ := h
  exact ⟨cs, hcs.trans (List.prefix_append as bs), t, ht, hP⟩

theorem visits_nil {s : σ} {P : σ → Prop} : Visits step s [] P ↔ P s := by
  constructor
  · rintro ⟨bs, hbs, t, ht, hP⟩
    obtain rfl := List.prefix_nil.mp hbs
    simp only [exec_nil, Option.some.injEq] at ht
    exact ht ▸ hP
  · exact Visits.first

theorem visits_cons {s : σ} {a : α} {as : List α} {P : σ → Prop} :
    Visits step s (a :: as) P ↔ P s ∨ ∃ s', step s a = some s' ∧ Visits step s' as P := by
  constructor
  · rintro ⟨bs, hbs, t, ht, hP⟩
    cases bs with
    | nil =>
        simp only [exec_nil, Option.some.injEq] at ht
        exact Or.inl (ht ▸ hP)
    | cons b bs =>
        obtain ⟨rfl, hbs'⟩ := List.cons_prefix_cons.mp hbs
        obtain ⟨s', hs', ht⟩ := exec_cons_eq_some.mp ht
        exact Or.inr ⟨s', hs', bs, hbs', t, ht, hP⟩
  · rintro (hP | ⟨s', hs', bs, hbs, t, ht, hP⟩)
    · exact Visits.first hP
    · exact ⟨a :: bs, List.cons_prefix_cons.mpr ⟨rfl, hbs⟩, t,
        exec_cons_eq_some.mpr ⟨s', hs', ht⟩, hP⟩

instance decidableVisits (P : σ → Prop) [DecidablePred P] :
    (s : σ) → (as : List α) → Decidable (Visits step s as P)
  | _, [] => decidable_of_iff _ visits_nil.symm
  | s, a :: as =>
      match hs : step s a with
      | none => decidable_of_iff (P s) (by rw [visits_cons, hs]; simp)
      | some s' =>
          have := decidableVisits P s' as
          decidable_of_iff (P s ∨ Visits step s' as P) (by rw [visits_cons, hs]; simp)

theorem always_iff_not_visits {s : σ} {as : List α} {P : σ → Prop} :
    Always step s as P ↔ ¬ Visits step s as fun t => ¬ P t := by
  constructor
  · rintro h ⟨bs, hbs, t, ht, hP⟩
    exact hP (h bs hbs t ht)
  · intro h bs hbs t ht
    by_contra hP
    exact h ⟨bs, hbs, t, ht, hP⟩

instance decidableAlways (P : σ → Prop) [DecidablePred P] (s : σ) (as : List α) :
    Decidable (Always step s as P) :=
  decidable_of_iff _ always_iff_not_visits.symm

/-- **The entry rule.** Suppose that a step which leads into `W` either comes
from `W` or has `P` at one of its ends. Then a run that ends in `W` visits `P`,
unless it was in `W` without `P` from the start. -/
theorem visits_of_entry {C : σ → α → σ → Prop} {I W P : σ → Prop}
    (hI : ∀ s a s', C s a s' → I s → step s a = some s' → I s')
    (hentry : ∀ s a s', C s a s' → I s → step s a = some s' → W s' → W s ∨ P s ∨ P s')
    {s s' : σ} {as : List α} (hC : Steps step C s as) (h : exec step s as = some s') (hs : I s)
    (hstart : W s → P s) (hW : W s') : Visits step s as P := by
  induction as using List.reverseRecOn generalizing s' with
  | nil =>
      simp only [exec_nil, Option.some.injEq] at h
      exact Visits.first (hstart (h ▸ hW))
  | append_singleton as a ih =>
      obtain ⟨t, ht, hta⟩ := exec_concat_eq_some.mp h
      have hIt : I t := hC.of_append.invariant hI ht hs
      rcases hentry t a s' (hC.last ht hta) hIt hta hW with hWt | hP | hP
      · exact (ih hC.of_append ht hWt).append [a]
      · exact (Visits.last ht hP).append [a]
      · exact Visits.last h hP

/-! ### A history kept beside a run -/

/-- What the steps of a run note, in order. `note` looks at an action and at the states on
both sides. -/
def record {γ : Type*} (step : σ → α → Option σ) (note : σ → α → σ → List γ) :
    σ → List α → List γ
  | _, [] => []
  | s, a :: as =>
      match step s a with
      | none => []
      | some s' => note s a s' ++ record step note s' as

theorem record_concat {γ : Type*} (note : σ → α → σ → List γ) {s t t' : σ} {as : List α} {a : α}
    (ht : exec step s as = some t) (hs : step t a = some t') :
    record step note s (as ++ [a]) = record step note s as ++ note t a t' := by
  induction as generalizing s with
  | nil =>
      simp only [exec_nil, Option.some.injEq] at ht
      subst ht
      simp [record, hs]
  | cons b as ih =>
      obtain ⟨u, hu, hut⟩ := exec_cons_eq_some.mp ht
      simp only [List.cons_append, record, hu, ih hut, List.append_assoc]

theorem record_append {γ : Type*} (note : σ → α → σ → List γ) {s t : σ} {as : List α}
    (bs : List α) (ht : exec step s as = some t) :
    record step note s (as ++ bs) = record step note s as ++ record step note t bs := by
  induction as generalizing s with
  | nil =>
      simp only [exec_nil, Option.some.injEq] at ht
      rw [ht]
      rfl
  | cons a as ih =>
      obtain ⟨u, hu, hut⟩ := exec_cons_eq_some.mp ht
      simp only [List.cons_append, record, hu, ih hut, List.append_assoc]

/-- **The invariant rule**, for what holds between the state and the history in runs whose
steps all satisfy `C`. -/
theorem Steps.record_invariant {γ : Type*} {note : σ → α → σ → List γ} {C : σ → α → σ → Prop}
    {I : σ → List γ → Prop}
    (hstep : ∀ s l a s', C s a s' → I s l → step s a = some s' → I s' (l ++ note s a s'))
    {s s' : σ} {as : List α} (hC : Steps step C s as) (h : exec step s as = some s')
    (hs : I s []) : I s' (record step note s as) := by
  induction as using List.reverseRecOn generalizing s' with
  | nil =>
      simp only [exec_nil, Option.some.injEq] at h
      exact h ▸ hs
  | append_singleton as a ih =>
      obtain ⟨t, ht, hta⟩ := exec_concat_eq_some.mp h
      rw [record_concat note ht hta]
      exact hstep t _ a s' (hC.last ht hta) (ih hC.of_append ht) hta

/-- **The invariant rule**, for what holds between the state and the history. -/
theorem record_invariant {γ : Type*} {note : σ → α → σ → List γ} {I : σ → List γ → Prop}
    (hstep : ∀ s l a s', I s l → step s a = some s' → I s' (l ++ note s a s'))
    {s s' : σ} {as : List α} (h : exec step s as = some s') (hs : I s []) :
    I s' (record step note s as) :=
  (Steps.of_forall_mem (A := fun _ => True) fun _ _ => trivial).record_invariant
    (fun s l a s' _ => hstep s l a s') h hs

end SystemsPrep.Base
