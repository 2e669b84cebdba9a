import SystemsPrep.Base.Exec
import Mathlib.Tactic.Linarith

/-!
Two counters read one after the other.

Both only grow, and no step moves both. The first is read at the beginning of a run
and the second at its end. The two values were current together at some point of the
run exactly when the step that gave the second counter its last value, if there was
one, found the first counter as it had been read.
-/

namespace SystemsPrep.Base

variable {σ α β γ : Type*} {step : σ → α → Option σ}

theorem exec_le [Preorder β] {f : σ → β} (hf : ∀ s a s', step s a = some s' → f s ≤ f s')
    {s s' : σ} {as : List α} (h : exec step s as = some s') : f s ≤ f s' := by
  refine exec_invariant (I := fun t => f s ≤ f t) ?_ h le_rfl
  exact fun t a t' hle ht => hle.trans (hf t a t' ht)

section Snapshot

variable [LinearOrder β] [LinearOrder γ] {hd : σ → β} {tl : σ → γ}

/-- At some point of the run, which ends in `s'`, the first counter has the value it
had at the beginning and the second one the value it has at the end. -/
def Together (step : σ → α → Option σ) (hd : σ → β) (tl : σ → γ) (s : σ) (as : List α) (s' : σ) :
    Prop :=
  Visits step s as fun u => hd u = hd s ∧ tl u = tl s'

omit [LinearOrder β] in
theorem Together.of_last {s s' : σ} {as : List α}
    (htl : ∀ s a s', step s a = some s' → tl s ≤ tl s')
    (hone : ∀ s a s', step s a = some s' → hd s' = hd s ∨ tl s' = tl s)
    (h : exec step s as = some s')
    (hlast : Steps step (fun t _ t' => tl t < tl t' → tl t' = tl s' → hd t = hd s) s as) :
    Together step hd tl s as s' := by
  induction as using List.reverseRecOn generalizing s' with
  | nil =>
      simp only [exec_nil, Option.some.injEq] at h
      exact Visits.first ⟨rfl, h ▸ rfl⟩
  | append_singleton as a ih =>
      obtain ⟨t, ht, hta⟩ := exec_concat_eq_some.mp h
      rcases (htl t a s' hta).lt_or_eq with hlt | heq
      · -- the last step moved the second counter, so it left the first one alone
        have hhd : hd t = hd s := hlast.last ht hta hlt rfl
        have hkept : hd s' = hd t := (hone t a s' hta).resolve_right hlt.ne'
        exact Visits.last h ⟨hkept.trans hhd, rfl⟩
      · have hbefore := ih ht (by rw [heq]; exact hlast.of_append)
        unfold Together at hbefore ⊢
        rw [← heq]
        exact hbefore.append [a]

theorem Together.steps {s s' : σ} {as : List α}
    (hhd : ∀ s a s', step s a = some s' → hd s ≤ hd s')
    (htl : ∀ s a s', step s a = some s' → tl s ≤ tl s')
    (h : exec step s as = some s') (hvisit : Together step hd tl s as s') :
    Steps step (fun t _ t' => tl t < tl t' → hd t = hd s) s as := by
  intro bs a t t' hbs ht hta hlt
  obtain ⟨cs, hcs, u, hu, hhdu, htlu⟩ := hvisit
  have hge : hd s ≤ hd t := exec_le hhd ht
  have ht' : exec step s (bs ++ [a]) = some t' := exec_concat_eq_some.mpr ⟨t, ht, hta⟩
  rcases List.prefix_or_prefix_of_prefix hbs hcs with ⟨ds, rfl⟩ | hpre
  · -- the two values are current together after this step
    have hle : hd t ≤ hd u := (hhd t a t' hta).trans (exec_le hhd (exec_after ht' hu))
    exact le_antisymm (hhdu ▸ hle) hge
  · rcases List.prefix_concat_iff.mp hpre with rfl | ⟨ds, rfl⟩
    · -- right after it
      obtain rfl : t' = u := Option.some.inj (ht'.symm.trans hu)
      exact le_antisymm (hhdu ▸ hhd t a t' hta) hge
    · -- before it, but then the second counter has moved on since
      obtain ⟨es, rfl⟩ := hbs
      have hbefore : tl u ≤ tl t := exec_le htl (exec_after hu ht)
      have hafter : tl t' ≤ tl u := htlu ▸ exec_le htl (exec_after ht' h)
      exact absurd (hlt.trans_le hafter) hbefore.not_gt

/-- **Two reads make a snapshot exactly when every step between them that moves the
second counter finds the first one as it was read.** -/
theorem together_iff_steps {s s' : σ} {as : List α}
    (hhd : ∀ s a s', step s a = some s' → hd s ≤ hd s')
    (htl : ∀ s a s', step s a = some s' → tl s ≤ tl s')
    (hone : ∀ s a s', step s a = some s' → hd s' = hd s ∨ tl s' = tl s)
    (h : exec step s as = some s') :
    Together step hd tl s as s' ↔ Steps step (fun t _ t' => tl t < tl t' → hd t = hd s) s as :=
  ⟨Together.steps hhd htl h, fun hsteps =>
    Together.of_last htl hone h fun bs a t t' hbs ht hta hlt _ => hsteps bs a t t' hbs ht hta hlt⟩

end Snapshot

end SystemsPrep.Base
