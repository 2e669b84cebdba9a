import Mathlib.Algebra.BigOperators.Group.Finset.Piecewise
import Mathlib.Data.Fintype.Basic

/-!
Families of parties, updated one party at a time.

A step of a protocol moves one party of an indexed family. What the move leaves as
it is for that party stays as it is for all. What the parties are owed or hold
together is a sum of weights, which changes by what that party gains and loses.
-/

namespace SystemsPrep.Base

theorem apply_update_eq {ι α β : Type*} [DecidableEq ι] (F : α → β) {g : ι → α} {i : ι} {a : α}
    (h : F a = F (g i)) (j : ι) : F (Function.update g i a j) = F (g j) := by
  by_cases hj : j = i
  · subst hj
    rw [Function.update_self, h]
  · rw [Function.update_of_ne hj]

/-! ### Sums of weights -/

variable {ι α : Type*} [Fintype ι]

def tally (weight : α → ℕ) (f : ι → α) : ℕ := ∑ i, weight (f i)

theorem tally_update [DecidableEq ι] (weight : α → ℕ) (f : ι → α) (i : ι) (a : α) :
    tally weight (Function.update f i a) + weight (f i) = tally weight f + weight a := by
  have hold := Finset.add_sum_erase Finset.univ (fun j => weight (f j)) (Finset.mem_univ i)
  have hnew := Finset.add_sum_erase Finset.univ
    (fun j => weight (Function.update f i a j)) (Finset.mem_univ i)
  have hrest : ∑ j ∈ Finset.univ.erase i, weight (Function.update f i a j) =
      ∑ j ∈ Finset.univ.erase i, weight (f j) :=
    Finset.sum_congr rfl fun j hj => by rw [Function.update_of_ne (Finset.ne_of_mem_erase hj)]
  rw [Function.update_self, hrest] at hnew
  unfold tally
  omega

theorem tally_eq_card (p : α → Bool) (f : ι → α) :
    tally (fun a => (p a).toNat) f = (Finset.univ.filter fun i => p (f i)).card := by
  rw [tally, Finset.card_filter]
  exact Finset.sum_congr rfl fun i _ => by cases p (f i) <;> rfl

theorem tally_add (weight weight' : α → ℕ) (f : ι → α) :
    tally (fun a => weight a + weight' a) f = tally weight f + tally weight' f :=
  Finset.sum_add_distrib

end SystemsPrep.Base
