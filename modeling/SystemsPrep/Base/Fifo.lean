import Mathlib.Tactic.Common
import Mathlib.Data.List.Infix

/-!
The bounded first-in first-out queue, as a specification of calls.

A history is the list of the calls so far with their results. It is one of the
bounded queue if every call has the result the queue gives on the values it holds.
A call that leaves by an exception holds to this if it changes nothing.
-/

namespace SystemsPrep.Base

/-- A call that has ended, with its result. -/
inductive FifoEvent (T : Type*)
  | pushed (value : T) (accepted : Bool)
  | popped (result : Option T)
  | threw
  deriving DecidableEq

variable {T : Type*}

/-- A call on a queue of the given capacity: the values held before and after. -/
inductive FifoStep (capacity : ℕ) : List T → FifoEvent T → List T → Prop
  | accept {xs : List T} (v : T) (h : xs.length < capacity) :
      FifoStep capacity xs (.pushed v true) (xs ++ [v])
  | refuse {xs : List T} (v : T) (h : xs.length = capacity) :
      FifoStep capacity xs (.pushed v false) xs
  | take (v : T) (xs : List T) : FifoStep capacity (v :: xs) (.popped (some v)) xs
  | empty : FifoStep capacity [] (.popped none) []
  | threw (xs : List T) : FifoStep capacity xs .threw xs

/-- The history is one of a queue that was empty at first and now holds `xs`. -/
inductive FifoRun (capacity : ℕ) : List (FifoEvent T) → List T → Prop
  | nil : FifoRun capacity [] []
  | concat {es : List (FifoEvent T)} {e : FifoEvent T} {xs ys : List T}
      (h : FifoRun capacity es xs) (hstep : FifoStep capacity xs e ys) :
      FifoRun capacity (es ++ [e]) ys

def FifoEvent.accepted : FifoEvent T → List T
  | .pushed v true => [v]
  | _ => []

def FifoEvent.taken : FifoEvent T → List T
  | .popped (some v) => [v]
  | _ => []

theorem FifoStep.accepted_eq {capacity : ℕ} {xs ys : List T} {e : FifoEvent T}
    (h : FifoStep capacity xs e ys) : xs ++ e.accepted = e.taken ++ ys := by
  cases h with
  | accept v hlt => rfl
  | refuse v hlen => exact List.append_nil _
  | take v xs => exact List.append_nil _
  | empty => rfl
  | threw xs => exact List.append_nil _

theorem FifoRun.accepted_eq {capacity : ℕ} {xs : List T} {es : List (FifoEvent T)}
    (h : FifoRun capacity es xs) :
    es.flatMap FifoEvent.accepted = es.flatMap FifoEvent.taken ++ xs := by
  induction h with
  | nil => rfl
  | concat h hstep ih =>
      rw [List.flatMap_append, List.flatMap_append, ih, List.append_assoc, List.append_assoc]
      simp only [List.flatMap_singleton]
      rw [hstep.accepted_eq]

theorem fifoRun_concat_iff {capacity : ℕ} {ys : List T} {es : List (FifoEvent T)}
    {e : FifoEvent T} :
    FifoRun capacity (es ++ [e]) ys ↔ ∃ xs, FifoRun capacity es xs ∧ FifoStep capacity xs e ys := by
  constructor
  · intro h
    generalize hes : es ++ [e] = es' at h
    cases h with
    | nil => exact absurd hes (by simp)
    | concat h hstep =>
        obtain ⟨rfl, he⟩ := List.append_inj' hes rfl
        obtain rfl := List.singleton_inj.mp he
        exact ⟨_, h, hstep⟩
  · rintro ⟨xs, h, hstep⟩
    exact h.concat hstep

/-- The results of the calls determine what is held. -/
theorem FifoRun.unique {capacity : ℕ} {xs ys : List T} {es : List (FifoEvent T)}
    (hx : FifoRun capacity es xs) (hy : FifoRun capacity es ys) : xs = ys :=
  List.append_cancel_left (hx.accepted_eq.symm.trans hy.accepted_eq)

end SystemsPrep.Base
