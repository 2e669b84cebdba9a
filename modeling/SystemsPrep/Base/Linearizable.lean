import SystemsPrep.Base.Exec
import Mathlib.Logic.Function.Basic

/-!
Linearizability.

Threads call an object. A call begins, takes effect in one step on the value of the
object, and returns what the effect gave it. The object in which nothing else happens
is the atomic one, and a history of beginnings and returns is linearizable if the
atomic object has it: the effects can be placed inside the calls. Which effects there
are is the specification. It may look at the calls of the other threads, so that it can
allow an operation to give up while another one is in progress.
-/

namespace SystemsPrep.Base

/-- What the callers of an object see. -/
inductive CallEvent (ι Op Ret : Type*)
  | call (t : ι) (op : Op)
  | ret (t : ι) (r : Ret)

/-- A thread outside the object, in a call that has had no effect yet, and in one that
has. -/
inductive CallStage (Op Ret : Type*)
  | outside
  | called (op : Op)
  | done (op : Op) (r : Ret)

/-- An object and the threads that call it. -/
structure Atomic (ι κ Op Ret : Type*) where
  value : κ
  stage : ι → CallStage Op Ret

/-- The effect of an operation, called by a thread, on a value: what it returns and the
value after it. -/
abbrev Spec (ι κ Op Ret : Type*) := (ι → CallStage Op Ret) → ι → κ → Op → Ret → κ → Prop

variable {ι κ Op Ret : Type*} [DecidableEq ι] {spec : Spec ι κ Op Ret}

def Atomic.setStage (x : Atomic ι κ Op Ret) (t : ι) (c : CallStage Op Ret) : Atomic ι κ Op Ret :=
  { x with stage := Function.update x.stage t c }

/-- The runs of the atomic object, with the events that its callers see. -/
inductive AtomicRun (spec : Spec ι κ Op Ret) (x : Atomic ι κ Op Ret) :
    List (CallEvent ι Op Ret) → Atomic ι κ Op Ret → Prop
  | refl : AtomicRun spec x [] x
  | call {y : Atomic ι κ Op Ret} {h : List (CallEvent ι Op Ret)} {t : ι} (op : Op)
      (hrun : AtomicRun spec x h y) (ht : y.stage t = .outside) :
      AtomicRun spec x (h ++ [.call t op]) (y.setStage t (.called op))
  | effect {y : Atomic ι κ Op Ret} {h : List (CallEvent ι Op Ret)} {t : ι} {op : Op} {r : Ret}
      {v : κ} (hrun : AtomicRun spec x h y) (ht : y.stage t = .called op)
      (hspec : spec y.stage t y.value op r v) :
      AtomicRun spec x h { y.setStage t (.done op r) with value := v }
  | ret {y : Atomic ι κ Op Ret} {h : List (CallEvent ι Op Ret)} {t : ι} {op : Op} {r : Ret}
      (hrun : AtomicRun spec x h y) (ht : y.stage t = .done op r) :
      AtomicRun spec x (h ++ [.ret t r]) (y.setStage t .outside)

theorem AtomicRun.trans {x y z : Atomic ι κ Op Ret} {h h' : List (CallEvent ι Op Ret)}
    (hxy : AtomicRun spec x h y) (hyz : AtomicRun spec y h' z) : AtomicRun spec x (h ++ h') z := by
  induction hyz with
  | refl => rwa [List.append_nil]
  | call op _ ht ih =>
      rw [← List.append_assoc]
      exact ih.call op ht
  | effect _ ht hspec ih => exact ih.effect ht hspec
  | ret _ ht ih =>
      rw [← List.append_assoc]
      exact ih.ret ht

/-- The object with value `v` and nobody in a call. -/
def Atomic.start (ι : Type*) {κ Op Ret : Type*} (v : κ) : Atomic ι κ Op Ret where
  value := v
  stage _ := .outside

/-- The history is one of the atomic object. -/
def Linearizable (spec : Spec ι κ Op Ret) (v : κ) (h : List (CallEvent ι Op Ret)) : Prop :=
  ∃ y, AtomicRun spec (.start ι v) h y

/-! ### Single steps, seen from the state they start in -/

section Steps

variable {x : Atomic ι κ Op Ret} {t : ι} {op : Op} {r : Ret}

theorem AtomicRun.stay {c : CallStage Op Ret} (ht : x.stage t = c) :
    AtomicRun spec x [] (x.setStage t c) := by
  have hstage : Function.update x.stage t c = x.stage := by rw [← ht, Function.update_eq_self]
  unfold Atomic.setStage
  rw [hstage]
  exact .refl

theorem AtomicRun.single_call (op : Op) (ht : x.stage t = .outside) :
    AtomicRun spec x [.call t op] (x.setStage t (.called op)) :=
  AtomicRun.refl.call op ht

theorem AtomicRun.single_effect {v : κ} (ht : x.stage t = .called op)
    (hspec : spec x.stage t x.value op r v) :
    AtomicRun spec x [] { x.setStage t (.done op r) with value := v } :=
  AtomicRun.refl.effect ht hspec

theorem AtomicRun.single_ret (ht : x.stage t = .done op r) :
    AtomicRun spec x [.ret t r] (x.setStage t .outside) :=
  AtomicRun.refl.ret ht

theorem AtomicRun.effect_ret {v : κ} (ht : x.stage t = .called op)
    (hspec : spec x.stage t x.value op r v) :
    AtomicRun spec x [.ret t r] { x.setStage t .outside with value := v } := by
  have hdone : (x.setStage t (.done op r)).stage t = .done op r := Function.update_self ..
  have hrun := (AtomicRun.single_effect ht hspec).ret hdone
  have hstage : Function.update (Function.update x.stage t (.done op r)) t .outside =
      Function.update x.stage t .outside := Function.update_idem ..
  unfold Atomic.setStage at hrun ⊢
  rwa [hstage] at hrun

end Steps

/-! ### Refinement mappings -/

/-- **The mapping rule.** An implementation whose every step is matched by a run of the
atomic object, between the abstract values of the two states and with the events that
the step shows, has linearizable histories only. -/
theorem linearizable_of_mapping {σ α : Type*} {step : σ → α → Option σ} {C : σ → α → σ → Prop}
    {I : σ → Prop} {f : σ → Atomic ι κ Op Ret} {note : σ → α → σ → List (CallEvent ι Op Ret)}
    (hI : ∀ s a s', C s a s' → I s → step s a = some s' → I s')
    (hstep : ∀ s a s', C s a s' → I s → step s a = some s' →
      AtomicRun spec (f s) (note s a s') (f s'))
    {s s' : σ} {as : List α} {v : κ} (hC : Steps step C s as) (h : exec step s as = some s')
    (hs : I s) (hv : f s = .start ι v) : Linearizable spec v (record step note s as) := by
  refine ⟨f s', ?_⟩
  have hboth : I s' ∧ AtomicRun spec (f s) (record step note s as) (f s') := by
    refine hC.record_invariant (I := fun t l => I t ∧ AtomicRun spec (f s) l (f t)) ?_ h
      ⟨hs, .refl⟩
    rintro t l a t' hCt ⟨hIt, hrun⟩ hta
    exact ⟨hI t a t' hCt hIt hta, hrun.trans (hstep t a t' hCt hIt hta)⟩
  rw [← hv]
  exact hboth.2

end SystemsPrep.Base
