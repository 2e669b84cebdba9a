import Mathlib.Tactic.Common
import Mathlib.Logic.Function.Basic

/-!
The multi-producer queue of `mpmc_queue.hpp`.

An array of cells, each with a ready flag of its own, and two indices that only
grow. The index type `size_type` is a `w`-bit word. The capacity need not be a
power of two: a slot is found by taking the index modulo the capacity.
-/

namespace SystemsPrep.Mpsc

variable {w : ℕ} {T : Type*}

structure Cell (T : Type*) where
  data : T
  isReady : Bool

structure MpscQueue (w : ℕ) (T : Type*) where
  capacity : BitVec w
  items : ℕ → Cell T
  head : BitVec w
  tail : BitVec w

namespace MpscQueue

/-- The constructor. The cells hold whatever value `T` constructs there. -/
def create (capacity : BitVec w) (data : ℕ → T) : MpscQueue w T where
  capacity := capacity
  items i := { data := data i, isReady := false }
  head := 0
  tail := 0

def element (q : MpscQueue w T) (idx : BitVec w) : ℕ := (idx % q.capacity).toNat

/-- `full(head, tail)`, an unsigned subtraction. -/
def full (q : MpscQueue w T) (head tail : BitVec w) : Bool := q.capacity ≤ head - tail

/-- `empty(head, tail)`. -/
def empty (_q : MpscQueue w T) (head tail : BitVec w) : Bool := head = tail

def setData (q : MpscQueue w T) (i : ℕ) (v : T) : MpscQueue w T :=
  { q with items := Function.update q.items i { q.items i with data := v } }

def setReady (q : MpscQueue w T) (i : ℕ) (b : Bool) : MpscQueue w T :=
  { q with items := Function.update q.items i { q.items i with isReady := b } }

section Cells

variable (q : MpscQueue w T) (i : ℕ) (v : T) (b : Bool)

@[simp] theorem setData_capacity : (q.setData i v).capacity = q.capacity := rfl
@[simp] theorem setData_head : (q.setData i v).head = q.head := rfl
@[simp] theorem setData_tail : (q.setData i v).tail = q.tail := rfl
@[simp] theorem setReady_capacity : (q.setReady i b).capacity = q.capacity := rfl
@[simp] theorem setReady_head : (q.setReady i b).head = q.head := rfl
@[simp] theorem setReady_tail : (q.setReady i b).tail = q.tail := rfl

@[simp] theorem setData_data : ((q.setData i v).items i).data = v := by
  simp [setData]

@[simp] theorem setReady_isReady : ((q.setReady i b).items i).isReady = b := by
  simp [setReady]

@[simp] theorem setData_isReady (j : ℕ) :
    ((q.setData i v).items j).isReady = (q.items j).isReady := by
  by_cases h : j = i
  · subst h
    simp [setData]
  · simp [setData, h]

@[simp] theorem setReady_data (j : ℕ) :
    ((q.setReady i b).items j).data = (q.items j).data := by
  by_cases h : j = i
  · subst h
    simp [setReady]
  · simp [setReady, h]

variable {i} in
theorem setData_data_of_ne {j : ℕ} (h : j ≠ i) :
    ((q.setData i v).items j).data = (q.items j).data := by
  simp [setData, h]

variable {i} in
theorem setReady_isReady_of_ne {j : ℕ} (h : j ≠ i) :
    ((q.setReady i b).items j).isReady = (q.items j).isReady := by
  simp [setReady, h]

theorem setData_setReady_items :
    ((q.setData i v).setReady i b).items = Function.update q.items i ⟨v, b⟩ := by
  simp [setData, setReady]

end Cells

end MpscQueue

end SystemsPrep.Mpsc
