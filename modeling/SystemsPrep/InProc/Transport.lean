import SystemsPrep.Base.Bytes
import Mathlib.Logic.Function.Basic
import Mathlib.Tactic.Linarith
import Mathlib.Tactic.Positivity
import Mathlib.Tactic.Ring

/-!
The in-process transport of `transport_inproc.cpp`.

One queue of messages for every pair of a sender and a receiver, found by an
index computed in `int` arithmetic. A `send` appends a copy of the caller's bytes.
A `recv` takes the front message first and compares its length afterwards.
-/

namespace SystemsPrep.InProc

open Base

/-- The `int` that holds the value of an expression. -/
def int32 (x : ℤ) : ℤ := x.bmod (2 ^ 32)

theorem int32_natCast {x : ℕ} (h : x < 2 ^ 31) : int32 x = x := by
  apply Int.bmod_eq_of_le
  · omega
  · omega

/-- The exceptions the transport throws, with their `what()`. -/
inductive Exception
  | outOfRange (what : String)
  | runtimeError (what : String)
  deriving DecidableEq

/-- `struct InProcGrid`. The mutex and the condition variable of a queue make
`push`, and `wait` with the taking of the front, single steps on that queue. -/
structure InProcGrid where
  n : ℤ
  q : ℕ → List (List Byte)

def InProcGrid.create (n : ℤ) : InProcGrid where
  n := n
  q _ := []

namespace InProcGrid

def push (g : InProcGrid) (idx : ℕ) (bytes : List Byte) : InProcGrid :=
  { g with q := Function.update g.q idx (g.q idx ++ [bytes]) }

def pop (g : InProcGrid) (idx : ℕ) : InProcGrid :=
  { g with q := Function.update g.q idx (g.q idx).tail }

section Queues

variable (g : InProcGrid) {i j : ℕ} (bytes bytes' : List Byte)

@[simp] theorem push_q_self : (g.push i bytes).q i = g.q i ++ [bytes] := by
  simp [push]

theorem push_q_of_ne (h : j ≠ i) : (g.push i bytes).q j = g.q j := by
  simp [push, h]

@[simp] theorem pop_q_self : (g.pop i).q i = (g.q i).tail := by
  simp [pop]

theorem pop_q_of_ne (h : j ≠ i) : (g.pop i).q j = g.q j := by
  simp [pop, h]

theorem push_push_comm (h : i ≠ j) :
    (g.push i bytes).push j bytes' = (g.push j bytes').push i bytes := by
  simp only [push, Function.update_of_ne h, Function.update_of_ne h.symm]
  rw [Function.update_comm h]

theorem pop_pop_comm (h : i ≠ j) : (g.pop i).pop j = (g.pop j).pop i := by
  simp only [pop, Function.update_of_ne h, Function.update_of_ne h.symm]
  rw [Function.update_comm h]

theorem push_pop_comm_of_ne (h : i ≠ j) :
    (g.push i bytes).pop j = (g.pop j).push i bytes := by
  simp only [push, pop, Function.update_of_ne h, Function.update_of_ne h.symm]
  rw [Function.update_comm h]

/-- The sender and the receiver of one channel work at its two ends. -/
theorem push_pop_comm (h : g.q i ≠ []) : (g.push i bytes).pop i = (g.pop i).push i bytes := by
  simp only [push, pop, Function.update_self, Function.update_idem,
    List.tail_append_of_ne_nil h]

end Queues

end InProcGrid

/-- `InProcTransport`, apart from the grid it shares. -/
structure InProcTransport where
  worldSize : ℤ
  myRank : ℤ

namespace InProcTransport

/-- `dst_rank < 0 || dst_rank >= world_size_`, and the same of `src_rank`. -/
def OutOfRange (t : InProcTransport) (peer : ℤ) : Prop := peer < 0 ∨ t.worldSize ≤ peer

instance (t : InProcTransport) (peer : ℤ) : Decidable (t.OutOfRange peer) :=
  inferInstanceAs (Decidable (_ ∨ _))

/-- `int idx = my_rank_ * world_size_ + dst_rank` in `send`. -/
def sendIdx (t : InProcTransport) (dst : ℤ) : ℕ :=
  (int32 (int32 (t.myRank * t.worldSize) + dst)).toNat

/-- `int idx = src_rank * world_size_ + my_rank_` in `recv`. -/
def recvIdx (t : InProcTransport) (src : ℤ) : ℕ :=
  (int32 (int32 (src * t.worldSize) + t.myRank)).toNat

end InProcTransport

/-! ### The grid of channels -/

/-- The index of a channel does not overflow and stays inside the grid. -/
theorem int32_idx {n src dst : ℕ} (hn : n * n < 2 ^ 31) (hsrc : src < n) (hdst : dst < n) :
    (int32 (int32 ((src : ℤ) * n) + dst)).toNat = src * n + dst := by
  have hle : src * n + n ≤ n * n := by
    calc src * n + n = (src + 1) * n := by ring
      _ ≤ n * n := Nat.mul_le_mul_right n hsrc
  have hmul : (src : ℤ) * n = (src * n : ℕ) := by push_cast; rfl
  have hadd : ((src * n : ℕ) : ℤ) + dst = (src * n + dst : ℕ) := by push_cast; rfl
  rw [hmul, int32_natCast (by omega), hadd, int32_natCast (by omega), Int.toNat_natCast]

theorem idx_inj {n src dst src' dst' : ℕ} (hdst : dst < n) (hdst' : dst' < n)
    (h : src * n + dst = src' * n + dst') : src = src' ∧ dst = dst' := by
  have hpos : 0 < n := by omega
  have hmod : dst = dst' := by
    have := congrArg (· % n) h
    simpa [Nat.mul_add_mod_of_lt, Nat.mod_eq_of_lt hdst, Nat.mod_eq_of_lt hdst',
      Nat.add_mod] using this
  subst hmod
  have hmul : src * n = src' * n := by omega
  exact ⟨Nat.eq_of_mul_eq_mul_right hpos hmul, rfl⟩

end SystemsPrep.InProc
