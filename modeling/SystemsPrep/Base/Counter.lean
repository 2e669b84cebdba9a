import Mathlib.Tactic.Linarith
import Mathlib.Data.List.Infix

/-!
Machine words that count.

A ring index is a `w`-bit word that only ever grows, modulo `2 ^ w`. The proofs
follow the unbounded counter behind it: the word is `BitVec.ofNat w n` for a
natural number `n` that the code never sees. A difference of two such words is
the difference of the counters as long as these are less than `2 ^ w` apart,
and masking one with a power of two less one is the counter modulo that power.
-/

namespace SystemsPrep.Base

variable {w : ℕ}

theorem ofNat_sub_ofNat_of_le {m n : ℕ} (h : n ≤ m) :
    BitVec.ofNat w m - BitVec.ofNat w n = BitVec.ofNat w (m - n) := by
  have hm : BitVec.ofNat w m = BitVec.ofNat w (m - n) + BitVec.ofNat w n := by
    rw [← BitVec.ofNat_add, Nat.sub_add_cancel h]
  rw [hm, BitVec.add_sub_cancel]

theorem toNat_ofNat_sub {m n : ℕ} (h : n ≤ m) (hlt : m - n < 2 ^ w) :
    (BitVec.ofNat w m - BitVec.ofNat w n).toNat = m - n := by
  rw [ofNat_sub_ofNat_of_le h, BitVec.toNat_ofNat, Nat.mod_eq_of_lt hlt]

/-- The difference the other way round wraps. -/
theorem toNat_ofNat_sub_of_lt {m n : ℕ} (h : m < n) (hlt : n - m < 2 ^ w) :
    (BitVec.ofNat w m - BitVec.ofNat w n).toNat = 2 ^ w - (n - m) := by
  have hneg : BitVec.ofNat w m - BitVec.ofNat w n =
      -(BitVec.ofNat w n - BitVec.ofNat w m) := by
    rw [BitVec.neg_sub, BitVec.sub_eq_add_neg, BitVec.add_comm]
  rw [hneg, BitVec.toNat_neg, toNat_ofNat_sub h.le hlt, Nat.mod_eq_of_lt]
  omega

/-- Two counters less than `2 ^ w` apart are equal when their words are. -/
theorem ofNat_inj_of_near {m n : ℕ} (h : n ≤ m) (hlt : m - n < 2 ^ w) :
    BitVec.ofNat w m = BitVec.ofNat w n ↔ m = n := by
  constructor
  · intro heq
    have hsub := toNat_ofNat_sub h hlt
    rw [heq, BitVec.sub_self, BitVec.toNat_zero] at hsub
    omega
  · rintro rfl
    rfl

theorem ofNat_succ (n : ℕ) : BitVec.ofNat w (n + 1) = BitVec.ofNat w n + 1 := by
  rw [BitVec.ofNat_add]
  rfl

theorem ofNat_add_toNat (n : ℕ) (x : BitVec w) :
    BitVec.ofNat w (n + x.toNat) = BitVec.ofNat w n + x := by
  rw [BitVec.ofNat_add, BitVec.ofNat_toNat, BitVec.setWidth_eq]

/-! ### Powers of two as masks -/

theorem toNat_sub_one {c : BitVec w} (hc : c.toNat ≠ 0) :
    (c - 1).toNat = c.toNat - 1 := by
  have hw : 1 < 2 ^ w := by
    have := c.isLt
    omega
  have hone : (1 : BitVec w).toNat = 1 := by
    rw [BitVec.ofNat_eq_ofNat, BitVec.toNat_ofNat, Nat.mod_eq_of_lt hw]
  rw [BitVec.toNat_sub_of_le (by rw [BitVec.le_def, hone]; omega), hone]

/-- The test `c != 0 && (c & (c - 1)) == 0`. -/
theorem isPowerOfTwo_of_and_sub_one {c : BitVec w} (h0 : c ≠ 0)
    (h : c &&& (c - 1) = 0) : c.toNat.isPowerOfTwo := by
  have hc : c.toNat ≠ 0 := (BitVec.toNat_pos_of_ne_zero h0).ne'
  rw [← Nat.ne_zero_and_sub_one_eq_zero_iff_isPowerOfTwo]
  refine ⟨hc, ?_⟩
  rw [← toNat_sub_one hc, ← BitVec.toNat_and, h, BitVec.ofNat_eq_ofNat, BitVec.toNat_ofNat,
    Nat.zero_mod]

theorem ne_zero_of_isPowerOfTwo {c : BitVec w} (hc : c.toNat.isPowerOfTwo) : c ≠ 0 := by
  rintro rfl
  exact (Nat.pos_of_isPowerOfTwo hc).ne' BitVec.toNat_zero

/-- Masking with `c - 1` takes a counter modulo `c`. -/
theorem toNat_ofNat_and_sub_one {c : BitVec w} (hc : c.toNat.isPowerOfTwo) (n : ℕ) :
    (BitVec.ofNat w n &&& (c - 1)).toNat = n % c.toNat := by
  have hpos : c.toNat ≠ 0 := (Nat.pos_of_isPowerOfTwo hc).ne'
  obtain ⟨k, hk⟩ := hc
  have hkw : k ≤ w := by
    have := c.isLt
    rw [hk] at this
    exact ((Nat.pow_lt_pow_iff_right (by omega)).mp this).le
  rw [BitVec.toNat_and, toNat_sub_one hpos, BitVec.toNat_ofNat, hk,
    Nat.and_two_pow_sub_one_eq_mod, Nat.mod_mod_of_dvd _ (pow_dvd_pow 2 hkw)]

/-! ### A counter read by another party

The reader of an index need not see its newest value. It sees one of the values
the index has held since the value it saw last, which is the coherence order of
a single atomic variable. -/

/-- `vals` are the words a counter has held, newest first, back to the one its
reader saw last. That one is at least `lo`, and the counter is now `hi`. -/
def Held (vals : List (BitVec w)) (lo hi : ℕ) : Prop :=
  ∃ ns : List ℕ, vals = ns.map (BitVec.ofNat w) ∧ ns.head? = some hi ∧
    ns.Pairwise (· ≥ ·) ∧ ∀ n ∈ ns, lo ≤ n

theorem Held.single (n : ℕ) : Held [BitVec.ofNat w n] n n :=
  ⟨[n], rfl, rfl, List.pairwise_singleton .., by simp⟩

theorem Held.le_of_mem {ns : List ℕ} {hi n : ℕ} (hhead : ns.head? = some hi)
    (hsorted : ns.Pairwise (· ≥ ·)) (hn : n ∈ ns) : n ≤ hi := by
  cases ns with
  | nil => simp at hn
  | cons m ns =>
      obtain rfl : m = hi := by simpa using hhead
      rcases List.mem_cons.mp hn with rfl | hn
      · exact le_rfl
      · exact List.rel_of_pairwise_cons hsorted hn

theorem Held.exists_current {vals : List (BitVec w)} {lo hi : ℕ} (h : Held vals lo hi) :
    ∃ v, vals[0]? = some v := by
  obtain ⟨ns, rfl, hhead, -⟩ := h
  refine ⟨BitVec.ofNat w hi, ?_⟩
  rw [← List.head?_eq_getElem?, List.head?_map, hhead]
  rfl

theorem Held.store {vals : List (BitVec w)} {lo hi hi' : ℕ} (h : Held vals lo hi)
    (hle : hi ≤ hi') : Held (BitVec.ofNat w hi' :: vals) lo hi' := by
  obtain ⟨ns, rfl, hhead, hsorted, hlo⟩ := h
  have hmem : hi ∈ ns := List.mem_of_mem_head? (by simp [hhead])
  refine ⟨hi' :: ns, rfl, rfl, List.pairwise_cons.mpr ⟨fun n hn => ?_, hsorted⟩, ?_⟩
  · exact (Held.le_of_mem hhead hsorted hn).trans hle
  · intro n hn
    rcases List.mem_cons.mp hn with rfl | hn
    · exact (hlo hi hmem).trans hle
    · exact hlo n hn

/-- The reader loads the value held `i` stores ago, and from then on nothing
older. -/
theorem Held.load {vals : List (BitVec w)} {lo hi i : ℕ} {v : BitVec w}
    (h : Held vals lo hi) (hv : vals[i]? = some v) :
    ∃ n, lo ≤ n ∧ n ≤ hi ∧ v = BitVec.ofNat w n ∧ (i = 0 → n = hi) ∧
      Held (vals.take (i + 1)) n hi := by
  obtain ⟨ns, rfl, hhead, hsorted, hlo⟩ := h
  rw [List.getElem?_map, Option.map_eq_some_iff] at hv
  obtain ⟨n, hn, rfl⟩ := hv
  have hmem : n ∈ ns := List.mem_of_getElem? hn
  refine ⟨n, hlo n hmem, Held.le_of_mem hhead hsorted hmem, rfl, ?_, ns.take (i + 1),
    by rw [List.map_take], ?_, hsorted.sublist (List.take_sublist ..), ?_⟩
  · rintro rfl
    rw [← List.head?_eq_getElem?, hhead] at hn
    exact (Option.some.inj hn).symm
  · rw [List.head?_take, if_neg (by omega), hhead]
  · -- the values before position `i` are newer, hence larger
    intro m hm
    rw [List.take_add_one, hn, List.mem_append] at hm
    rcases hm with hm | hm
    · obtain ⟨j, hj, rfl⟩ := List.mem_take_iff_getElem.mp hm
      obtain ⟨hi, rfl⟩ := List.getElem?_eq_some_iff.mp hn
      exact List.pairwise_iff_getElem.mp hsorted j i (by omega) hi (by omega)
    · simp only [Option.toList_some, List.mem_singleton] at hm
      exact hm.ge

end SystemsPrep.Base
