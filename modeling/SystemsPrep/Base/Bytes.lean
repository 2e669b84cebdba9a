import Mathlib.Tactic.Linarith
import Mathlib.Tactic.Ring
import Mathlib.Data.List.Infix

/-!
Bytes, and arrays of records in a byte memory.

A memory is a total function from 64-bit addresses, and a range is a base with a
length: it covers the addresses whose offset from the base is below the length,
so it may lie anywhere, across the top of the address space included. An array
of fixed-size records in a range is read and written record by record.
-/

namespace SystemsPrep.Base

abbrev Byte := BitVec 8

abbrev Addr := BitVec 64

abbrev Mem := Addr → Byte

/-! ### Numbers in little-endian order -/

/-- The `n` low bytes of a number, least significant first. -/
def toLE : ℕ → ℕ → List Byte
  | 0, _ => []
  | n + 1, x => BitVec.ofNat 8 x :: toLE n (x / 256)

def ofLE : List Byte → ℕ
  | [] => 0
  | b :: bs => b.toNat + 256 * ofLE bs

@[simp] theorem length_toLE (n x : ℕ) : (toLE n x).length = n := by
  induction n generalizing x with
  | zero => rfl
  | succ n ih => rw [toLE, List.length_cons, ih]

theorem ofLE_toLE (n x : ℕ) : ofLE (toLE n x) = x % 256 ^ n := by
  induction n generalizing x with
  | zero => rw [toLE, ofLE, pow_zero, Nat.mod_one]
  | succ n ih =>
      have hmod : x % 256 ^ (n + 1) = x % 256 + 256 * (x / 256 % 256 ^ n) := by
        rw [pow_succ', Nat.mod_mul]
      rw [toLE, ofLE, ih, BitVec.toNat_ofNat, hmod]

theorem ofNat_ofLE_toLE {w n : ℕ} (hw : 2 ^ w = 256 ^ n) (x : BitVec w) :
    BitVec.ofNat w (ofLE (toLE n x.toNat)) = x := by
  rw [ofLE_toLE, ← hw, Nat.mod_eq_of_lt x.isLt, BitVec.ofNat_toNat, BitVec.setWidth_eq]

/-! ### Ranges of a memory -/

/-- The address lies in the range of `len` bytes from `base` on. -/
def Covers (base : Addr) (len : ℕ) (a : Addr) : Prop := (a - base).toNat < len

instance (base : Addr) (len : ℕ) (a : Addr) : Decidable (Covers base len a) :=
  inferInstanceAs (Decidable (_ < _))

/-- No address lies in both ranges. -/
def Apart (base : Addr) (len : ℕ) (base' : Addr) (len' : ℕ) : Prop :=
  ∀ a, Covers base len a → ¬ Covers base' len' a

theorem apart_of_le {b b' : Addr} {n n' : ℕ} (h : b.toNat + n ≤ b'.toNat)
    (h' : b'.toNat + n' ≤ 2 ^ 64) : Apart b n b' n' := by
  intro a ha ha'
  rw [Covers, BitVec.toNat_sub] at ha ha'
  have := a.isLt
  omega

theorem add_ofNat_sub (base : Addr) (i : ℕ) :
    base + BitVec.ofNat 64 i - base = BitVec.ofNat 64 i := by
  rw [BitVec.add_comm, BitVec.add_sub_cancel]

theorem covers_add {base : Addr} {len i : ℕ} (hi : i < len) :
    Covers base len (base + BitVec.ofNat 64 i) := by
  rw [Covers, add_ofNat_sub, BitVec.toNat_ofNat]
  exact (Nat.mod_le _ _).trans_lt hi

namespace Mem

def read (m : Mem) (a : Addr) (n : ℕ) : List Byte :=
  (List.range n).map fun i => m (a + BitVec.ofNat 64 i)

def patch (m : Mem) (a : Addr) (n : ℕ) (f : ℕ → Option Byte) : Mem :=
  fun x => if Covers a n x then (f (x - a).toNat).getD (m x) else m x

def write (m : Mem) (a : Addr) (bs : List Byte) : Mem := m.patch a bs.length fun i => bs[i]?

variable {m m' : Mem} {a b x : Addr} {n : ℕ} {bs : List Byte}

@[simp] theorem length_read (m : Mem) (a : Addr) (n : ℕ) : (m.read a n).length = n := by
  simp [read]

theorem patch_of_not_covers {f : ℕ → Option Byte} (h : ¬ Covers a n x) : m.patch a n f x = m x :=
  if_neg h

theorem write_of_not_covers (h : ¬ Covers a bs.length x) : m.write a bs x = m x :=
  patch_of_not_covers h

theorem read_congr (h : ∀ i < n, m' (a + BitVec.ofNat 64 i) = m (a + BitVec.ofNat 64 i)) :
    m'.read a n = m.read a n :=
  List.map_congr_left fun i hi => h i (List.mem_range.mp hi)

theorem read_write (hlen : bs.length ≤ 2 ^ 64) : (m.write a bs).read a bs.length = bs := by
  apply List.ext_getElem
  · simp
  · intro i hi hi'
    have hoff : (a + BitVec.ofNat 64 i - a).toNat = i := by
      rw [add_ofNat_sub, BitVec.toNat_ofNat, Nat.mod_eq_of_lt (by omega)]
    simp only [read, List.getElem_map, List.getElem_range]
    rw [write, patch, if_pos (covers_add hi'), hoff, List.getElem?_eq_getElem hi']
    rfl

end Mem

/-! ### Arrays of records -/

structure Layout (β : Type*) where
  size : ℕ
  bytes : β → List Byte
  ofBytes : List Byte → β
  length_bytes : ∀ x, (bytes x).length = size
  ofBytes_bytes : ∀ x, ofBytes (bytes x) = x

namespace Layout

variable {β : Type*} (L : Layout β)

def slotAddr (base : Addr) (i : ℕ) : Addr := base + BitVec.ofNat 64 (i * L.size)

/-- Record `i` of the array at `base`. -/
def load (m : Mem) (base : Addr) (i : ℕ) : β := L.ofBytes (m.read (L.slotAddr base i) L.size)

def store (m : Mem) (base : Addr) (i : ℕ) (x : β) : Mem :=
  m.write (L.slotAddr base i) (L.bytes x)

variable {L} {m m' : Mem} {base : Addr} {count i j : ℕ}

theorem covers_slot (hi : i < count) {k : ℕ} (hk : k < L.size) :
    Covers base (count * L.size) (L.slotAddr base i + BitVec.ofNat 64 k) := by
  rw [slotAddr, BitVec.add_assoc, ← BitVec.ofNat_add]
  refine covers_add ?_
  calc i * L.size + k < i * L.size + L.size := Nat.add_lt_add_left hk _
    _ = (i + 1) * L.size := by ring
    _ ≤ count * L.size := Nat.mul_le_mul_right _ hi

theorem covers_of_covers_slot (hi : i < count) {a : Addr}
    (h : Covers (L.slotAddr base i) L.size a) : Covers base (count * L.size) a := by
  have hk : a = L.slotAddr base i + BitVec.ofNat 64 (a - L.slotAddr base i).toNat := by
    rw [BitVec.ofNat_toNat, BitVec.setWidth_eq, BitVec.add_comm, BitVec.sub_add_cancel]
  rw [hk]
  exact covers_slot hi h

/-- The records of an array that fits the address space do not overlap. -/
theorem not_covers_slot_of_ne (hfits : count * L.size ≤ 2 ^ 64) (hi : i < count) (hj : j < count)
    (hij : i ≠ j) {k : ℕ} (hk : k < L.size) :
    ¬ Covers (L.slotAddr base j) L.size (L.slotAddr base i + BitVec.ofNat 64 k) := by
  have hle : ∀ n < count, n * L.size + L.size ≤ count * L.size := by
    intro n hn
    calc n * L.size + L.size = (n + 1) * L.size := by ring
      _ ≤ count * L.size := Nat.mul_le_mul_right _ hn
  have hil := hle i hi
  have hjl := hle j hj
  have hsub : L.slotAddr base i + BitVec.ofNat 64 k - L.slotAddr base j =
      BitVec.ofNat 64 (i * L.size + k) - BitVec.ofNat 64 (j * L.size) := by
    rw [slotAddr, slotAddr, BitVec.add_assoc, ← BitVec.ofNat_add]
    apply BitVec.eq_of_toNat_eq
    simp only [BitVec.toNat_sub, BitVec.toNat_add, BitVec.toNat_ofNat]
    omega
  rw [Covers, hsub, BitVec.toNat_sub, BitVec.toNat_ofNat, BitVec.toNat_ofNat,
    Nat.mod_eq_of_lt (show i * L.size + k < 2 ^ 64 by omega),
    Nat.mod_eq_of_lt (show j * L.size < 2 ^ 64 by omega)]
  rcases Nat.lt_or_gt_of_ne hij with hlt | hgt
  · have hstep : i * L.size + L.size ≤ j * L.size := by
      calc i * L.size + L.size = (i + 1) * L.size := by ring
        _ ≤ j * L.size := Nat.mul_le_mul_right _ hlt
    omega
  · have hstep : j * L.size + L.size ≤ i * L.size := by
      calc j * L.size + L.size = (j + 1) * L.size := by ring
        _ ≤ i * L.size := Nat.mul_le_mul_right _ hgt
    omega

theorem load_store_self (hsize : L.size ≤ 2 ^ 64) (x : β) :
    L.load (L.store m base i x) base i = x := by
  have hread : (m.write (L.slotAddr base i) (L.bytes x)).read (L.slotAddr base i)
      (L.bytes x).length = L.bytes x := Mem.read_write (by rw [L.length_bytes]; exact hsize)
  rw [L.length_bytes] at hread
  rw [load, store, hread, L.ofBytes_bytes]

theorem load_congr (hi : i < count)
    (h : ∀ a, Covers base (count * L.size) a → m' a = m a) :
    L.load m' base i = L.load m base i := by
  rw [load, load, Mem.read_congr fun k hk => h _ (covers_slot hi hk)]

theorem load_store_of_ne (hfits : count * L.size ≤ 2 ^ 64) (hi : i < count) (hj : j < count)
    (hij : i ≠ j) (x : β) : L.load (L.store m base j x) base i = L.load m base i := by
  have hread : (L.store m base j x).read (L.slotAddr base i) L.size =
      m.read (L.slotAddr base i) L.size := by
    refine Mem.read_congr fun k hk => Mem.write_of_not_covers ?_
    rw [L.length_bytes]
    exact not_covers_slot_of_ne hfits hi hj hij hk
  rw [load, load, hread]

theorem store_of_not_covers (hi : i < count) {x : β} {a : Addr}
    (h : ¬ Covers base (count * L.size) a) : L.store m base i x a = m a := by
  refine Mem.write_of_not_covers fun hcov => h (covers_of_covers_slot hi ?_)
  rwa [L.length_bytes] at hcov

theorem store_congr {x : β} {a : Addr} (h : m' a = m a) :
    L.store m' base i x a = L.store m base i x a := by
  simp only [store, Mem.write, Mem.patch, h]

variable (L) in
/-- The records `xs` stored one after the other, round and round the array. -/
def storeAll (m : Mem) (base : Addr) (count : ℕ) (xs : List β) : Mem :=
  xs.zipIdx.foldl (fun m x => L.store m base (x.2 % count) x.1) m

theorem storeAll_concat (xs : List β) (x : β) :
    L.storeAll m base count (xs ++ [x]) =
      L.store (L.storeAll m base count xs) base (xs.length % count) x := by
  simp [storeAll, List.zipIdx_append]

end Layout

end SystemsPrep.Base
