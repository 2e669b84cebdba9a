import SystemsPrep.Base.Bytes
import SystemsPrep.Base.Counter
import SystemsPrep.Base.Window

/-!
The data of `spsc_ring.c` and the byte ranges its calls copy.

The buffer is addressed by byte offset, as `r->buf + off` is. An offset is
computed in `size_t` arithmetic, so every product below is taken modulo
`2 ^ 64`; the length of a `memcpy` is too.
-/

namespace SystemsPrep.Spsc

open Base

/-- `size_t` and `uint64_t`. -/
abbrev Size := BitVec 64

/-- `struct spsc_ring`, with the size its buffer was allocated with. -/
structure SpscRing where
  capacity : Size
  mask : Size
  elementSize : Size
  buf : ℕ → Byte
  bufSize : Size
  head : Size
  cachedTail : Size
  tail : Size
  cachedHead : Size

/-- `spsc_ring_create`. `alignedAlloc` says whether the structure could be
allocated, and `malloc` returns the uninitialised bytes of a block, or `none`. -/
def spscRingCreate (alignedAlloc : Bool) (malloc : Size → Option (ℕ → Byte))
    (capacity elemSize : Size) : Option SpscRing :=
  if capacity = 0 ∨ capacity &&& (capacity - 1) ≠ 0 ∨ elemSize = 0 then none
  else if alignedAlloc = false then none
  else (malloc (capacity * elemSize)).map fun buf =>
    { capacity := capacity
      mask := capacity - 1
      elementSize := elemSize
      buf := buf
      bufSize := capacity * elemSize
      head := 0
      cachedTail := 0
      tail := 0
      cachedHead := 0 }

namespace SpscRing

def cap (r : SpscRing) : ℕ := r.capacity.toNat

def esize (r : SpscRing) : ℕ := r.elementSize.toNat

/-- `spsc__address_of_index`, as an offset into the buffer. -/
def addressOfIndex (r : SpscRing) (idx : Size) : Size :=
  (idx &&& r.mask) * r.elementSize

/-- What `spsc_ring_create` establishes, for a buffer size that does not wrap. -/
structure WellFormed (r : SpscRing) : Prop where
  capacity : r.capacity.toNat.isPowerOfTwo
  mask : r.mask = r.capacity - 1
  esize_pos : 0 < r.esize
  fits : r.cap * r.esize < 2 ^ 64

theorem WellFormed.congr {r r' : SpscRing} (h : r.WellFormed) (hcap : r'.capacity = r.capacity)
    (hmask : r'.mask = r.mask) (hsize : r'.elementSize = r.elementSize) : r'.WellFormed := by
  obtain ⟨h₁, h₂, h₃, h₄⟩ := h
  simp only [cap, esize] at h₃ h₄
  exact ⟨by rwa [hcap], by rw [hmask, hcap, h₂], by rwa [esize, hsize],
    by rwa [cap, esize, hcap, hsize]⟩

structure Masked (r : SpscRing) : Prop where
  capacity : r.capacity.toNat.isPowerOfTwo
  mask : r.mask = r.capacity - 1

theorem WellFormed.masked {r : SpscRing} (h : r.WellFormed) : r.Masked := ⟨h.capacity, h.mask⟩

end SpscRing

theorem spscRingCreate_eq_some {alignedAlloc : Bool} {malloc : Size → Option (ℕ → Byte)}
    {capacity elemSize : Size} {r : SpscRing}
    (h : spscRingCreate alignedAlloc malloc capacity elemSize = some r) :
    capacity ≠ 0 ∧ capacity &&& (capacity - 1) = 0 ∧ elemSize ≠ 0 ∧
      ∃ buf, malloc (capacity * elemSize) = some buf ∧
        r = ⟨capacity, capacity - 1, elemSize, buf, capacity * elemSize, 0, 0, 0, 0⟩ := by
  unfold spscRingCreate at h
  split at h
  · cases h
  · split at h
    · cases h
    · rename_i hargs _
      push Not at hargs
      obtain ⟨hcap, hpow, hsize⟩ := hargs
      obtain ⟨buf, hbuf, rfl⟩ := Option.map_eq_some_iff.mp h
      exact ⟨hcap, hpow, hsize, buf, hbuf, rfl⟩

theorem spscRingCreate_indices {alignedAlloc : Bool} {malloc : Size → Option (ℕ → Byte)}
    {capacity elemSize : Size} {r : SpscRing}
    (h : spscRingCreate alignedAlloc malloc capacity elemSize = some r) :
    r.head = 0 ∧ r.tail = 0 ∧ r.cachedTail = 0 ∧ r.cachedHead = 0 := by
  obtain ⟨-, -, -, buf, -, rfl⟩ := spscRingCreate_eq_some h
  exact ⟨rfl, rfl, rfl, rfl⟩

theorem spscRingCreate_capacity {alignedAlloc : Bool} {malloc : Size → Option (ℕ → Byte)}
    {capacity elemSize : Size} {r : SpscRing}
    (h : spscRingCreate alignedAlloc malloc capacity elemSize = some r) :
    r.capacity = capacity ∧ r.elementSize = elemSize := by
  obtain ⟨-, -, -, buf, -, rfl⟩ := spscRingCreate_eq_some h
  exact ⟨rfl, rfl⟩

theorem spscRingCreate_wellFormed {alignedAlloc : Bool} {malloc : Size → Option (ℕ → Byte)}
    {capacity elemSize : Size} {r : SpscRing}
    (h : spscRingCreate alignedAlloc malloc capacity elemSize = some r)
    (hfits : capacity.toNat * elemSize.toNat < 2 ^ 64) : r.WellFormed := by
  obtain ⟨hcap, hpow, hsize, buf, -, rfl⟩ := spscRingCreate_eq_some h
  refine ⟨isPowerOfTwo_of_and_sub_one hcap hpow, rfl, Nat.pos_of_ne_zero fun h0 => ?_, hfits⟩
  exact hsize (BitVec.eq_of_toNat_eq (by simpa [SpscRing.esize] using h0))

/-! ### Copies between the ring and a caller -/

/-- One `memcpy` between the ring's buffer and a caller's: the offset into
either and the length. -/
structure Memcpy where
  ring : ℕ
  user : ℕ
  len : ℕ
  deriving DecidableEq, Repr

/-- The bytes a `memcpy` moves, as pairs of an offset into the ring's buffer and
one into the caller's. -/
def Memcpy.bytes (m : Memcpy) : List (ℕ × ℕ) :=
  (List.range m.len).map fun j => (m.ring + j, m.user + j)

def moves (ms : List Memcpy) : List (ℕ × ℕ) := ms.flatMap Memcpy.bytes

namespace SpscRing

/-- The copy of `spsc_ring_push` and `spsc_ring_pop`. -/
def slotCopies (r : SpscRing) (index : Size) : List Memcpy :=
  [⟨(r.addressOfIndex index).toNat, 0, r.elementSize.toNat⟩]

/-- The one or two copies of `spsc_ring_push_n` and `spsc_ring_pop_n`: up to the
end of the buffer, and the rest from its start. -/
def batchCopies (r : SpscRing) (index n : Size) : List Memcpy :=
  let idx := index &&& r.mask
  let first := if r.capacity - idx > n then n else r.capacity - idx
  ⟨(idx * r.elementSize).toNat, 0, (first * r.elementSize).toNat⟩ ::
    if n > first then
      [⟨0, (first * r.elementSize).toNat, ((n - first) * r.elementSize).toNat⟩]
    else []

end SpscRing

/-! ### Progress of a transfer

A transfer of `total` bytes that starts at byte `base` of the endless stream
puts byte `b` at offset `(base + b) % size` of the ring. -/

/-- `ms` is what is left of a transfer of `total` bytes once `b` of them have
been moved. -/
structure Pending (size base b total : ℕ) (ms : List Memcpy) : Prop where
  le : b ≤ total
  moves_eq : moves ms =
    (List.range' b (total - b)).map fun x => ((base + x) % size, x)

@[simp] theorem moves_nil : moves [] = [] := rfl

@[simp] theorem moves_cons (m : Memcpy) (ms : List Memcpy) :
    moves (m :: ms) = m.bytes ++ moves ms := rfl

@[simp] theorem bytes_zero (r u : ℕ) : Memcpy.bytes ⟨r, u, 0⟩ = [] := rfl

theorem bytes_succ (r u l : ℕ) :
    Memcpy.bytes ⟨r, u, l + 1⟩ = (r, u) :: Memcpy.bytes ⟨r + 1, u + 1, l⟩ := by
  simp [Memcpy.bytes, List.range_succ_eq_map, Function.comp_def, Nat.add_right_comm, Nat.add_assoc]

theorem Pending.nil {size base b total : ℕ} (h : Pending size base b total []) : b = total := by
  have hlen := congrArg List.length h.moves_eq
  simp at hlen
  have := h.le
  omega

theorem Pending.drop {size base b total r u : ℕ} {ms : List Memcpy}
    (h : Pending size base b total (⟨r, u, 0⟩ :: ms)) : Pending size base b total ms :=
  ⟨h.le, by simpa using h.moves_eq⟩

theorem Pending.next {size base b total r u l : ℕ} {ms : List Memcpy}
    (h : Pending size base b total (⟨r, u, l + 1⟩ :: ms)) :
    b < total ∧ r = (base + b) % size ∧ u = b ∧
      Pending size base (b + 1) total (⟨r + 1, u + 1, l⟩ :: ms) := by
  have heq := h.moves_eq
  rw [moves_cons, bytes_succ] at heq
  have hlt : b < total := by
    rcases Nat.lt_or_ge b total with hlt | hge
    · exact hlt
    · rw [Nat.sub_eq_zero_of_le hge] at heq
      simp at heq
  rw [show total - b = total - (b + 1) + 1 by omega, List.range'_succ, List.map_cons,
    List.cons_append, List.cons.injEq, Prod.mk.injEq] at heq
  obtain ⟨⟨hr, hu⟩, hrest⟩ := heq
  exact ⟨hlt, hr, hu, hlt, by rw [moves_cons]; exact hrest⟩

theorem bytes_eq_range' {size base b l : ℕ} (h : (base + b) % size + l ≤ size) :
    Memcpy.bytes ⟨(base + b) % size, b, l⟩ =
      (List.range' b l).map fun x => ((base + x) % size, x) := by
  refine List.ext_getElem (by simp [Memcpy.bytes]) fun j h₁ _ => ?_
  simp only [Memcpy.bytes, List.length_map, List.length_range] at h₁
  simp only [Memcpy.bytes, List.getElem_map, List.getElem_range, List.getElem_range', one_mul,
    Prod.mk.injEq, and_true]
  rw [← Nat.add_assoc, Nat.add_mod (base + b) j, Nat.mod_eq_of_lt (show j < size by omega),
    Nat.mod_eq_of_lt (show (base + b) % size + j < size by omega)]

namespace SpscRing

variable {r : SpscRing}

def size (r : SpscRing) : ℕ := r.cap * r.esize

namespace Masked

theorem cap_pos (h : r.Masked) : 0 < r.cap := Nat.pos_of_isPowerOfTwo h.capacity

theorem toNat_and_mask (h : r.Masked) (m : ℕ) :
    (BitVec.ofNat 64 m &&& r.mask).toNat = m % r.cap := by
  rw [h.mask, toNat_ofNat_and_sub_one h.capacity]
  rfl

theorem toNat_room (h : r.Masked) (m : ℕ) :
    (r.capacity - (BitVec.ofNat 64 m &&& r.mask)).toNat = r.cap - m % r.cap := by
  have hidx := h.toNat_and_mask m
  have hlt : m % r.cap < r.cap := Nat.mod_lt m h.cap_pos
  rw [BitVec.toNat_sub_of_le (by rw [BitVec.le_def, hidx]; exact hlt.le), hidx]
  rfl

theorem toNat_rest (h : r.Masked) (m : ℕ) {n : Size} (hwrap : r.cap - m % r.cap ≤ n.toNat) :
    (n - (r.capacity - (BitVec.ofNat 64 m &&& r.mask))).toNat =
      n.toNat - (r.cap - m % r.cap) := by
  have hroom := h.toNat_room m
  rw [BitVec.toNat_sub_of_le (by rw [BitVec.le_def, hroom]; exact hwrap), hroom]

end Masked

theorem WellFormed.cap_pos (h : r.WellFormed) : 0 < r.cap := h.masked.cap_pos

/-- A count of slots within the ring has a byte count that does not wrap. -/
theorem WellFormed.toNat_mul (h : r.WellFormed) {x : Size} (hx : x.toNat ≤ r.cap) :
    (x * r.elementSize).toNat = x.toNat * r.esize := by
  have hle : x.toNat * r.esize ≤ r.cap * r.esize := Nat.mul_le_mul_right _ hx
  rw [BitVec.toNat_mul]
  exact Nat.mod_eq_of_lt (hle.trans_lt h.fits)

theorem mul_esize_mod (r : SpscRing) (n : ℕ) :
    n * r.esize % r.size = n % r.cap * r.esize :=
  Nat.mul_mod_mul_right r.esize n r.cap

theorem slots_le_size (r : SpscRing) {i l : ℕ} (h : i + l ≤ r.cap) :
    i * r.esize + l * r.esize ≤ r.size := by
  rw [← Nat.add_mul]
  exact Nat.mul_le_mul_right _ h

theorem WellFormed.pending_slot (h : r.WellFormed) (m : ℕ) :
    Pending r.size (m * r.esize) 0 r.esize (r.slotCopies (BitVec.ofNat 64 m)) := by
  have hidx : m % r.cap < r.cap := Nat.mod_lt m h.cap_pos
  have hoff : (r.addressOfIndex (BitVec.ofNat 64 m)).toNat = (m * r.esize + 0) % r.size := by
    rw [Nat.add_zero, mul_esize_mod, addressOfIndex, h.toNat_mul, h.masked.toNat_and_mask]
    rw [h.masked.toNat_and_mask]
    exact hidx.le
  refine ⟨Nat.zero_le _, ?_⟩
  rw [slotCopies, moves_cons, moves_nil, List.append_nil, hoff]
  refine bytes_eq_range' ?_
  rw [Nat.add_zero, mul_esize_mod]
  simpa [esize] using r.slots_le_size (l := 1) hidx

theorem WellFormed.pending_batch (h : r.WellFormed) (m : ℕ) {n : Size} (hn : n.toNat ≤ r.cap) :
    Pending r.size (m * r.esize) 0 (n.toNat * r.esize)
      (r.batchCopies (BitVec.ofNat 64 m) n) := by
  have hidx : m % r.cap < r.cap := Nat.mod_lt m h.cap_pos
  have hidx' := h.masked.toNat_and_mask m
  have hroom := h.masked.toNat_room m
  -- the run of slots up to the end of the buffer starts at the transfer's own offset
  have hoff : ((BitVec.ofNat 64 m &&& r.mask) * r.elementSize).toNat =
      (m * r.esize + 0) % r.size := by
    rw [Nat.add_zero, mul_esize_mod, h.toNat_mul (by rw [hidx']; exact hidx.le), hidx']
  have hfirst {l : ℕ} (hl : m % r.cap + l ≤ r.cap) :
      Memcpy.bytes ⟨(m * r.esize + 0) % r.size, 0, l * r.esize⟩ =
        (List.range' 0 (l * r.esize)).map fun x => ((m * r.esize + x) % r.size, x) := by
    refine bytes_eq_range' ?_
    rw [Nat.add_zero, mul_esize_mod]
    exact r.slots_le_size hl
  refine ⟨Nat.zero_le _, ?_⟩
  simp only [batchCopies, moves_cons, hoff, gt_iff_lt, BitVec.lt_def, hroom]
  by_cases hfit : n.toNat < r.cap - m % r.cap
  · -- the batch ends before the end of the buffer
    simp only [hfit, if_true, lt_irrefl, if_false, moves_nil, List.append_nil, h.toNat_mul hn]
    exact hfirst (by omega)
  · simp only [hfit, if_false, hroom]
    rw [h.toNat_mul (by rw [hroom]; omega), hroom, hfirst (by omega)]
    by_cases hwrap : r.cap - m % r.cap < n.toNat
    · -- the second piece starts a new lap, at offset 0
      have hsub := h.masked.toNat_rest m hwrap.le
      have hlap : (m * r.esize + (r.cap - m % r.cap) * r.esize) % r.size = 0 := by
        rw [← Nat.add_mul, mul_esize_mod, add_sub_mod_mod h.cap_pos, Nat.zero_mul]
      have hsecond : Memcpy.bytes ⟨0, (r.cap - m % r.cap) * r.esize,
            (n.toNat - (r.cap - m % r.cap)) * r.esize⟩ =
          (List.range' ((r.cap - m % r.cap) * r.esize)
            ((n.toNat - (r.cap - m % r.cap)) * r.esize)).map
              fun x => ((m * r.esize + x) % r.size, x) := by
        have hbytes := @bytes_eq_range' r.size (m * r.esize) ((r.cap - m % r.cap) * r.esize)
          ((n.toNat - (r.cap - m % r.cap)) * r.esize) (by
            rw [hlap]
            simpa using r.slots_le_size (i := 0) (show 0 + _ ≤ r.cap by omega))
        rwa [hlap] at hbytes
      rw [if_pos hwrap, moves_cons, moves_nil, List.append_nil, h.toNat_mul (by rw [hsub]; omega),
        hsub, hsecond, ← List.map_append]
      congr 1
      have happ := @List.range'_append 0 ((r.cap - m % r.cap) * r.esize)
        ((n.toNat - (r.cap - m % r.cap)) * r.esize) 1
      rw [Nat.one_mul, Nat.zero_add, ← Nat.add_mul] at happ
      rw [happ, Nat.sub_zero]
      congr 2
      omega
    · have heq : n.toNat = r.cap - m % r.cap := by omega
      rw [if_neg hwrap, moves_nil, List.append_nil, heq, Nat.sub_zero]

end SpscRing

end SystemsPrep.Spsc
