import Mathlib.Algebra.BigOperators.Group.Finset.Basic
import Mathlib.Order.Interval.Finset.Nat
import SystemsPrep.Spsc.Contents
import SystemsPrep.Spsc.Ownership

/-!
Does the buffer of an SPSC ring hold all its slots?

`spsc_ring_create` allocates `capacity * elem_size` bytes, a product that is taken
modulo `2 ^ 64` and is never compared with its factors. Nothing else in the ring looks at
the size of the buffer, so the accesses stay inside it exactly when the product does not
wrap: ranges of `elem_size` bytes that are apart and inside the buffer cannot take up more
than the buffer has.
-/

namespace SystemsPrep.Spsc

open Base

def Producer.accesses : Producer → List ℕ
  | .copy _ _ _ ms => (moves ms).map Prod.fst
  | _ => []

def Consumer.accesses : Consumer → List ℕ
  | .copy _ _ _ ms _ => (moves ms).map Prod.fst
  | _ => []

def World.accesses (w : World) : List ℕ := w.producer.accesses ++ w.consumer.accesses

def SpscRing.slotBytes (r : SpscRing) (i : ℕ) : Finset ℕ :=
  Finset.Ico (r.addressOfIndex (BitVec.ofNat 64 i)).toNat
    ((r.addressOfIndex (BitVec.ofNat 64 i)).toNat + r.esize)

/-- Whatever is called on a new ring, no call leaves its buffer, and no two slots share a
byte. -/
structure SpscRing.Covers (r : SpscRing) : Prop where
  accesses : ∀ as w, exec step (World.start r) as = some w →
    ∀ o ∈ w.accesses, o < r.bufSize.toNat
  slots : ∀ i < r.cap, ∀ j < r.cap, i ≠ j → Disjoint (r.slotBytes i) (r.slotBytes j)

/-! ### A product that does not wrap -/

theorem Pending.lt_size {size base b total : ℕ} {ms : List Memcpy} (hsize : 0 < size)
    (h : Pending size base b total ms) {o : ℕ} (ho : o ∈ (moves ms).map Prod.fst) : o < size := by
  rw [h.moves_eq, List.map_map, List.mem_map] at ho
  obtain ⟨x, -, rfl⟩ := ho
  exact Nat.mod_lt _ hsize

theorem SpscRing.WellFormed.size_pos {r : SpscRing} (h : r.WellFormed) : 0 < r.size :=
  Nat.mul_pos h.cap_pos h.esize_pos

theorem Contents.accesses_lt {w : World} (h : Contents w) {o : ℕ} (ho : o ∈ w.accesses) :
    o < w.ring.size := by
  have hpos := h.ring.size_pos
  have hp := h.producer
  have hc := h.consumer
  rcases List.mem_append.mp ho with ho | ho
  · cases hprod : w.producer with
    | copy c head n ms =>
        rw [hprod] at hp ho
        obtain ⟨b, hpend, -⟩ := hp
        exact hpend.lt_size hpos ho
    | _ => rw [hprod] at ho; cases ho
  · cases hcons : w.consumer with
    | copy c tail n ms out =>
        rw [hcons] at hc ho
        obtain ⟨b, hpend, -⟩ := hc
        exact hpend.lt_size hpos ho
    | _ => rw [hcons] at ho; cases ho

theorem SpscRing.WellFormed.toNat_addressOfIndex {r : SpscRing} (h : r.WellFormed) {i : ℕ}
    (hi : i < r.cap) : (r.addressOfIndex (BitVec.ofNat 64 i)).toNat = i * r.esize := by
  have hmask := h.masked.toNat_and_mask i
  rw [Nat.mod_eq_of_lt hi] at hmask
  rw [addressOfIndex, h.toNat_mul (by rw [hmask]; exact hi.le), hmask]

theorem SpscRing.WellFormed.disjoint_slots {r : SpscRing} (h : r.WellFormed) {i j : ℕ}
    (hi : i < r.cap) (hj : j < r.cap) (hne : i ≠ j) :
    Disjoint (r.slotBytes i) (r.slotBytes j) := by
  rw [slotBytes, slotBytes, h.toNat_addressOfIndex hi, h.toNat_addressOfIndex hj,
    Finset.disjoint_left]
  intro o ho ho'
  rw [Finset.mem_Ico, ← Nat.succ_mul] at ho ho'
  have hij : i < j + 1 := Nat.lt_of_mul_lt_mul_right (ho.1.trans_lt ho'.2)
  have hji : j < i + 1 := Nat.lt_of_mul_lt_mul_right (ho'.1.trans_lt ho.2)
  omega

/-! ### A run to any slot

Single pushes from the first on: push number `i` writes slot `i`. -/

section Reaching

variable {r : SpscRing} {w : World}

/-- What is left of a transfer can always be copied. -/
theorem copy_completes (c : PushCall) (head n : Size) (ms : List Memcpy) :
    ∀ w : World, w.producer = .copy c head n ms → ∃ as buf,
      exec step w as =
        some { w with ring := { w.ring with buf := buf }, producer := .copy c head n [] } := by
  induction ms with
  | nil =>
      intro w hp
      refine ⟨[], w.ring.buf, ?_⟩
      rw [← hp]
      rfl
  | cons m ms ih =>
      obtain ⟨o, u, l⟩ := m
      induction l generalizing o u with
      | zero =>
          intro w hp
          obtain ⟨as, buf, has⟩ := ih { w with producer := .copy c head n ms } rfl
          refine ⟨.producer 0 :: as, buf, exec_cons_eq_some.mpr ⟨_, ?_, has⟩⟩
          simp only [step, producerStep, hp]
      | succ l ihl =>
          intro w hp
          obtain ⟨as, buf, has⟩ := ihl (o + 1) (u + 1)
            { w with
              ring := { w.ring with buf := Function.update w.ring.buf o (c.source u) }
              producer := .copy c head n (⟨o + 1, u + 1, l⟩ :: ms) } rfl
          refine ⟨.producer 0 :: as, buf, exec_cons_eq_some.mpr ⟨_, ?_, has⟩⟩
          simp only [step, producerStep, hp]

/-- `i` elements have been pushed one by one and the producer is between calls. -/
structure Filled (r : SpscRing) (i : ℕ) (w : World) : Prop where
  between : w.producer = .idle ∨ ∃ c ret, w.producer = .returned c ret
  layout : r.SameLayout w.ring
  head : w.ring.head = BitVec.ofNat 64 i
  cachedTail : w.ring.cachedTail = 0

theorem Filled.push {i : ℕ} (h : Filled r i w) (hi : i < r.cap) (e : ℕ → Byte) :
    exec step w [.push (.push e), .producer 0, .producer 0] =
      some { w with
        producer := .copy (.push e) (BitVec.ofNat 64 i) 1
          (w.ring.slotCopies (BitVec.ofNat 64 i)) } := by
  have henter : enterPush w (.push e) = some { w with producer := .loadHead (.push e) } := by
    rcases h.between with hp | ⟨c, ret, hp⟩
    · rw [enterPush, hp]
    · rw [enterPush, hp]
  have hroom : ¬ w.ring.capacity ≤ BitVec.ofNat 64 i - w.ring.cachedTail := by
    have hcap : r.cap < 2 ^ 64 := r.cap_lt
    have hsub : BitVec.ofNat 64 i - 0 = BitVec.ofNat 64 i := BitVec.sub_zero _
    rw [h.cachedTail, hsub, h.layout.capacity, BitVec.le_def, BitVec.toNat_ofNat,
      Nat.mod_eq_of_lt (by omega)]
    exact Nat.not_le.mpr hi
  refine exec_cons_eq_some.mpr ⟨_, henter, exec_cons_eq_some.mpr ⟨_, rfl, ?_⟩⟩
  refine exec_cons_eq_some.mpr ⟨_, rfl, ?_⟩
  simp only [SpscRing.pushCheckCached, h.head, if_neg hroom, exec_nil]

theorem Filled.succ {i : ℕ} (h : Filled r i w) (hi : i < r.cap) :
    ∃ as w', exec step w as = some w' ∧ Filled r (i + 1) w' := by
  obtain ⟨as, buf, has⟩ := copy_completes _ _ _ _ _
    (show World.producer { w with
      producer := .copy (.push fun _ => 0) (BitVec.ofNat 64 i) 1
        (w.ring.slotCopies (BitVec.ofNat 64 i)) } = _ from rfl)
  refine ⟨[.push (.push fun _ => 0), .producer 0, .producer 0] ++ (as ++ [.producer 0]), _,
    exec_append_eq_some.mpr ⟨_, h.push hi _, exec_concat_eq_some.mpr ⟨_, has, rfl⟩⟩, ?_⟩
  exact
    { between := Or.inr ⟨_, _, rfl⟩
      layout := h.layout.trans ⟨rfl, rfl, rfl, rfl⟩
      head := (ofNat_succ i).symm
      cachedTail := h.cachedTail }

theorem filled_of_le {alignedAlloc : Bool} {malloc : Size → Option (ℕ → Byte)}
    {capacity elemSize : Size}
    (hr : spscRingCreate alignedAlloc malloc capacity elemSize = some r) {i : ℕ}
    (hi : i ≤ r.cap) : ∃ as w, exec step (World.start r) as = some w ∧ Filled r i w := by
  induction i with
  | zero =>
      obtain ⟨hhead, -, hcached, -⟩ := spscRingCreate_indices hr
      exact ⟨[], _, rfl, Or.inl rfl, .refl r, hhead, hcached⟩
  | succ i ih =>
      obtain ⟨as, w, has, h⟩ := ih (by omega)
      obtain ⟨bs, w', hbs, h'⟩ := h.succ hi
      exact ⟨as ++ bs, w', exec_append_eq_some.mpr ⟨w, has, hbs⟩, h'⟩

theorem accesses_of_slot {alignedAlloc : Bool} {malloc : Size → Option (ℕ → Byte)}
    {capacity elemSize : Size}
    (hr : spscRingCreate alignedAlloc malloc capacity elemSize = some r) {i o : ℕ}
    (hi : i < r.cap) (ho : o ∈ r.slotBytes i) :
    ∃ as w, exec step (World.start r) as = some w ∧ o ∈ w.accesses := by
  obtain ⟨as, w, has, h⟩ := filled_of_le hr hi.le
  refine ⟨_, _, exec_append_eq_some.mpr ⟨w, has, h.push hi fun _ => 0⟩, ?_⟩
  have hslot : w.ring.addressOfIndex (BitVec.ofNat 64 i) =
      r.addressOfIndex (BitVec.ofNat 64 i) := by
    rw [SpscRing.addressOfIndex, SpscRing.addressOfIndex, h.layout.mask, h.layout.elementSize]
  rw [SpscRing.slotBytes, Finset.mem_Ico] at ho
  refine List.mem_append_left _ ?_
  simp only [Producer.accesses, SpscRing.slotCopies, moves_cons, moves_nil, List.append_nil,
    Memcpy.bytes, List.map_map, List.mem_map, List.mem_range, hslot, h.layout.elementSize]
  refine ⟨o - (r.addressOfIndex (BitVec.ofNat 64 i)).toNat, ?_, ?_⟩
  · change _ < r.esize
    omega
  · exact Nat.add_sub_cancel' ho.1

end Reaching

/-- Ranges of `len` bytes that lie in a block and are apart take up no more than the block
has. -/
theorem mul_le_of_disjoint {n len size : ℕ} {start : ℕ → ℕ}
    (hin : ∀ i < n, ∀ o ∈ Finset.Ico (start i) (start i + len), o < size)
    (hdisj : ∀ i < n, ∀ j < n, i ≠ j →
      Disjoint (Finset.Ico (start i) (start i + len)) (Finset.Ico (start j) (start j + len))) :
    n * len ≤ size := by
  have hsub : (Finset.range n).biUnion (fun i => Finset.Ico (start i) (start i + len)) ⊆
      Finset.range size := by
    intro o ho
    obtain ⟨i, hi, ho⟩ := Finset.mem_biUnion.mp ho
    exact Finset.mem_range.mpr (hin i (Finset.mem_range.mp hi) o ho)
  have hcard := Finset.card_le_card hsub
  rw [Finset.card_biUnion fun i hi j hj hne =>
    hdisj i (Finset.mem_range.mp hi) j (Finset.mem_range.mp hj) hne] at hcard
  simpa using hcard

/-- **The buffer covers every access** of a ring that was created if and only if the product
of capacity and element size fits into a `size_t`, which `spsc_ring_create` does not check. -/
theorem covers_iff_fits {alignedAlloc : Bool} {malloc : Size → Option (ℕ → Byte)}
    {capacity elemSize : Size} {r : SpscRing}
    (hr : spscRingCreate alignedAlloc malloc capacity elemSize = some r) :
    r.Covers ↔ capacity.toNat * elemSize.toNat < 2 ^ 64 := by
  obtain ⟨-, -, -, buf, -, hring⟩ := spscRingCreate_eq_some hr
  have hcap : r.cap = capacity.toNat := by rw [hring]; rfl
  have hesize : r.esize = elemSize.toNat := by rw [hring]; rfl
  have hbuf : r.bufSize.toNat = capacity.toNat * elemSize.toNat % 2 ^ 64 := by
    rw [hring]
    exact BitVec.toNat_mul ..
  constructor
  · intro h
    have hle := mul_le_of_disjoint (n := r.cap) (fun i hi o ho => by
      obtain ⟨as, w, hw, ho'⟩ := accesses_of_slot hr hi ho
      exact h.accesses as w hw o ho') h.slots
    rw [hcap, hesize, hbuf] at hle
    exact hle.trans_lt (Nat.mod_lt _ (by norm_num))
  · intro hfits
    have hwf := spscRingCreate_wellFormed hr hfits
    refine ⟨fun as w hw o ho => ?_, fun i hi j hj hne => hwf.disjoint_slots hi hj hne⟩
    have hlayout : r.SameLayout w.ring := exec_layout hw
    have hsize : w.ring.size = r.bufSize.toNat := by
      rw [hbuf, Nat.mod_eq_of_lt hfits, ← hcap, ← hesize, SpscRing.size, SpscRing.cap,
        SpscRing.esize, hlayout.capacity, hlayout.elementSize]
      rfl
    rw [← hsize]
    exact (contents_exec hr hfits hw).accesses_lt ho

theorem covers_iff_fits_fourEights :
    ∃ r, spscRingCreate true (fun _ => some fun _ => 0) 4 8 = some r ∧ r.Covers :=
  ⟨_, rfl, (@covers_iff_fits true (fun _ => some fun _ => 0) 4 8 _ rfl).mpr (by decide)⟩

/-- `2 ^ 63` slots of two bytes: the product is 0, the ring is created all the same, and the
first byte of the first push is outside its buffer. -/
theorem wrapped_size_overruns :
    ∃ r w, spscRingCreate true (fun _ => some fun _ => 0) 0x8000000000000000 2 = some r ∧
      exec step (World.start r)
        [.push (.push fun _ => 1), .producer 0, .producer 0] = some w ∧
      w.accesses = [0, 1] ∧ r.bufSize = 0 ∧ ¬ r.Covers := by
  refine ⟨_, _, rfl, rfl, rfl, rfl, fun h => ?_⟩
  have hlt := h.accesses [.push (.push fun _ => 1), .producer 0, .producer 0] _ rfl 0
    (List.mem_cons_self ..)
  exact absurd hlt (by decide)

end SystemsPrep.Spsc
