import SystemsPrep.Spsc.Calls
import SystemsPrep.Spsc.Ownership

/-!
Batch calls against single calls, one after the other.

Both move the same bytes in the same order: byte `b` of the elements from the
`m`-th on goes to an address that depends on `m + b / esize` only. The two refresh
the cached index under different conditions, the batch call before it copies and
the single calls when the cache runs out, but in the end they refresh it in the
same states: when more elements are wanted than the cache admits.
-/

namespace SystemsPrep.Spsc

open Base

/-! ### The bytes of consecutive slots -/

theorem copyIn_append (buf e : ℕ → Byte) (ps qs : List (ℕ × ℕ)) :
    copyIn buf e (ps ++ qs) = copyIn (copyIn buf e ps) e qs :=
  List.foldl_append ..

theorem copyIn_shift (buf e : ℕ → Byte) (c : ℕ) (ps : List (ℕ × ℕ)) :
    copyIn buf (fun j => e (c + j)) ps = copyIn buf e (ps.map fun p => (p.1, c + p.2)) := by
  rw [copyIn, copyIn, List.foldl_map]

namespace SpscRing

variable {r : SpscRing}

/-- The address of byte `b` of the elements from the `m`-th on. -/
def byteAt (r : SpscRing) (m b : ℕ) : ℕ :=
  ((m + b / r.esize) % r.cap * r.esize + b % r.esize) % 2 ^ 64

/-- The moves for `n` elements from the `m`-th on. -/
def slotMoves (r : SpscRing) (m n : ℕ) : List (ℕ × ℕ) :=
  (List.range (n * r.esize)).map fun b => (r.byteAt m b, b)

@[simp] theorem slotMoves_zero (r : SpscRing) (m : ℕ) : r.slotMoves m 0 = [] := by
  simp [slotMoves]

theorem byteAt_add (hpos : 0 < r.esize) (m j b : ℕ) :
    r.byteAt m (j * r.esize + b) = r.byteAt (m + j) b := by
  rw [byteAt, byteAt, Nat.add_comm (j * r.esize), Nat.add_mul_div_right _ _ hpos,
    Nat.add_mul_mod_self_right, Nat.add_comm (b / r.esize), Nat.add_assoc]

theorem slotMoves_add (hpos : 0 < r.esize) (m j k : ℕ) :
    r.slotMoves m (j + k) =
      r.slotMoves m j ++ (r.slotMoves (m + j) k).map fun p => (p.1, j * r.esize + p.2) := by
  rw [slotMoves, Nat.add_mul, List.range_add, List.map_append, List.map_map, slotMoves, slotMoves,
    List.map_map]
  refine congrArg (_ ++ ·) (List.map_congr_left fun b _ => ?_)
  simp only [Function.comp_apply, byteAt_add hpos]

theorem wrapped_bytes {m b l : ℕ} (hpos : 0 < r.esize)
    (hend : (m + b) % r.cap + l ≤ r.cap) :
    wrapped (Memcpy.bytes ⟨(m + b) % r.cap * r.esize % 2 ^ 64, b * r.esize, l * r.esize⟩) =
      (r.slotMoves (m + b) l).map fun p => (p.1, b * r.esize + p.2) := by
  rw [wrapped, Memcpy.bytes, slotMoves, List.map_map, List.map_map]
  refine List.map_congr_left fun j hj => ?_
  have hlt : j / r.esize < l := (Nat.div_lt_iff_lt_mul hpos).mpr (List.mem_range.mp hj)
  have hslot : (m + b + j / r.esize) % r.cap = (m + b) % r.cap + j / r.esize := by
    rw [Nat.add_mod, Nat.mod_eq_of_lt (show j / r.esize < r.cap by omega),
      Nat.mod_eq_of_lt (by omega)]
  simp only [Function.comp_apply, byteAt, hslot, Prod.mk.injEq, and_true]
  rw [Nat.mod_add_mod, Nat.add_mul, Nat.add_assoc, Nat.div_add_mod']

theorem toNat_mul_esize {x : Size} (h : x.toNat * r.esize < 2 ^ 64) :
    (x * r.elementSize).toNat = x.toNat * r.esize := by
  rw [BitVec.toNat_mul]
  exact Nat.mod_eq_of_lt h

theorem Masked.toNat_offset (h : r.Masked) (m : ℕ) :
    ((BitVec.ofNat 64 m &&& r.mask) * r.elementSize).toNat = m % r.cap * r.esize % 2 ^ 64 := by
  rw [BitVec.toNat_mul, h.toNat_and_mask]
  rfl

theorem wrapped_slotCopies (h : r.Masked) (hpos : 0 < r.esize) (m : ℕ) :
    wrapped (moves (r.slotCopies (BitVec.ofNat 64 m))) = r.slotMoves m 1 := by
  have hidx : m % r.cap < r.cap := Nat.mod_lt m h.cap_pos
  have hbytes := wrapped_bytes (m := m) (b := 0) (l := 1) hpos hidx
  rw [slotCopies, moves_cons, moves_nil, List.append_nil, addressOfIndex, h.toNat_offset]
  simpa [esize] using hbytes

/-- What the copies of a batch call move. -/
theorem wrapped_batchCopies (h : r.Masked) (hpos : 0 < r.esize) (m : ℕ) {n : Size}
    (hn : n.toNat ≤ r.cap) (hlen : n.toNat * r.esize < 2 ^ 64) :
    wrapped (moves (r.batchCopies (BitVec.ofNat 64 m) n)) = r.slotMoves m n.toNat := by
  have hidx : m % r.cap < r.cap := Nat.mod_lt m h.cap_pos
  have hroom := h.toNat_room m
  have hfirst {l : ℕ} (hl : m % r.cap + l ≤ r.cap) :
      wrapped (Memcpy.bytes ⟨m % r.cap * r.esize % 2 ^ 64, 0, l * r.esize⟩) = r.slotMoves m l := by
    have hbytes := wrapped_bytes (m := m) (b := 0) (l := l) hpos hl
    simpa using hbytes
  simp only [batchCopies, moves_cons, h.toNat_offset, gt_iff_lt, BitVec.lt_def, hroom]
  by_cases hfit : n.toNat < r.cap - m % r.cap
  · -- the batch ends before the end of the buffer
    simp only [hfit, if_true, lt_irrefl, if_false, moves_nil, List.append_nil,
      toNat_mul_esize hlen]
    exact hfirst (by omega)
  · have hle : (r.cap - m % r.cap) * r.esize ≤ n.toNat * r.esize :=
      Nat.mul_le_mul_right _ (by omega)
    simp only [hfit, if_false, hroom]
    rw [toNat_mul_esize (by rw [hroom]; omega), hroom]
    by_cases hwrap : r.cap - m % r.cap < n.toNat
    · -- the second piece starts a new lap
      have hsub := h.toNat_rest m hwrap.le
      have hlap : (m + (r.cap - m % r.cap)) % r.cap = 0 := by
        rw [add_sub_mod_mod h.cap_pos]
      have hrest := wrapped_bytes (m := m) (b := r.cap - m % r.cap)
        (l := n.toNat - (r.cap - m % r.cap)) hpos (by omega)
      rw [hlap, Nat.zero_mul, Nat.zero_mod] at hrest
      have hsplit : n.toNat = r.cap - m % r.cap + (n.toNat - (r.cap - m % r.cap)) := by omega
      have hlen' : (n - (r.capacity - (BitVec.ofNat 64 m &&& r.mask))).toNat * r.esize < 2 ^ 64 :=
        (Nat.mul_le_mul_right _ (by rw [hsub]; omega)).trans_lt hlen
      rw [if_pos hwrap, moves_cons, moves_nil, List.append_nil, toNat_mul_esize hlen', hsub,
        wrapped, List.map_append, ← wrapped, ← wrapped, hfirst (by omega), hrest]
      conv_rhs => rw [hsplit]
      exact (slotMoves_add hpos m _ _).symm
    · -- the batch ends with the buffer, and the second piece is empty
      have heq : n.toNat = r.cap - m % r.cap := by omega
      rw [if_neg hwrap, moves_nil, List.append_nil, heq]
      exact hfirst (by omega)

/-! ### The producer -/

/-- The producer's side of a ring: `H` elements published, and room as if only `ct`
of them had been consumed. -/
structure ProducerView (r : SpscRing) (H ct : ℕ) : Prop where
  head : r.head = BitVec.ofNat 64 H
  cachedTail : r.cachedTail = BitVec.ofNat 64 ct
  le : ct ≤ H
  room : H ≤ ct + r.cap

/-- The ring once `k` elements of a caller's array have been pushed. -/
def pushed (r : SpscRing) (H : ℕ) (e : ℕ → Byte) (k : ℕ) : SpscRing :=
  { r with
    buf := copyIn r.buf e (r.slotMoves H k)
    head := r.head + BitVec.ofNat 64 k }

def refreshTail (r : SpscRing) : SpscRing := { r with cachedTail := r.tail }

theorem refreshTail_of_fresh (h : r.cachedTail = r.tail) : r.refreshTail = r := by
  cases r
  dsimp only at h
  rw [refreshTail, h]

@[simp] theorem pushed_zero (r : SpscRing) (H : ℕ) (e : ℕ → Byte) : r.pushed H e 0 = r := by
  simp [pushed, copyIn]

@[simp] theorem esize_pushed (r : SpscRing) (H : ℕ) (e : ℕ → Byte) (k : ℕ) :
    (r.pushed H e k).esize = r.esize := rfl

@[simp] theorem cap_pushed (r : SpscRing) (H : ℕ) (e : ℕ → Byte) (k : ℕ) :
    (r.pushed H e k).cap = r.cap := rfl

theorem refreshTail_pushed (r : SpscRing) (H : ℕ) (e : ℕ → Byte) (k : ℕ) :
    (r.pushed H e k).refreshTail = r.refreshTail.pushed H e k := rfl

theorem pushed_pushed (hpos : 0 < r.esize) (H : ℕ) (e : ℕ → Byte) (j k : ℕ) :
    (r.pushed H e j).pushed (H + j) (fun i => e (j * r.esize + i)) k = r.pushed H e (j + k) := by
  simp only [pushed, slotMoves_add hpos, copyIn_append, copyIn_shift, BitVec.ofNat_add,
    BitVec.add_assoc]
  rfl

theorem Masked.pushed (h : r.Masked) (H : ℕ) (e : ℕ → Byte) (k : ℕ) : (r.pushed H e k).Masked :=
  ⟨h.capacity, h.mask⟩

theorem Masked.refreshTail (h : r.Masked) : r.refreshTail.Masked := ⟨h.capacity, h.mask⟩

namespace ProducerView

variable {H ct : ℕ}

theorem toNat_sub (h : ProducerView r H ct) : (r.head - r.cachedTail).toNat = H - ct := by
  have := r.cap_lt
  have := h.room
  rw [h.head, h.cachedTail, toNat_ofNat_sub h.le (by omega)]

theorem capacity_le_iff (h : ProducerView r H ct) :
    r.capacity ≤ r.head - r.cachedTail ↔ H = ct + r.cap := by
  have := h.room
  have := h.le
  rw [BitVec.le_def, h.toNat_sub]
  change r.cap ≤ _ ↔ _
  omega

theorem toNat_remaining (h : ProducerView r H ct) :
    (r.remaining r.head).toNat = ct + r.cap - H := by
  have := h.room
  have := h.le
  have hsub := h.toNat_sub
  rw [remaining, BitVec.toNat_sub_of_le, hsub]
  · change r.cap - _ = _
    omega
  · rw [BitVec.le_def, hsub]
    change _ ≤ r.cap
    omega

theorem pushed (h : ProducerView r H ct) {k : ℕ} (hk : H + k ≤ ct + r.cap) (e : ℕ → Byte) :
    ProducerView (r.pushed H e k) (H + k) ct where
  head := by rw [SpscRing.pushed, h.head, BitVec.ofNat_add]
  cachedTail := h.cachedTail
  le := h.le.trans (Nat.le_add_right H k)
  room := hk

end ProducerView

theorem push_of_room {H ct : ℕ} (h : ProducerView r H ct) (hr : r.Masked) (hpos : 0 < r.esize)
    (hroom : H < ct + r.cap) (e : ℕ → Byte) : r.push e = (r.pushed H e 1, 0) := by
  have hslot : r.pushSlot e = r.pushed H e 1 := by
    rw [pushSlot, pushed, h.head, wrapped_slotCopies hr hpos]
    rfl
  rw [push, if_neg (mt h.capacity_le_iff.mp hroom.ne), hslot]

theorem push_refreshTail {H ct : ℕ} (h : ProducerView r H ct) (hfull : H = ct + r.cap)
    (e : ℕ → Byte) : r.push e = r.refreshTail.push e := by
  rw [push, if_pos (h.capacity_le_iff.mpr hfull), push]
  simp only [refreshTail]
  split <;> rename_i htest <;> simp [htest]

theorem push_of_full {H ct : ℕ} (h : ProducerView r H ct) (hfull : H = ct + r.cap)
    (hfresh : r.cachedTail = r.tail) (e : ℕ → Byte) : r.push e = (r, -1) := by
  have htest := h.capacity_le_iff.mpr hfull
  have hsame : { r with cachedTail := r.tail } = r := refreshTail_of_fresh hfresh
  rw [push, if_pos htest, hsame]
  exact if_pos htest

theorem pushEach_eq {H ct n : ℕ} (h : ProducerView r H ct) (hr : r.Masked) (hpos : 0 < r.esize)
    (hn : H + n ≤ ct + r.cap ∨ r.cachedTail = r.tail) (e : ℕ → Byte) :
    pushEach n r e =
      (r.pushed H e (min n (ct + r.cap - H)), min n (ct + r.cap - H)) := by
  induction n generalizing r H e with
  | zero => rw [Nat.zero_min, pushed_zero, pushEach]
  | succ n ih =>
      rcases h.room.lt_or_eq with hroom | hfull
      · have hnext := ih (r := r.pushed H e 1) (h.pushed hroom e) (hr.pushed H e 1) hpos
          (hn.imp (fun hle => by rw [cap_pushed]; omega) id) fun j => e (r.esize + j)
        have hmin : min (n + 1) (ct + r.cap - H) = 1 + min n (ct + r.cap - (H + 1)) := by omega
        have hboth := r.pushed_pushed hpos H e 1 (min n (ct + r.cap - (H + 1)))
        rw [Nat.one_mul] at hboth
        rw [pushEach, push_of_room h hr hpos hroom]
        simp only [if_true]
        rw [hnext, cap_pushed, hboth, hmin, Nat.add_comm 1]
      · have hfresh := hn.resolve_left (by omega)
        rw [pushEach, push_of_full h hfull hfresh]
        simp only [show ¬ (-1 : Int) = 0 by decide, if_false]
        rw [hfull, Nat.sub_self, Nat.min_zero, pushed_zero]

theorem pushEach_refreshTail {H ct T n : ℕ} (h : ProducerView r H ct) (hr : r.Masked)
    (hpos : 0 < r.esize) (hfresh : ProducerView r.refreshTail H T) (hle : ct ≤ T)
    (hn : ct + r.cap < H + n) (e : ℕ → Byte) :
    pushEach n r e = pushEach n r.refreshTail e := by
  induction n generalizing r H e with
  | zero => exact absurd h.room (by omega)
  | succ n ih =>
      rcases h.room.lt_or_eq with hroom | hfull
      · have hroom' : H < T + r.refreshTail.cap := hroom.trans_le (Nat.add_le_add_right hle _)
        have hnext := ih (r := r.pushed H e 1) (h.pushed hroom e) (hr.pushed H e 1) hpos
          (hfresh.pushed hroom' e) (by rw [cap_pushed]; omega) fun j => e (r.esize + j)
        rw [refreshTail_pushed] at hnext
        rw [pushEach, pushEach, push_of_room h hr hpos hroom,
          push_of_room hfresh hr.refreshTail hpos hroom']
        simp only [if_true]
        rw [hnext]
        rfl
      · rw [pushEach, pushEach, push_refreshTail h hfull]
        rfl

theorem pushBatch_eq {H ct : ℕ} (h : ProducerView r H ct) (hr : r.Masked) (hpos : 0 < r.esize)
    {n : Size} (hn : n.toNat ≤ r.cap) (hlen : n.toNat * r.esize < 2 ^ 64) (e : ℕ → Byte) :
    r.pushBatch e n = (r.pushed H e n.toNat, n) := by
  by_cases hzero : n = 0
  · rw [pushBatch, if_pos hzero, hzero, BitVec.ofNat_eq_ofNat, BitVec.toNat_ofNat, Nat.zero_mod,
      pushed_zero]
  · rw [pushBatch, if_neg hzero, pushed, h.head, wrapped_batchCopies hr hpos H hn hlen,
      BitVec.ofNat_toNat, BitVec.setWidth_eq]

/-- **A batch push is single pushes, one after the other.** -/
theorem pushEach_eq_pushN {H ct T : ℕ} {n : Size} (h : ProducerView r H ct) (hr : r.Masked)
    (hpos : 0 < r.esize) (hfresh : ProducerView r.refreshTail H T) (hle : ct ≤ T)
    (hlen : min n.toNat r.cap * r.esize < 2 ^ 64) (e : ℕ → Byte) :
    pushEach n.toNat r e = ((r.pushN e n).1, (r.pushN e n).2.toNat) := by
  have hmul : ∀ k ≤ min n.toNat r.cap, k * r.esize < 2 ^ 64 :=
    fun k hk => (Nat.mul_le_mul_right _ hk).trans_lt hlen
  have hremaining := h.toNat_remaining
  by_cases hlt : r.remaining r.head < n
  · have hremaining' := hfresh.toNat_remaining
    have hmore := BitVec.lt_def.mp hlt
    have hcap : r.refreshTail.cap = r.cap := rfl
    have := hfresh.le
    have hcount : (if r.refreshTail.remaining r.refreshTail.head < n then
        r.refreshTail.remaining r.refreshTail.head else n).toNat =
          min n.toNat (T + r.cap - H) := by
      split <;> rename_i htest <;> rw [BitVec.lt_def, hremaining', hcap] at htest <;> omega
    have hbatch : r.pushN e n = r.refreshTail.pushBatch e
        (if r.refreshTail.remaining r.refreshTail.head < n then
          r.refreshTail.remaining r.refreshTail.head else n) := if_pos hlt
    rw [hbatch, pushBatch_eq hfresh hr.refreshTail hpos (by rw [hcount, hcap]; omega)
        (by rw [hcount]; exact hmul _ (by omega)), hcount,
      pushEach_refreshTail h hr hpos hfresh hle (by omega),
      pushEach_eq hfresh hr.refreshTail hpos (Or.inr rfl), hcap]
  · have hfits := mt BitVec.lt_def.mpr hlt
    have := h.room
    have := h.le
    have hcount : min n.toNat (ct + r.cap - H) = n.toNat := by omega
    have hbatch : r.pushN e n = r.pushBatch e n := if_neg hlt
    rw [hbatch, pushBatch_eq h hr hpos (by omega) (hmul _ (by omega)),
      pushEach_eq h hr hpos (Or.inl (by omega)), hcount]

/-! ### The consumer -/

/-- The consumer's side of a ring: `T` elements consumed, and as many in the ring as
if only `ch` of them had been published. -/
structure ConsumerView (r : SpscRing) (T ch : ℕ) : Prop where
  tail : r.tail = BitVec.ofNat 64 T
  cachedHead : r.cachedHead = BitVec.ofNat 64 ch
  le : T ≤ ch
  room : ch ≤ T + r.cap

/-- The ring once `k` elements have been popped. -/
def popped (r : SpscRing) (k : ℕ) : SpscRing := { r with tail := r.tail + BitVec.ofNat 64 k }

/-- A caller's array once `k` elements have been popped to it. -/
def filled (r : SpscRing) (T : ℕ) (e : ℕ → Byte) (k : ℕ) : ℕ → Byte :=
  fun b => if b < k * r.esize then r.buf (r.byteAt T b) else e b

def refreshHead (r : SpscRing) : SpscRing := { r with cachedHead := r.head }

theorem refreshHead_of_fresh (h : r.cachedHead = r.head) : r.refreshHead = r := by
  cases r
  dsimp only at h
  rw [refreshHead, h]

@[simp] theorem popped_zero (r : SpscRing) : r.popped 0 = r := by
  simp [popped]

@[simp] theorem filled_zero (r : SpscRing) (T : ℕ) (e : ℕ → Byte) : r.filled T e 0 = e := by
  funext b
  rw [filled, if_neg (by omega)]

theorem popped_popped (r : SpscRing) (j k : ℕ) : (r.popped j).popped k = r.popped (j + k) := by
  simp only [popped, BitVec.ofNat_add, BitVec.add_assoc]

theorem Masked.popped (h : r.Masked) (k : ℕ) : (r.popped k).Masked := ⟨h.capacity, h.mask⟩

theorem Masked.refreshHead (h : r.Masked) : r.refreshHead.Masked := ⟨h.capacity, h.mask⟩

theorem copyOut_slotMoves (r : SpscRing) (T : ℕ) (e : ℕ → Byte) (k : ℕ) :
    copyOut r.buf e (r.slotMoves T k) = r.filled T e k := by
  have hrange : ∀ n, copyOut r.buf e ((List.range n).map fun b => (r.byteAt T b, b)) =
      fun b => if b < n then r.buf (r.byteAt T b) else e b := by
    intro n
    induction n with
    | zero => rfl
    | succ n ih =>
        rw [copyOut] at ih ⊢
        rw [List.range_succ, List.map_append, List.foldl_append, ih]
        funext b
        simp only [List.map_cons, List.map_nil, List.foldl_cons, List.foldl_nil,
          Function.update_apply]
        by_cases hb : b = n
        · rw [if_pos hb, if_pos (by omega), hb]
        · rw [if_neg hb]
          by_cases hlt : b < n
          · rw [if_pos hlt, if_pos (by omega)]
          · rw [if_neg hlt, if_neg (by omega)]
  exact hrange _

theorem filled_succ (hpos : 0 < r.esize) (T : ℕ) (e : ℕ → Byte) (k : ℕ) :
    (fun b => if b < r.esize then r.filled T e 1 b
      else (r.popped 1).filled (T + 1) (fun j => r.filled T e 1 (r.esize + j)) k (b - r.esize)) =
      r.filled T e (1 + k) := by
  funext b
  have hbuf : (r.popped 1).buf = r.buf := rfl
  have hsize : (r.popped 1).esize = r.esize := rfl
  have haddr : ∀ b, (r.popped 1).byteAt (T + 1) b = r.byteAt (T + 1) b := fun _ => rfl
  simp only [filled, Nat.one_mul, Nat.add_mul, hbuf, hsize, haddr]
  by_cases hb : b < r.esize
  · rw [if_pos hb, if_pos hb, if_pos (by omega)]
  · rw [if_neg hb]
    obtain ⟨c, rfl⟩ : ∃ c, b = r.esize + c := ⟨b - r.esize, by omega⟩
    have hbyte := byteAt_add hpos T 1 c
    rw [Nat.one_mul] at hbyte
    rw [Nat.add_sub_cancel_left, hbyte]
    by_cases hc : c < k * r.esize
    · rw [if_pos hc, if_pos (by omega)]
    · rw [if_neg hc, if_neg (by omega), if_neg (by omega)]

namespace ConsumerView

variable {T ch : ℕ}

theorem toNat_avail (h : ConsumerView r T ch) : (r.avail r.tail).toNat = ch - T := by
  have := r.cap_lt
  have := h.room
  rw [avail, h.cachedHead, h.tail, toNat_ofNat_sub h.le (by omega)]

theorem tail_eq_iff (h : ConsumerView r T ch) : r.tail = r.cachedHead ↔ T = ch := by
  have := r.cap_lt
  have := h.room
  rw [h.tail, h.cachedHead, eq_comm, ofNat_inj_of_near h.le (by omega), eq_comm]

theorem popped (h : ConsumerView r T ch) {k : ℕ} (hk : T + k ≤ ch) :
    ConsumerView (r.popped k) (T + k) ch where
  tail := by rw [SpscRing.popped, h.tail, BitVec.ofNat_add]
  cachedHead := h.cachedHead
  le := hk
  room := h.room.trans (Nat.add_le_add_right (Nat.le_add_right T k) _)

end ConsumerView

theorem pop_of_avail {T ch : ℕ} (h : ConsumerView r T ch) (hr : r.Masked) (hpos : 0 < r.esize)
    (hlt : T < ch) (e : ℕ → Byte) : r.pop e = (r.popped 1, 0, r.filled T e 1) := by
  have hslot : r.popSlot e = (r.popped 1, r.filled T e 1) := by
    rw [popSlot, h.tail, wrapped_slotCopies hr hpos, copyOut_slotMoves, SpscRing.popped, h.tail]
    rfl
  rw [pop, if_neg (mt h.tail_eq_iff.mp hlt.ne), hslot]

theorem pop_refreshHead {T ch : ℕ} (h : ConsumerView r T ch) (hempty : T = ch) (e : ℕ → Byte) :
    r.pop e = r.refreshHead.pop e := by
  rw [pop, if_pos (h.tail_eq_iff.mpr hempty), pop]
  simp only [refreshHead]
  split <;> rename_i htest <;> simp [htest]

theorem pop_of_empty {T ch : ℕ} (h : ConsumerView r T ch) (hempty : T = ch)
    (hfresh : r.cachedHead = r.head) (e : ℕ → Byte) : r.pop e = (r, -1, e) := by
  have htest := h.tail_eq_iff.mpr hempty
  have hsame : { r with cachedHead := r.head } = r := refreshHead_of_fresh hfresh
  rw [pop, if_pos htest, hsame]
  exact if_pos htest

theorem popEach_eq {T ch n : ℕ} (h : ConsumerView r T ch) (hr : r.Masked) (hpos : 0 < r.esize)
    (hn : T + n ≤ ch ∨ r.cachedHead = r.head) (e : ℕ → Byte) :
    popEach n r e =
      (r.popped (min n (ch - T)), min n (ch - T), r.filled T e (min n (ch - T))) := by
  induction n generalizing r T e with
  | zero => rw [Nat.zero_min, popped_zero, filled_zero, popEach]
  | succ n ih =>
      rcases h.le.lt_or_eq with hlt | hempty
      · have hnext := ih (r := r.popped 1) (h.popped hlt) (hr.popped 1) hpos
          (hn.imp (fun hle => by omega) id) fun j => r.filled T e 1 (r.esize + j)
        have hmin : min (n + 1) (ch - T) = 1 + min n (ch - (T + 1)) := by omega
        rw [popEach, pop_of_avail h hr hpos hlt]
        simp only [if_true]
        rw [hnext, hmin, popped_popped, filled_succ hpos, Nat.add_comm 1]
      · have hfresh := hn.resolve_left (by omega)
        rw [popEach, pop_of_empty h hempty hfresh]
        simp only [show ¬ (-1 : Int) = 0 by decide, if_false]
        rw [hempty, Nat.sub_self, Nat.min_zero, popped_zero, filled_zero]

theorem popEach_refreshHead {T ch H n : ℕ} (h : ConsumerView r T ch) (hr : r.Masked)
    (hpos : 0 < r.esize) (hfresh : ConsumerView r.refreshHead T H) (hle : ch ≤ H)
    (hn : ch < T + n) (e : ℕ → Byte) : popEach n r e = popEach n r.refreshHead e := by
  induction n generalizing r T e with
  | zero => exact absurd h.le (by omega)
  | succ n ih =>
      rcases h.le.lt_or_eq with hlt | hempty
      · have hlt' : T < H := hlt.trans_le hle
        have hcommute : (r.popped 1).refreshHead = r.refreshHead.popped 1 := rfl
        have hnext := ih (r := r.popped 1) (h.popped hlt) (hr.popped 1) hpos
          (hfresh.popped hlt') (by omega) fun j => r.filled T e 1 (r.esize + j)
        rw [hcommute] at hnext
        rw [popEach, popEach, pop_of_avail h hr hpos hlt,
          pop_of_avail hfresh hr.refreshHead hpos hlt']
        simp only [if_true]
        rw [hnext]
        rfl
      · rw [popEach, popEach, pop_refreshHead h hempty]
        rfl

theorem popBatch_eq {T ch : ℕ} (h : ConsumerView r T ch) (hr : r.Masked) (hpos : 0 < r.esize)
    {n : Size} (hn : n.toNat ≤ r.cap) (hlen : n.toNat * r.esize < 2 ^ 64) (e : ℕ → Byte) :
    r.popBatch e n = (r.popped n.toNat, n, r.filled T e n.toNat) := by
  by_cases hzero : n = 0
  · rw [popBatch, if_pos hzero, hzero, BitVec.ofNat_eq_ofNat, BitVec.toNat_ofNat, Nat.zero_mod,
      popped_zero, filled_zero]
  · rw [popBatch, if_neg hzero, popped, ← copyOut_slotMoves,
      ← wrapped_batchCopies hr hpos T hn hlen, BitVec.ofNat_toNat, BitVec.setWidth_eq, h.tail]

/-- **A batch pop is single pops, one after the other.** -/
theorem popEach_eq_popN {T ch H : ℕ} {n : Size} (h : ConsumerView r T ch) (hr : r.Masked)
    (hpos : 0 < r.esize) (hfresh : ConsumerView r.refreshHead T H) (hle : ch ≤ H)
    (hlen : min n.toNat r.cap * r.esize < 2 ^ 64) (e : ℕ → Byte) :
    popEach n.toNat r e =
        ((r.popN e n).1, (r.popN e n).2.1.toNat, (r.popN e n).2.2) ∧
      (r.popN e n).2.2 = r.filled T e (r.popN e n).2.1.toNat := by
  have hmul : ∀ k ≤ min n.toNat r.cap, k * r.esize < 2 ^ 64 :=
    fun k hk => (Nat.mul_le_mul_right _ hk).trans_lt hlen
  have havail := h.toNat_avail
  by_cases hlt : r.avail r.tail < n
  · have havail' := hfresh.toNat_avail
    have hmore := BitVec.lt_def.mp hlt
    have hcap : r.refreshHead.cap = r.cap := rfl
    have := hfresh.room
    have hcount : (if r.refreshHead.avail r.refreshHead.tail < n then
        r.refreshHead.avail r.refreshHead.tail else n).toNat = min n.toNat (H - T) := by
      split <;> rename_i htest <;> rw [BitVec.lt_def, havail'] at htest <;> omega
    have hbatch : r.popN e n = r.refreshHead.popBatch e
        (if r.refreshHead.avail r.refreshHead.tail < n then
          r.refreshHead.avail r.refreshHead.tail else n) := if_pos hlt
    rw [hbatch, popBatch_eq hfresh hr.refreshHead hpos (by rw [hcount, hcap]; omega)
        (by rw [hcount]; exact hmul _ (by omega)), hcount,
      popEach_refreshHead h hr hpos hfresh hle (by omega),
      popEach_eq hfresh hr.refreshHead hpos (Or.inr rfl)]
    exact ⟨rfl, rfl⟩
  · have hfits := mt BitVec.lt_def.mpr hlt
    have := h.room
    have hcount : min n.toNat (ch - T) = n.toNat := by omega
    have hbatch : r.popN e n = r.popBatch e n := if_neg hlt
    rw [hbatch, popBatch_eq h hr hpos (by omega) (hmul _ (by omega)),
      popEach_eq h hr hpos (Or.inl (by have := h.le; omega)), hcount]
    exact ⟨rfl, rfl⟩

end SpscRing

/-! ### Every reachable state -/

theorem Counters.producerView {w : World} {ct ch : ℕ} (h : Counters w ct ch) :
    w.ring.ProducerView w.accepted.length ct ∧
      w.ring.refreshTail.ProducerView w.accepted.length w.handed.length :=
  ⟨⟨h.head, h.cachedTail, h.ct_le.trans h.handed_le, h.room⟩,
    h.head, h.tail, h.handed_le, h.room.trans (Nat.add_le_add_right h.ct_le _)⟩

theorem Counters.consumerView {w : World} {ct ch : ℕ} (h : Counters w ct ch) :
    w.ring.ConsumerView w.handed.length ch ∧
      w.ring.refreshHead.ConsumerView w.handed.length w.accepted.length := by
  have hroom : w.accepted.length ≤ w.handed.length + w.ring.cap :=
    h.room.trans (Nat.add_le_add_right h.ct_le _)
  exact ⟨⟨h.tail, h.cachedHead, h.le_ch, h.ch_le.trans hroom⟩,
    h.tail, h.head, h.handed_le, hroom⟩

/-- **Batch calls equal iterated single calls.** In every state that a run of the two
sides can reach, a batch call that no step of the other side interrupts returns the
count, leaves the ring and fills the array as single calls do that go on until `n`
have succeeded or one fails. -/
theorem batch_eq_each {alignedAlloc : Bool} {malloc : Size → Option (ℕ → Byte)}
    {capacity elemSize : Size} {r : SpscRing} {as : List Action} {w : World} {n : Size}
    (hr : spscRingCreate alignedAlloc malloc capacity elemSize = some r)
    (hw : exec step (World.start r) as = some w)
    (hlen : min n.toNat capacity.toNat * elemSize.toNat < 2 ^ 64) (e : ℕ → Byte) :
    SpscRing.pushEach n.toNat w.ring e = ((w.ring.pushN e n).1, (w.ring.pushN e n).2.toNat) ∧
      SpscRing.popEach n.toNat w.ring e =
        ((w.ring.popN e n).1, (w.ring.popN e n).2.1.toNat, (w.ring.popN e n).2.2) ∧
      ∀ b, (w.ring.popN e n).2.1.toNat * elemSize.toNat ≤ b → (w.ring.popN e n).2.2 b = e b := by
  obtain ⟨ct, ch, hc⟩ := counters_exec hr hw
  have hsame : r.SameLayout w.ring := exec_layout hw
  obtain ⟨hcapacity, hsize⟩ := spscRingCreate_capacity hr
  have hesize : w.ring.esize = elemSize.toNat := by
    rw [SpscRing.esize, hsame.elementSize, hsize]
  have hcap : w.ring.cap = capacity.toNat := by
    rw [SpscRing.cap, hsame.capacity, hcapacity]
  have hmasked : w.ring.Masked := (spscRingCreate_masked hr).congr hsame
  have hpos : 0 < w.ring.esize := by
    obtain ⟨-, -, hne, -⟩ := spscRingCreate_eq_some hr
    rw [hesize]
    exact BitVec.toNat_pos_of_ne_zero hne
  rw [← hcap, ← hesize] at hlen
  have hpop := SpscRing.popEach_eq_popN hc.consumerView.1 hmasked hpos hc.consumerView.2 hc.ch_le
    hlen e
  refine ⟨SpscRing.pushEach_eq_pushN hc.producerView.1 hmasked hpos hc.producerView.2 hc.ct_le
    hlen e, hpop.1, fun b hb => ?_⟩
  rw [hpop.2, SpscRing.filled, if_neg (by rw [hesize]; omega)]

def onePushed : List Action := .push (.push fun _ => 7) :: List.replicate 5 (.producer 0)

theorem batch_eq_each_onePushed :
    ∃ r w, spscRingCreate true (fun _ => some fun _ => 0) 2 1 = some r ∧
      exec step (World.start r) onePushed = some w ∧
      SpscRing.pushEach 3 w.ring (fun j => BitVec.ofNat 8 j) =
        ((w.ring.pushN (fun j => BitVec.ofNat 8 j) 3).1, 1) := by
  refine ⟨_, _, rfl, rfl, ?_⟩
  exact (@batch_eq_each true (fun _ => some fun _ => 0) 2 1 _ onePushed _ 3 rfl rfl (by decide)
    fun j => BitVec.ofNat 8 j).1

end SystemsPrep.Spsc
