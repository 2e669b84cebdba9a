import SystemsPrep.Spsc.Counters

/-!
Who may touch which slot of an SPSC ring.

Everything here is counted in slots, so nothing depends on the size of an element or
on whether the bytes of all slots fit into a `size_t`. A call copies one or two runs of
slots; those of the producer are ahead of every published element by less than a lap,
and those of the consumer are published.
-/

namespace SystemsPrep.Spsc

open Base

/-! ### The slots of a call -/

/-- What one `memcpy` of a call covers: its first slot, the first of the caller's elements,
and how many elements there are. -/
structure Piece where
  slot : Size
  elem : Size
  count : Size

def Piece.slots (p : Piece) : List ℕ := List.range' p.slot.toNat p.count.toNat

namespace SpscRing

/-- The `memcpy` of a piece. -/
def memcpy (r : SpscRing) (p : Piece) : Memcpy :=
  ⟨(p.slot * r.elementSize).toNat, (p.elem * r.elementSize).toNat,
    (p.count * r.elementSize).toNat⟩

/-- The piece of `spsc_ring_push` and `spsc_ring_pop`. -/
def slotPieces (r : SpscRing) (index : Size) : List Piece := [⟨index &&& r.mask, 0, 1⟩]

/-- The one or two pieces of `spsc_ring_push_n` and `spsc_ring_pop_n`. -/
def batchPieces (r : SpscRing) (index n : Size) : List Piece :=
  let idx := index &&& r.mask
  let first := if r.capacity - idx > n then n else r.capacity - idx
  ⟨idx, 0, first⟩ :: if n > first then [⟨0, first, n - first⟩] else []

theorem slotCopies_eq (r : SpscRing) (index : Size) :
    r.slotCopies index = (r.slotPieces index).map r.memcpy := by
  simp [slotCopies, slotPieces, memcpy, addressOfIndex]

theorem batchCopies_eq (r : SpscRing) (index n : Size) :
    r.batchCopies index n = (r.batchPieces index n).map r.memcpy := by
  simp only [batchCopies, batchPieces]
  rw [List.map_cons, apply_ite (List.map r.memcpy)]
  simp [memcpy]

end SpscRing

def PushCall.pieces (r : SpscRing) (head n : Size) : PushCall → List Piece
  | .push _ => r.slotPieces head
  | .pushN _ _ => r.batchPieces head n

def PopCall.pieces (r : SpscRing) (tail n : Size) : PopCall → List Piece
  | .pop _ => r.slotPieces tail
  | .popN _ _ => r.batchPieces tail n

def Producer.slots (r : SpscRing) : Producer → List ℕ
  | .copy c head n _ => (c.pieces r head n).flatMap Piece.slots
  | _ => []

def Consumer.slots (r : SpscRing) : Consumer → List ℕ
  | .copy c tail n _ _ => (c.pieces r tail n).flatMap Piece.slots
  | _ => []

def World.published (w : World) : List ℕ :=
  (List.range (w.ring.head - w.ring.tail).toNat).map fun j =>
    ((w.ring.tail + BitVec.ofNat 64 j) &&& w.ring.mask).toNat

/-! ### The arithmetic of the split copy -/

section Pieces

variable {r : SpscRing} {m : ℕ} {n : Size}

theorem SpscRing.Masked.congr {r' : SpscRing} (h : r.Masked) (hr : r.SameLayout r') :
    r'.Masked :=
  ⟨by rw [hr.capacity]; exact h.capacity, by rw [hr.mask, hr.capacity]; exact h.mask⟩

theorem spscRingCreate_masked {alignedAlloc : Bool} {malloc : Size → Option (ℕ → Byte)}
    {capacity elemSize : Size} {r : SpscRing}
    (h : spscRingCreate alignedAlloc malloc capacity elemSize = some r) : r.Masked := by
  obtain ⟨hcap, hpow, -, buf, -, rfl⟩ := spscRingCreate_eq_some h
  exact ⟨isPowerOfTwo_of_and_sub_one hcap hpow, rfl⟩

theorem slotPieces_slots (h : r.Masked) (m : ℕ) :
    (r.slotPieces (BitVec.ofNat 64 m)).flatMap Piece.slots =
      (List.range' m 1).map (· % r.cap) := by
  simp only [SpscRing.slotPieces, Piece.slots, List.flatMap_singleton, h.toNat_and_mask]
  rfl

/-- The two pieces of a batch cover the slots of `n` consecutive entries. -/
theorem batchPieces_slots (h : r.Masked) (m : ℕ) (hn : n.toNat ≤ r.cap) :
    (r.batchPieces (BitVec.ofNat 64 m) n).flatMap Piece.slots =
      (List.range' m n.toNat).map (· % r.cap) := by
  have hidx : m % r.cap < r.cap := Nat.mod_lt m h.cap_pos
  have hidx' := h.toNat_and_mask m
  have hroom := h.toNat_room m
  simp only [SpscRing.batchPieces, gt_iff_lt, BitVec.lt_def, hroom, List.flatMap_cons, Piece.slots,
    hidx']
  by_cases hfit : n.toNat < r.cap - m % r.cap
  · simp only [hfit, if_true, lt_irrefl, if_false, List.flatMap_nil, List.append_nil]
    exact (slots_of_fits (by omega)).symm
  · simp only [hfit, if_false, hroom]
    rw [slots_of_wraps h.cap_pos (by omega) hn]
    by_cases hwrap : r.cap - m % r.cap < n.toNat
    · -- the second piece starts a new lap, at slot 0
      rw [if_pos hwrap, List.flatMap_singleton]
      change _ ++ List.range' 0 (n - _).toNat = _
      rw [h.toNat_rest m hwrap.le]
    · have hzero : n.toNat - (r.cap - m % r.cap) = 0 := by omega
      rw [if_neg hwrap, hzero]
      rfl

end Pieces

theorem PushCall.slots_eq {r : SpscRing} (h : r.Masked) (c : PushCall) (m : ℕ) {n : Size}
    (hpos : n ≠ 0) (hn : n.toNat ≤ r.cap) :
    ∃ k ≤ n.toNat, (c.pieces r (BitVec.ofNat 64 m) n).flatMap Piece.slots =
      (List.range' m k).map (· % r.cap) := by
  cases c with
  | push e => exact ⟨1, BitVec.toNat_pos_of_ne_zero hpos, slotPieces_slots h m⟩
  | pushN e k => exact ⟨n.toNat, le_rfl, batchPieces_slots h m hn⟩

theorem PopCall.slots_eq {r : SpscRing} (h : r.Masked) (c : PopCall) (m : ℕ) {n : Size}
    (hpos : n ≠ 0) (hn : n.toNat ≤ r.cap) :
    ∃ k ≤ n.toNat, (c.pieces r (BitVec.ofNat 64 m) n).flatMap Piece.slots =
      (List.range' m k).map (· % r.cap) := by
  cases c with
  | pop e => exact ⟨1, BitVec.toNat_pos_of_ne_zero hpos, slotPieces_slots h m⟩
  | popN e k => exact ⟨n.toNat, le_rfl, batchPieces_slots h m hn⟩

/-! ### What is left to copy

A call moves the bytes of its pieces in order, so what it has still to move is the end of
what its pieces amount to. -/

def Producer.Copies (r : SpscRing) : Producer → Prop
  | .copy c head n ms => moves ms <:+ moves ((c.pieces r head n).map r.memcpy)
  | _ => True

def Consumer.Copies (r : SpscRing) : Consumer → Prop
  | .copy c tail n ms _ => moves ms <:+ moves ((c.pieces r tail n).map r.memcpy)
  | _ => True

section Copies

variable {w w' : World} {r r' : SpscRing}

theorem memcpy_congr (hr : r.SameLayout r') : r'.memcpy = r.memcpy := by
  funext p
  simp only [SpscRing.memcpy, hr.elementSize]

theorem slotPieces_congr (hr : r.SameLayout r') (index : Size) :
    r'.slotPieces index = r.slotPieces index := by
  rw [SpscRing.slotPieces, SpscRing.slotPieces, hr.mask]

theorem batchPieces_congr (hr : r.SameLayout r') (index n : Size) :
    r'.batchPieces index n = r.batchPieces index n := by
  rw [SpscRing.batchPieces, SpscRing.batchPieces, hr.mask, hr.capacity]

theorem PushCall.pieces_congr (hr : r.SameLayout r') (c : PushCall) (head n : Size) :
    (c.pieces r' head n).map r'.memcpy = (c.pieces r head n).map r.memcpy := by
  rw [memcpy_congr hr]
  cases c with
  | push e => rw [pieces, pieces, slotPieces_congr hr]
  | pushN e k => rw [pieces, pieces, batchPieces_congr hr]

theorem PopCall.pieces_congr (hr : r.SameLayout r') (c : PopCall) (tail n : Size) :
    (c.pieces r' tail n).map r'.memcpy = (c.pieces r tail n).map r.memcpy := by
  rw [memcpy_congr hr]
  cases c with
  | pop e => rw [pieces, pieces, slotPieces_congr hr]
  | popN e k => rw [pieces, pieces, batchPieces_congr hr]

theorem Producer.Copies.congr {p : Producer} (h : p.Copies r) (hr : r.SameLayout r') :
    p.Copies r' := by
  cases p with
  | copy c head n ms =>
      rw [Producer.Copies, c.pieces_congr hr]
      exact h
  | _ => trivial

theorem Consumer.Copies.congr {p : Consumer} (h : p.Copies r) (hr : r.SameLayout r') :
    p.Copies r' := by
  cases p with
  | copy c tail n ms out =>
      rw [Consumer.Copies, c.pieces_congr hr]
      exact h
  | _ => trivial

theorem copies_pushNCopy (r : SpscRing) (e : ℕ → Byte) (n k head : Size) :
    (r.pushNCopy e n k head).Copies r := by
  unfold SpscRing.pushNCopy
  split
  · trivial
  · rw [r.batchCopies_eq]
    exact List.suffix_refl _

theorem copies_popNCopy (r : SpscRing) (e : ℕ → Byte) (n k tail : Size) :
    (r.popNCopy e n k tail).Copies r := by
  unfold SpscRing.popNCopy
  split
  · trivial
  · rw [r.batchCopies_eq]
    exact List.suffix_refl _

theorem copies_pushSlot (r : SpscRing) (e : ℕ → Byte) (head : Size) :
    (Producer.copy (.push e) head 1 (r.slotCopies head)).Copies r := by
  rw [r.slotCopies_eq]
  exact List.suffix_refl _

theorem copies_popSlot (r : SpscRing) (e : ℕ → Byte) (tail : Size) :
    (Consumer.copy (.pop e) tail 1 (r.slotCopies tail) e).Copies r := by
  rw [r.slotCopies_eq]
  exact List.suffix_refl _

theorem copies_pushCheckCached (r : SpscRing) (c : PushCall) (head : Size) :
    (r.pushCheckCached c head).Copies r := by
  cases c with
  | push e =>
      rw [SpscRing.pushCheckCached]
      split
      · trivial
      · exact copies_pushSlot r e head
  | pushN e n =>
      rw [SpscRing.pushCheckCached]
      split
      · trivial
      · exact copies_pushNCopy r e n n head

theorem copies_pushCheckFresh (r : SpscRing) (c : PushCall) (head : Size) :
    (r.pushCheckFresh c head).Copies r := by
  cases c with
  | push e =>
      rw [SpscRing.pushCheckFresh]
      split
      · trivial
      · exact copies_pushSlot r e head
  | pushN e n => exact copies_pushNCopy r e n _ head

theorem copies_popCheckCached (r : SpscRing) (c : PopCall) (tail : Size) :
    (r.popCheckCached c tail).Copies r := by
  cases c with
  | pop e =>
      rw [SpscRing.popCheckCached]
      split
      · trivial
      · exact copies_popSlot r e tail
  | popN e n =>
      rw [SpscRing.popCheckCached]
      split
      · trivial
      · exact copies_popNCopy r e n n tail

theorem copies_popCheckFresh (r : SpscRing) (c : PopCall) (tail : Size) :
    (r.popCheckFresh c tail).Copies r := by
  cases c with
  | pop e =>
      rw [SpscRing.popCheckFresh]
      split
      · trivial
      · exact copies_popSlot r e tail
  | popN e n => exact copies_popNCopy r e n _ tail

theorem suffix_of_moved {o u l : ℕ} {ms : List Memcpy} {bytes : List (ℕ × ℕ)}
    (h : moves (⟨o, u, l + 1⟩ :: ms) <:+ bytes) : moves (⟨o + 1, u + 1, l⟩ :: ms) <:+ bytes := by
  rw [moves_cons, bytes_succ, List.cons_append] at h
  exact (List.suffix_cons _ _).trans h

theorem copies_producerStep {back : ℕ} (h : w.producer.Copies w.ring)
    (hs : producerStep w back = some w') : w'.producer.Copies w.ring := by
  cases producerMove_of_step hs with
  | loadHead | refresh | storeHead => trivial
  | checkCached c head hp => exact copies_pushCheckCached w.ring c head
  | checkFresh c head hp => exact copies_pushCheckFresh w.ring c head
  | nextPiece c head n o u ms hp =>
      rw [hp] at h
      exact h
  | copyByte c head n o u l ms hp =>
      rw [hp] at h
      exact suffix_of_moved h

theorem copies_consumerStep {back : ℕ} (h : w.consumer.Copies w.ring)
    (hs : consumerStep w back = some w') : w'.consumer.Copies w.ring := by
  cases consumerMove_of_step hs with
  | loadTail | refresh | storeTail => trivial
  | checkCached c tail hp => exact copies_popCheckCached w.ring c tail
  | checkFresh c tail hp => exact copies_popCheckFresh w.ring c tail
  | nextPiece c tail n o u ms out hp =>
      rw [hp] at h
      exact h
  | copyByte c tail n o u l ms out hp =>
      rw [hp] at h
      exact suffix_of_moved h

/-- Both sides copy what the pieces of their calls say, and nothing else. -/
def World.Copies (w : World) : Prop := w.producer.Copies w.ring ∧ w.consumer.Copies w.ring

theorem copies_step {a : Action} (h : w.Copies) (hs : step w a = some w') : w'.Copies := by
  have hr := step_layout hs
  obtain ⟨hp, hc⟩ := h
  cases a with
  | push c =>
      rw [enterPush_eq_some hs]
      exact ⟨trivial, hc⟩
  | producer back =>
      refine ⟨(copies_producerStep hp hs).congr hr, ?_⟩
      rw [(producerStep_frame hs).1]
      exact hc.congr hr
  | pop c =>
      rw [enterPop_eq_some hs]
      exact ⟨hp, trivial⟩
  | consumer back =>
      refine ⟨?_, (copies_consumerStep hc hs).congr hr⟩
      rw [(consumerStep_frame hs).1]
      exact hp.congr hr

theorem copies_exec {as : List Action} (hw : exec step (World.start r) as = some w) : w.Copies :=
  exec_invariant (I := World.Copies) (fun _ _ _ h hs => copies_step h hs) hw ⟨trivial, trivial⟩

end Copies

/-! ### Slots in use -/

section Slots

variable {w : World} {ct ch : ℕ}

/-- The producer writes the slots of entries that are not published yet, less than a lap
ahead of the tail. -/
theorem Counters.producer_slots (h : Counters w ct ch) (hr : w.ring.Masked) :
    ∃ k, w.accepted.length + k ≤ ct + w.ring.cap ∧
      w.producer.slots w.ring = (List.range' w.accepted.length k).map (· % w.ring.cap) := by
  have hcount := h.producer
  have hroom := h.room
  have hct := h.ct_le.trans h.handed_le
  cases hp : w.producer with
  | copy c head n ms =>
      rw [hp] at hcount
      obtain ⟨rfl, hpos, hfits⟩ := hcount
      obtain ⟨k, hk, hslots⟩ := c.slots_eq hr w.accepted.length hpos (by omega)
      refine ⟨k, by omega, ?_⟩
      rw [Producer.slots, h.head, hslots]
  | _ => exact ⟨0, hroom, rfl⟩

theorem Counters.consumer_slots (h : Counters w ct ch) (hr : w.ring.Masked) :
    ∃ k, w.handed.length + k ≤ w.accepted.length ∧
      w.consumer.slots w.ring = (List.range' w.handed.length k).map (· % w.ring.cap) := by
  have hcount := h.consumer
  have hroom := h.room
  have hct := h.ct_le
  have hch := h.ch_le
  cases hp : w.consumer with
  | copy c tail n ms out =>
      rw [hp] at hcount
      obtain ⟨rfl, hpos, havail⟩ := hcount
      obtain ⟨k, hk, hslots⟩ := c.slots_eq hr w.handed.length hpos (by omega)
      refine ⟨k, by omega, ?_⟩
      rw [Consumer.slots, h.tail, hslots]
  | _ => exact ⟨0, h.handed_le, rfl⟩

theorem Counters.published_eq (h : Counters w ct ch) (hr : w.ring.Masked) :
    w.published = (List.range' w.handed.length (w.accepted.length - w.handed.length)).map
      (· % w.ring.cap) := by
  rw [World.published, h.toNat_head_sub_tail, List.range'_eq_map_range, List.map_map]
  refine List.map_congr_left fun j _ => ?_
  rw [Function.comp_apply, h.tail, ← BitVec.ofNat_add, hr.toNat_and_mask]

/-- An entry that is not published is less than a lap ahead of one that is not consumed. -/
theorem Counters.writes_unpublished (h : Counters w ct ch) (hr : w.ring.Masked) :
    (w.producer.slots w.ring).Disjoint w.published := by
  obtain ⟨k, hk, hwrites⟩ := h.producer_slots hr
  have hle := h.handed_le
  have hct := h.ct_le
  rw [hwrites, h.published_eq hr]
  intro i hi hi'
  obtain ⟨x, hx, hx', rfl⟩ := mem_slots.mp hi
  obtain ⟨y, hy, hy', heq⟩ := mem_slots.mp hi'
  exact mod_ne_mod_of_near (show y < x by omega) (by omega) heq

theorem Counters.reads_published (h : Counters w ct ch) (hr : w.ring.Masked) :
    w.consumer.slots w.ring ⊆ w.published := by
  obtain ⟨l, hl, hreads⟩ := h.consumer_slots hr
  rw [hreads, h.published_eq hr]
  intro i hi
  obtain ⟨x, hx, hx', rfl⟩ := mem_slots.mp hi
  exact mem_slots.mpr ⟨x, hx, by omega, rfl⟩

end Slots

/-- Who may touch which slot, and what the caches may say. -/
structure SlotsOwned (capacity : Size) (w : World) : Prop where
  /-- What either side has still to copy belongs to the slots below. -/
  copies : w.Copies
  writes_lt : ∀ i ∈ w.producer.slots w.ring, i < capacity.toNat
  reads_lt : ∀ i ∈ w.consumer.slots w.ring, i < capacity.toNat
  writes_nodup : (w.producer.slots w.ring).Nodup
  writes_unpublished : (w.producer.slots w.ring).Disjoint w.published
  reads_published : w.consumer.slots w.ring ⊆ w.published
  /-- No slot is written while it is read. -/
  noRace : (w.producer.slots w.ring).Disjoint (w.consumer.slots w.ring)
  room : w.ring.head - w.ring.cachedTail ≤ capacity
  cachedTail : w.ring.head - w.ring.tail ≤ w.ring.head - w.ring.cachedTail
  cachedHead : w.ring.cachedHead - w.ring.tail ≤ w.ring.head - w.ring.tail

/-- **Slot ownership.** At every point of every interleaving of the two sides, whatever
they call, the slots being written are distinct slots of the ring, none of them holds a
published element, and the slots being read all do. -/
theorem slots_owned {alignedAlloc : Bool} {malloc : Size → Option (ℕ → Byte)}
    {capacity elemSize : Size} {r : SpscRing} {as : List Action} {w : World}
    (hr : spscRingCreate alignedAlloc malloc capacity elemSize = some r)
    (hw : exec step (World.start r) as = some w) : SlotsOwned capacity w := by
  obtain ⟨ct, ch, h⟩ := counters_exec hr hw
  have hlayout : r.SameLayout w.ring := exec_layout hw
  have hmasked : w.ring.Masked := (spscRingCreate_masked hr).congr hlayout
  have hcap : w.ring.capacity = capacity :=
    hlayout.capacity.trans (spscRingCreate_capacity hr).1
  have hpos := hmasked.cap_pos
  obtain ⟨k, hk, hwrites⟩ := h.producer_slots hmasked
  obtain ⟨l, hl, hreads⟩ := h.consumer_slots hmasked
  have hle := h.handed_le
  have hct := h.ct_le
  have hroom := h.room
  have hunpublished := h.writes_unpublished hmasked
  have hpublished := h.reads_published hmasked
  -- a slot is an index modulo the capacity
  have hlt {m k i : ℕ} (hi : i ∈ (List.range' m k).map (· % w.ring.cap)) :
      i < capacity.toNat := by
    obtain ⟨x, -, -, rfl⟩ := mem_slots.mp hi
    rw [← hcap]
    exact Nat.mod_lt x hpos
  have hsub := h.toNat_head_sub_tail
  have hsub' := h.toNat_head_sub_cachedTail
  exact
    { copies := copies_exec hw
      writes_lt := fun i hi => hlt (hwrites ▸ hi)
      reads_lt := fun i hi => hlt (hreads ▸ hi)
      writes_nodup := by rw [hwrites]; exact nodup_slots (by omega)
      writes_unpublished := hunpublished
      reads_published := hpublished
      noRace := fun i hi hi' => hunpublished hi (hpublished hi')
      room := by
        rw [BitVec.le_def, hsub', ← hcap]
        change _ ≤ w.ring.cap
        omega
      cachedTail := by rw [BitVec.le_def, hsub, hsub']; omega
      cachedHead := by
        have hch := h.ch_le
        have havail := h.toNat_avail
        rw [SpscRing.avail] at havail
        rw [BitVec.le_def, hsub, havail]
        omega }

/-- A batch of three that wraps on a ring of four, while the consumer reads the two
elements before it. -/
def wrappingBatch : List Action :=
  let user : ℕ → Byte := fun i => BitVec.ofNat 8 i
  [.push (.pushN user 3)] ++ List.replicate 7 (.producer 0) ++
    [.pop (.pop user)] ++ List.replicate 7 (.consumer 0) ++
    [.push (.pushN user 2), .pop (.popN user 2)] ++ List.replicate 4 (.producer 0) ++
    List.replicate 2 (.consumer 0)

theorem slots_owned_wrappingBatch :
    ∃ r w, spscRingCreate true (fun _ => some fun _ => 0) 4 1 = some r ∧
      exec step (World.start r) wrappingBatch = some w ∧
      w.producer.slots w.ring = [3, 0] ∧ w.consumer.slots w.ring = [1, 2] ∧
      SlotsOwned 4 w := by
  refine ⟨_, _, rfl, rfl, rfl, rfl, ?_⟩
  exact @slots_owned true (fun _ => some fun _ => 0) 4 1 _ wrappingBatch _ rfl rfl

end SystemsPrep.Spsc
