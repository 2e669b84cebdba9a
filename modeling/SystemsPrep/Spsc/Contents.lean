import SystemsPrep.Spsc.Counters

/-!
What the buffer of an SPSC ring holds.

The bytes of the elements that are published and not consumed are in their
slots; a transfer in progress has moved the first of its bytes. The counters
keep the two sides apart: the bytes the producer writes are less than a lap
ahead of every byte the consumer may still read.
-/

namespace SystemsPrep.Spsc

open Base

/-! ### Elements and their bytes -/

theorem length_of_mem_elements {esize n : ℕ} {user : ℕ → Byte} {x : Elem}
    (h : x ∈ elements esize user n) : x.length = esize := by
  obtain ⟨i, -, rfl⟩ := List.mem_map.mp h
  simp

theorem elements_succ (esize : ℕ) (user : ℕ → Byte) (n : ℕ) :
    elements esize user (n + 1) =
      elements esize user n ++ [(List.range esize).map fun j => user (n * esize + j)] := by
  simp [elements, List.range_succ]

theorem flatten_elements (esize : ℕ) (user : ℕ → Byte) (n : ℕ) :
    (elements esize user n).flatten = (List.range (n * esize)).map user := by
  induction n with
  | zero => simp [elements]
  | succ n ih =>
      rw [elements_succ, List.flatten_append, ih, Nat.succ_mul, List.range_add, List.map_append]
      simp [Function.comp_def]

theorem length_flatten_of_forall {esize : ℕ} {xs : List Elem} (h : ∀ x ∈ xs, x.length = esize) :
    xs.flatten.length = xs.length * esize := by
  induction xs with
  | nil => simp
  | cons x xs ih =>
      rw [List.flatten_cons, List.length_append, h x (by simp),
        ih fun y hy => h y (List.mem_cons_of_mem x hy), List.length_cons, Nat.succ_mul,
        Nat.add_comm]

/-- Elements of one size are determined by their bytes. -/
theorem isPrefix_of_flatten {esize : ℕ} (hpos : 0 < esize) {xs ys : List Elem}
    (hx : ∀ x ∈ xs, x.length = esize) (hy : ∀ y ∈ ys, y.length = esize)
    (h : xs.flatten <+: ys.flatten) : xs <+: ys := by
  induction xs generalizing ys with
  | nil => exact List.nil_prefix
  | cons x xs ih =>
      have hxl := hx x (by simp)
      cases ys with
      | nil =>
          have := h.length_le
          simp only [List.flatten_cons, List.length_append, List.flatten_nil,
            List.length_nil] at this
          omega
      | cons y ys =>
          have hyl := hy y (by simp)
          obtain ⟨zs, hzs⟩ := h
          rw [List.flatten_cons, List.flatten_cons, List.append_assoc] at hzs
          obtain ⟨rfl, htail⟩ := List.append_inj hzs (by omega)
          exact List.cons_prefix_cons.mpr ⟨rfl,
            ih (fun z hz => hx z (List.mem_cons_of_mem _ hz))
              (fun z hz => hy z (List.mem_cons_of_mem _ hz)) ⟨zs, htail⟩⟩

/-! ### The invariant -/

def ProducerBytes (r : SpscRing) (H : ℕ) : Producer → Prop
  | .copy c _ n ms =>
      ∃ b, Pending r.size (H * r.esize) b (n.toNat * r.esize) ms ∧
        ∀ x < b, r.buf ((H * r.esize + x) % r.size) = c.source x
  | _ => True

/-- The bytes the consumer has copied so far are those of the stream, and the
rest of the caller's buffer is untouched. -/
def ConsumerBytes (r : SpscRing) (bytes : List Byte) (T : ℕ) : Consumer → Prop
  | .copy c _ n ms out =>
      ∃ b, Pending r.size (T * r.esize) b (n.toNat * r.esize) ms ∧
        (∀ x < b, bytes[T * r.esize + x]? = some (out x)) ∧ ∀ x, b ≤ x → out x = c.buffer x
  | _ => True

structure Contents (w : World) : Prop where
  ring : w.ring.WellFormed
  esize : ∀ x ∈ w.accepted, x.length = w.ring.esize
  /-- No loss, no duplication, no reordering. -/
  fifo : w.handed <+: w.accepted
  /-- The published and not yet consumed bytes are in the buffer. -/
  window : Window w.ring.size w.ring.buf w.accepted.flatten
    (w.handed.length * w.ring.esize) (w.accepted.length * w.ring.esize)
  producer : ProducerBytes w.ring w.accepted.length w.producer
  consumer : ConsumerBytes w.ring w.accepted.flatten w.handed.length w.consumer

theorem ProducerBytes.congr {r r' : SpscRing} {H : ℕ} {p : Producer} (h : ProducerBytes r H p)
    (hcap : r'.capacity = r.capacity) (hesize : r'.elementSize = r.elementSize)
    (hbuf : r'.buf = r.buf) : ProducerBytes r' H p := by
  cases p with
  | copy c head n ms =>
      simp only [ProducerBytes, SpscRing.size, SpscRing.cap, SpscRing.esize, hcap, hesize, hbuf]
      exact h
  | _ => trivial

theorem ConsumerBytes.congr {r r' : SpscRing} {bytes bytes' : List Byte} {T : ℕ} {p : Consumer}
    (h : ConsumerBytes r bytes T p) (hcap : r'.capacity = r.capacity)
    (hesize : r'.elementSize = r.elementSize) (hbytes : bytes <+: bytes') :
    ConsumerBytes r' bytes' T p := by
  cases p with
  | copy c tail n ms out =>
      obtain ⟨b, hpend, hout, hrest⟩ := h
      simp only [ConsumerBytes, SpscRing.size, SpscRing.cap, SpscRing.esize, hcap, hesize]
      refine ⟨b, hpend, fun x hx => ?_, hrest⟩
      obtain ⟨zs, rfl⟩ := hbytes
      change (bytes ++ zs)[T * r.esize + x]? = _
      rw [List.getElem?_append_left (List.getElem?_eq_some_iff.mp (hout x hx)).1]
      exact hout x hx
  | _ => trivial

/-! ### The producer's steps -/

section ProducerSteps

variable {w w' : World} {ct ch : ℕ}

theorem Contents.producerBytes_slot (h : Contents w) (hc : Counters w ct ch) (e : ℕ → Byte) :
    ProducerBytes w.ring w.accepted.length
      (.copy (.push e) w.ring.head 1 (w.ring.slotCopies w.ring.head)) := by
  refine ⟨0, ?_, fun x hx => absurd hx (Nat.not_lt_zero x)⟩
  rw [show (1 : Size).toNat = 1 from rfl, Nat.one_mul, hc.head]
  exact h.ring.pending_slot _

theorem Contents.producerBytes_pushNCopy (h : Contents w) (hc : Counters w ct ch) {e : ℕ → Byte}
    {n k : Size} (hk : k ≤ w.ring.remaining w.ring.head) :
    ProducerBytes w.ring w.accepted.length (w.ring.pushNCopy e n k w.ring.head) := by
  rw [BitVec.le_def, hc.toNat_remaining] at hk
  unfold SpscRing.pushNCopy
  split
  · trivial
  · refine ⟨0, ?_, fun x hx => absurd hx (Nat.not_lt_zero x)⟩
    rw [hc.head]
    exact h.ring.pending_batch _ (by omega)

theorem Contents.producerBytes_checkCached (h : Contents w) (hc : Counters w ct ch)
    (c : PushCall) :
    ProducerBytes w.ring w.accepted.length (w.ring.pushCheckCached c w.ring.head) := by
  cases c with
  | push e =>
      simp only [SpscRing.pushCheckCached]
      split
      · trivial
      · exact h.producerBytes_slot hc e
  | pushN e n =>
      simp only [SpscRing.pushCheckCached]
      split
      · trivial
      · exact h.producerBytes_pushNCopy hc (BitVec.not_lt.mp ‹_›)

theorem Contents.producerBytes_checkFresh (h : Contents w) (hc : Counters w ct ch)
    (c : PushCall) :
    ProducerBytes w.ring w.accepted.length (w.ring.pushCheckFresh c w.ring.head) := by
  cases c with
  | push e =>
      simp only [SpscRing.pushCheckFresh]
      split
      · trivial
      · exact h.producerBytes_slot hc e
  | pushN e n =>
      refine h.producerBytes_pushNCopy hc ?_
      split
      · exact BitVec.le_refl _
      · exact BitVec.not_lt.mp ‹_›

/-- The byte the producer is writing is none of those in use, and none of those
it has already written in this call. -/
theorem Contents.write_byte (h : Contents w) (hc : Counters w ct ch) {c : PushCall}
    {head n : Size} {o u l : ℕ} {ms : List Memcpy}
    (hp : w.producer = .copy c head n (⟨o, u, l + 1⟩ :: ms)) :
    Contents { w with
      ring := { w.ring with buf := Function.update w.ring.buf o (c.source u) }
      producer := .copy c head n (⟨o + 1, u + 1, l⟩ :: ms) } := by
  have hcount := hc.producer
  have hbytes := h.producer
  rw [hp] at hcount hbytes
  obtain ⟨-, -, hroom⟩ := hcount
  obtain ⟨b, hpend, hdone⟩ := hbytes
  obtain ⟨hb, rfl, rfl, hpend'⟩ := hpend.next
  -- byte `u` of the transfer is less than a lap ahead of every byte in use
  have hhanded := Nat.mul_le_mul_right w.ring.esize hc.handed_le
  have hlap : w.accepted.length * w.ring.esize + u <
      w.handed.length * w.ring.esize + w.ring.size := by
    have hmul := Nat.mul_le_mul_right w.ring.esize hroom
    have hct := Nat.mul_le_mul_right w.ring.esize hc.ct_le
    simp only [Nat.add_mul] at hmul
    change _ < _ + w.ring.cap * w.ring.esize
    omega
  have hwindow := h.window.write_past (c.source u) (Nat.le_add_right _ u) hlap
  have hdone' : ∀ x < u + 1, Function.update w.ring.buf
      ((w.accepted.length * w.ring.esize + u) % w.ring.size) (c.source u)
      ((w.accepted.length * w.ring.esize + x) % w.ring.size) = c.source x := by
    intro x hx
    rcases Nat.lt_succ_iff_lt_or_eq.mp hx with hx | rfl
    · rw [Function.update_of_ne (mod_ne_mod_of_near (by omega) (by omega))]
      exact hdone x hx
    · exact Function.update_self ..
  exact
    { h with
      ring := h.ring.congr rfl rfl rfl
      window := hwindow
      producer := ⟨u + 1, hpend', hdone'⟩
      consumer := h.consumer.congr rfl rfl (List.prefix_refl _) }

/-- Publishing the bytes just copied. -/
theorem Contents.store_head (h : Contents w) {c : PushCall} {head n : Size}
    (hp : w.producer = .copy c head n []) :
    Contents { w with
      ring := { w.ring with head := head + n }
      headSince := (head + n) :: w.headSince
      accepted := w.accepted ++ elements w.ring.esize c.source n.toNat
      producer := .returned c (c.result n) } := by
  have hprod := h.producer
  rw [hp] at hprod
  obtain ⟨b, hpend, hdone⟩ := hprod
  obtain rfl := hpend.nil
  have hlen : (w.accepted ++ elements w.ring.esize c.source n.toNat).length =
      w.accepted.length + n.toNat := by simp
  have hbytes := length_flatten_of_forall h.esize
  have hwindow : Window w.ring.size w.ring.buf
      (w.accepted ++ elements w.ring.esize c.source n.toNat).flatten
      (w.handed.length * w.ring.esize) ((w.accepted.length + n.toNat) * w.ring.esize) := by
    rw [List.flatten_append, flatten_elements]
    intro k hlo hhi
    rcases Nat.lt_or_ge k (w.accepted.length * w.ring.esize) with hk | hk
    · exact h.window.append _ k hlo hk
    · rw [Nat.add_mul] at hhi
      obtain ⟨x, rfl⟩ := Nat.exists_eq_add_of_le hk
      rw [List.getElem?_append_right (by rw [hbytes]; exact hk), hbytes, Nat.add_sub_cancel_left,
        List.getElem?_map, List.getElem?_range (by omega)]
      exact congrArg some (hdone x (by omega)).symm
  have hesize : ∀ x ∈ w.accepted ++ elements w.ring.esize c.source n.toNat,
      x.length = w.ring.esize := by
    intro x hx
    rcases List.mem_append.mp hx with hx | hx
    · exact h.esize x hx
    · exact length_of_mem_elements hx
  refine
    { h with
      ring := h.ring.congr rfl rfl rfl
      esize := hesize
      fifo := h.fifo.trans (List.prefix_append _ _)
      window := by rw [hlen]; exact hwindow
      producer := trivial
      consumer := h.consumer.congr rfl rfl ?_ }
  rw [List.flatten_append]
  exact List.prefix_append _ _

theorem contents_producerStep {back : ℕ} (h : Contents w) (hc : Counters w ct ch)
    (hs : producerStep w back = some w') : Contents w' := by
  have hprod := h.producer
  have hcount := hc.producer
  cases producerMove_of_step hs with
  | loadHead c hp => exact { h with producer := trivial }
  | checkCached c head hp =>
      rw [hp] at hcount
      obtain rfl : head = w.ring.head := hcount
      exact { h with producer := h.producerBytes_checkCached hc c }
  | refresh c head tail hp htail =>
      exact { h with
        ring := h.ring.congr rfl rfl rfl
        producer := trivial
        consumer := h.consumer.congr rfl rfl (List.prefix_refl _) }
  | checkFresh c head hp =>
      rw [hp] at hcount
      obtain rfl : head = w.ring.head := hcount
      exact { h with producer := h.producerBytes_checkFresh hc c }
  | nextPiece c head n o u ms hp =>
      rw [hp] at hprod
      obtain ⟨b, hpend, hdone⟩ := hprod
      exact { h with producer := ⟨b, hpend.drop, hdone⟩ }
  | copyByte c head n o u l ms hp => exact h.write_byte hc hp
  | storeHead c head n hp => exact h.store_head hp

end ProducerSteps

/-! ### The consumer's steps -/

section ConsumerSteps

variable {w w' : World} {ct ch : ℕ}

theorem Contents.consumerBytes_slot (h : Contents w) (hc : Counters w ct ch) (e : ℕ → Byte) :
    ConsumerBytes w.ring w.accepted.flatten w.handed.length
      (.copy (.pop e) w.ring.tail 1 (w.ring.slotCopies w.ring.tail) e) := by
  refine ⟨0, ?_, fun x hx => absurd hx (Nat.not_lt_zero x), fun _ _ => rfl⟩
  rw [show (1 : Size).toNat = 1 from rfl, Nat.one_mul, hc.tail]
  exact h.ring.pending_slot _

theorem Contents.consumerBytes_popNCopy (h : Contents w) (hc : Counters w ct ch) {e : ℕ → Byte}
    {n k : Size} (hk : k ≤ w.ring.avail w.ring.tail) :
    ConsumerBytes w.ring w.accepted.flatten w.handed.length
      (w.ring.popNCopy e n k w.ring.tail) := by
  rw [BitVec.le_def, hc.toNat_avail] at hk
  have := hc.room
  have := hc.ct_le
  have := hc.ch_le
  unfold SpscRing.popNCopy
  split
  · trivial
  · refine ⟨0, ?_, fun x hx => absurd hx (Nat.not_lt_zero x), fun _ _ => rfl⟩
    rw [hc.tail]
    exact h.ring.pending_batch _ (by omega)

theorem Contents.consumerBytes_checkCached (h : Contents w) (hc : Counters w ct ch)
    (c : PopCall) :
    ConsumerBytes w.ring w.accepted.flatten w.handed.length
      (w.ring.popCheckCached c w.ring.tail) := by
  cases c with
  | pop e =>
      simp only [SpscRing.popCheckCached]
      split
      · trivial
      · exact h.consumerBytes_slot hc e
  | popN e n =>
      simp only [SpscRing.popCheckCached]
      split
      · trivial
      · exact h.consumerBytes_popNCopy hc (BitVec.not_lt.mp ‹_›)

theorem Contents.consumerBytes_checkFresh (h : Contents w) (hc : Counters w ct ch)
    (c : PopCall) :
    ConsumerBytes w.ring w.accepted.flatten w.handed.length
      (w.ring.popCheckFresh c w.ring.tail) := by
  cases c with
  | pop e =>
      simp only [SpscRing.popCheckFresh]
      split
      · trivial
      · exact h.consumerBytes_slot hc e
  | popN e n =>
      refine h.consumerBytes_popNCopy hc ?_
      split
      · exact BitVec.le_refl _
      · exact BitVec.not_lt.mp ‹_›

/-- A published byte that the consumer is about to copy is the one in its slot. -/
theorem Contents.read_byte (h : Contents w) (hc : Counters w ct ch) {c : PopCall}
    {tail n : Size} {o u l : ℕ} {ms : List Memcpy} {out : ℕ → Byte}
    (hp : w.consumer = .copy c tail n (⟨o, u, l + 1⟩ :: ms) out) :
    Contents { w with consumer := .copy c tail n (⟨o + 1, u + 1, l⟩ :: ms)
                       (Function.update out u (w.ring.buf o)) } := by
  have hcount := hc.consumer
  have hbytes := h.consumer
  rw [hp] at hcount hbytes
  obtain ⟨-, -, hch⟩ := hcount
  obtain ⟨b, hpend, hout, hrest⟩ := hbytes
  obtain ⟨hb, rfl, rfl, hpend'⟩ := hpend.next
  refine { h with consumer := ⟨u + 1, hpend', fun x hx => ?_, fun x hx => ?_⟩ }
  · rcases Nat.lt_succ_iff_lt_or_eq.mp hx with hx | rfl
    · rw [Function.update_of_ne (by omega)]
      exact hout x hx
    · rw [Function.update_self]
      refine h.window _ (Nat.le_add_right _ _) ?_
      have hmul := Nat.mul_le_mul_right w.ring.esize (hch.trans hc.ch_le)
      rw [Nat.add_mul] at hmul
      change w.handed.length * w.ring.esize + x < _
      omega
  · rw [Function.update_of_ne (by omega)]
    exact hrest x (by omega)

theorem Contents.handed_append_isPrefix (h : Contents w) {out : ℕ → Byte} {b m : ℕ}
    (hm : m * w.ring.esize ≤ b)
    (hout : ∀ x < b, w.accepted.flatten[w.handed.length * w.ring.esize + x]? = some (out x)) :
    w.handed ++ elements w.ring.esize out m <+: w.accepted := by
  have hhanded : ∀ x ∈ w.handed, x.length = w.ring.esize :=
    fun x hx => h.esize x (h.fifo.subset hx)
  have hbytes := length_flatten_of_forall hhanded
  refine isPrefix_of_flatten h.ring.esize_pos (fun x hx => ?_) h.esize ?_
  · rcases List.mem_append.mp hx with hx | hx
    · exact hhanded x hx
    · exact length_of_mem_elements hx
  rw [List.flatten_append, flatten_elements, List.prefix_iff_getElem?]
  intro i hi
  obtain ⟨zs, hzs⟩ := h.fifo
  rcases Nat.lt_or_ge i w.handed.flatten.length with hlt | hge
  · rw [List.getElem_append_left hlt, ← hzs, List.flatten_append,
      List.getElem?_append_left hlt, List.getElem?_eq_getElem hlt]
  · rw [List.length_append, List.length_map, List.length_range] at hi
    rw [List.getElem_append_right hge, List.getElem_map, List.getElem_range,
      ← hout _ (by omega), ← hbytes, Nat.add_sub_cancel' hge]

theorem Contents.store_tail (h : Contents w) {c : PopCall} {tail n : Size} {out : ℕ → Byte}
    (hp : w.consumer = .copy c tail n [] out) :
    Contents { w with
      ring := { w.ring with tail := tail + n }
      tailSince := (tail + n) :: w.tailSince
      handed := w.handed ++ elements w.ring.esize out n.toNat
      consumer := .returned c (c.result n) out } := by
  have hcons := h.consumer
  rw [hp] at hcons
  obtain ⟨b, hpend, hout, -⟩ := hcons
  obtain rfl := hpend.nil
  have hlen : w.handed.length ≤ (w.handed ++ elements w.ring.esize out n.toNat).length := by simp
  exact
    { h with
      ring := h.ring.congr rfl rfl rfl
      fifo := h.handed_append_isPrefix le_rfl hout
      window := h.window.mono (Nat.mul_le_mul_right _ hlen) le_rfl
      producer := h.producer.congr rfl rfl rfl
      consumer := trivial }

theorem contents_consumerStep {back : ℕ} (h : Contents w) (hc : Counters w ct ch)
    (hs : consumerStep w back = some w') : Contents w' := by
  have hcons := h.consumer
  have hcount := hc.consumer
  cases consumerMove_of_step hs with
  | loadTail c hp => exact { h with consumer := trivial }
  | checkCached c tail hp =>
      rw [hp] at hcount
      obtain rfl : tail = w.ring.tail := hcount
      exact { h with consumer := h.consumerBytes_checkCached hc c }
  | refresh c tail head hp hhead =>
      exact { h with
        ring := h.ring.congr rfl rfl rfl
        producer := h.producer.congr rfl rfl rfl
        consumer := trivial }
  | checkFresh c tail hp =>
      rw [hp] at hcount
      obtain rfl : tail = w.ring.tail := hcount
      exact { h with consumer := h.consumerBytes_checkFresh hc c }
  | nextPiece c tail n o u ms out hp =>
      rw [hp] at hcons
      obtain ⟨b, hpend, hout, hrest⟩ := hcons
      exact { h with consumer := ⟨b, hpend.drop, hout, hrest⟩ }
  | copyByte c tail n o u l ms out hp => exact h.read_byte hc hp
  | storeTail c tail n out hp => exact h.store_tail hp

end ConsumerSteps

/-! ### Whole runs -/

theorem contents_step {w w' : World} {a : Action} {ct ch : ℕ} (h : Contents w)
    (hc : Counters w ct ch) (hs : step w a = some w') : Contents w' := by
  cases a with
  | push c =>
      rw [enterPush_eq_some hs]
      exact { h with producer := trivial }
  | producer back => exact contents_producerStep h hc hs
  | pop c =>
      rw [enterPop_eq_some hs]
      exact { h with consumer := trivial }
  | consumer back => exact contents_consumerStep h hc hs

theorem contents_start {alignedAlloc : Bool} {malloc : Size → Option (ℕ → Byte)}
    {capacity elemSize : Size} {r : SpscRing}
    (hr : spscRingCreate alignedAlloc malloc capacity elemSize = some r)
    (hfits : capacity.toNat * elemSize.toNat < 2 ^ 64) : Contents (World.start r) where
  ring := spscRingCreate_wellFormed hr hfits
  esize := by simp [World.start]
  fifo := List.prefix_refl _
  window := fun k _ hhi => by simp [World.start] at hhi
  producer := trivial
  consumer := trivial

/-- The buffer holds what it should at every point of every run. -/
theorem contents_exec {alignedAlloc : Bool} {malloc : Size → Option (ℕ → Byte)}
    {capacity elemSize : Size} {r : SpscRing} {as : List Action} {w : World}
    (hr : spscRingCreate alignedAlloc malloc capacity elemSize = some r)
    (hfits : capacity.toNat * elemSize.toNat < 2 ^ 64)
    (hw : exec step (World.start r) as = some w) : Contents w := by
  refine (exec_invariant (I := fun w => (∃ ct ch, Counters w ct ch) ∧ Contents w)
    (fun w a w' hI hs => ?_) hw ⟨⟨0, 0, counters_start hr⟩, contents_start hr hfits⟩).2
  obtain ⟨⟨ct, ch, hc⟩, h⟩ := hI
  exact ⟨counters_step w a w' ⟨ct, ch, hc⟩ hs, contents_step h hc hs⟩

end SystemsPrep.Spsc
