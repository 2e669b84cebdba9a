import SystemsPrep.Spsc.Interleaving

/-!
The four counters behind the indices of an SPSC ring.

The published elements `H`, the consumed ones `T`, and the values `ct` and `ch`
of `T` and `H` that the two caches remember satisfy
`ct ≤ T ≤ ch ≤ H ≤ ct + capacity`. A cache can only be pessimistic, so whatever
it admits fits. Nothing here depends on the size of an element or on the
contents of the buffer.
-/

namespace SystemsPrep.Spsc

open Base

@[simp] theorem length_elements (esize : ℕ) (user : ℕ → Byte) (n : ℕ) :
    (elements esize user n).length = n := by
  simp [elements]

/-- What the producer knows in the middle of a call. The elements it has
admitted fit even against the cached tail. -/
def ProducerCount (r : SpscRing) (H ct : ℕ) : Producer → Prop
  | .idle | .loadHead _ | .returned _ _ => True
  | .checkCached _ head | .refresh _ head | .checkFresh _ head => head = r.head
  | .copy _ head n _ => head = r.head ∧ n ≠ 0 ∧ H + n.toNat ≤ ct + r.cap

def ConsumerCount (r : SpscRing) (T ch : ℕ) : Consumer → Prop
  | .idle | .loadTail _ | .returned _ _ _ => True
  | .checkCached _ tail | .refresh _ tail | .checkFresh _ tail => tail = r.tail
  | .copy _ tail n _ _ => tail = r.tail ∧ n ≠ 0 ∧ T + n.toNat ≤ ch

structure Counters (w : World) (ct ch : ℕ) : Prop where
  head : w.ring.head = BitVec.ofNat 64 w.accepted.length
  tail : w.ring.tail = BitVec.ofNat 64 w.handed.length
  cachedTail : w.ring.cachedTail = BitVec.ofNat 64 ct
  cachedHead : w.ring.cachedHead = BitVec.ofNat 64 ch
  /-- What the producer may still learn about the tail. -/
  tailSince : Held w.tailSince ct w.handed.length
  /-- What the consumer may still learn about the head. -/
  headSince : Held w.headSince ch w.accepted.length
  ct_le : ct ≤ w.handed.length
  le_ch : w.handed.length ≤ ch
  ch_le : ch ≤ w.accepted.length
  room : w.accepted.length ≤ ct + w.ring.cap
  producer : ProducerCount w.ring w.accepted.length ct w.producer
  consumer : ConsumerCount w.ring w.handed.length ch w.consumer

theorem ProducerCount.congr {r r' : SpscRing} {H ct : ℕ} {p : Producer}
    (h : ProducerCount r H ct p) (hhead : r'.head = r.head)
    (hcap : r'.capacity = r.capacity) : ProducerCount r' H ct p := by
  cases p with
  | idle | loadHead | returned => trivial
  | checkCached | refresh | checkFresh => exact Eq.trans h hhead.symm
  | copy c head n ms =>
      simp only [ProducerCount, SpscRing.cap, hhead, hcap]
      exact h

theorem ConsumerCount.congr {r r' : SpscRing} {T ch : ℕ} {p : Consumer}
    (h : ConsumerCount r T ch p) (htail : r'.tail = r.tail) : ConsumerCount r' T ch p := by
  cases p with
  | idle | loadTail | returned => trivial
  | checkCached | refresh | checkFresh => exact Eq.trans h htail.symm
  | copy c tail n ms out =>
      simp only [ConsumerCount, htail]
      exact h

/-! ### Reading the indices -/

theorem SpscRing.cap_lt (r : SpscRing) : r.cap < 2 ^ 64 := r.capacity.isLt

section Reading

variable {w : World} {ct ch : ℕ}

theorem Counters.handed_le (h : Counters w ct ch) : w.handed.length ≤ w.accepted.length :=
  h.le_ch.trans h.ch_le

theorem Counters.toNat_head_sub_tail (h : Counters w ct ch) :
    (w.ring.head - w.ring.tail).toNat = w.accepted.length - w.handed.length := by
  have := w.ring.cap_lt
  have := h.room
  have := h.ct_le
  rw [h.head, h.tail, toNat_ofNat_sub h.handed_le (by omega)]

theorem Counters.toNat_head_sub_cachedTail (h : Counters w ct ch) :
    (w.ring.head - w.ring.cachedTail).toNat = w.accepted.length - ct := by
  have := w.ring.cap_lt
  have := h.room
  rw [h.head, h.cachedTail, toNat_ofNat_sub (h.ct_le.trans h.handed_le) (by omega)]

/-- The free slots the producer counts never underflow. -/
theorem Counters.toNat_remaining (h : Counters w ct ch) :
    (w.ring.remaining w.ring.head).toNat = w.ring.cap - (w.accepted.length - ct) := by
  have hsub := h.toNat_head_sub_cachedTail
  have hroom := h.room
  rw [SpscRing.remaining, BitVec.toNat_sub_of_le, hsub]
  · rfl
  · rw [BitVec.le_def, hsub]
    change _ ≤ w.ring.cap
    omega

theorem Counters.toNat_avail (h : Counters w ct ch) :
    (w.ring.avail w.ring.tail).toNat = ch - w.handed.length := by
  have := w.ring.cap_lt
  have := h.room
  have := h.ct_le
  have := h.ch_le
  rw [SpscRing.avail, h.cachedHead, h.tail, toNat_ofNat_sub h.le_ch (by omega)]

theorem Counters.capacity_le_iff (h : Counters w ct ch) :
    w.ring.capacity ≤ w.ring.head - w.ring.cachedTail ↔
      w.accepted.length = ct + w.ring.cap := by
  have hroom := h.room
  have hle := h.ct_le.trans h.handed_le
  rw [BitVec.le_def, h.toNat_head_sub_cachedTail]
  change w.ring.cap ≤ _ ↔ _
  omega

theorem Counters.tail_eq_cachedHead_iff (h : Counters w ct ch) :
    w.ring.tail = w.ring.cachedHead ↔ w.handed.length = ch := by
  have := w.ring.cap_lt
  have := h.room
  have := h.ct_le
  have := h.ch_le
  rw [h.tail, h.cachedHead, eq_comm, ofNat_inj_of_near h.le_ch (by omega), eq_comm]

end Reading

/-! ### The producer's steps -/

section ProducerSteps

variable {w w' : World} {ct ch : ℕ}

theorem Counters.producerCount_slot (h : Counters w ct ch) {e : ℕ → Byte}
    (hroom : ¬ w.ring.capacity ≤ w.ring.head - w.ring.cachedTail) :
    ProducerCount w.ring w.accepted.length ct
      (.copy (.push e) w.ring.head 1 (w.ring.slotCopies w.ring.head)) := by
  rw [h.capacity_le_iff] at hroom
  have := h.room
  refine ⟨rfl, by decide, ?_⟩
  change w.accepted.length + 1 ≤ _
  omega

theorem Counters.producerCount_pushNCopy (h : Counters w ct ch) {e : ℕ → Byte}
    {n k : Size} (hk : k ≤ w.ring.remaining w.ring.head) :
    ProducerCount w.ring w.accepted.length ct (w.ring.pushNCopy e n k w.ring.head) := by
  rw [BitVec.le_def, h.toNat_remaining] at hk
  have := h.room
  have := h.ct_le.trans h.handed_le
  unfold SpscRing.pushNCopy
  split
  · trivial
  · exact ⟨rfl, ‹_›, by omega⟩

theorem Counters.producerCount_checkCached (h : Counters w ct ch) (c : PushCall) :
    ProducerCount w.ring w.accepted.length ct (w.ring.pushCheckCached c w.ring.head) := by
  cases c with
  | push e =>
      simp only [SpscRing.pushCheckCached]
      split
      · rfl
      · exact h.producerCount_slot ‹_›
  | pushN e n =>
      simp only [SpscRing.pushCheckCached]
      split
      · rfl
      · exact h.producerCount_pushNCopy (BitVec.not_lt.mp ‹_›)

theorem Counters.producerCount_checkFresh (h : Counters w ct ch) (c : PushCall) :
    ProducerCount w.ring w.accepted.length ct (w.ring.pushCheckFresh c w.ring.head) := by
  cases c with
  | push e =>
      simp only [SpscRing.pushCheckFresh]
      split
      · trivial
      · exact h.producerCount_slot ‹_›
  | pushN e n =>
      refine h.producerCount_pushNCopy ?_
      split
      · exact BitVec.le_refl _
      · exact BitVec.not_lt.mp ‹_›

/-- Publishing a transfer. -/
theorem Counters.store_head (h : Counters w ct ch) {c : PushCall} {head n : Size}
    (hp : w.producer = .copy c head n []) :
    Counters { w with
      ring := { w.ring with head := head + n }
      headSince := (head + n) :: w.headSince
      accepted := w.accepted ++ elements w.ring.esize c.source n.toNat
      producer := .returned c (c.result n) } ct ch := by
  have hprod := h.producer
  rw [hp] at hprod
  obtain ⟨rfl, -, hroom⟩ := hprod
  have hlen : (w.accepted ++ elements w.ring.esize c.source n.toNat).length =
      w.accepted.length + n.toNat := by simp
  have hnew : w.ring.head + n = BitVec.ofNat 64 (w.accepted.length + n.toNat) := by
    rw [h.head, ofNat_add_toNat]
  refine
    { h with
      head := hnew.trans (by rw [hlen])
      headSince := ?_
      ch_le := h.ch_le.trans (by rw [hlen]; omega)
      room := by rw [hlen]; exact hroom
      producer := trivial
      consumer := h.consumer.congr rfl }
  rw [hlen, hnew]
  exact h.headSince.store (Nat.le_add_right _ n.toNat)

/-- A refresh moves the producer's view of the tail forward, to the tail itself
when the load returns the current value. -/
theorem counters_producerStep {back : ℕ} (h : Counters w ct ch)
    (hs : producerStep w back = some w') : ∃ ct', Counters w' ct' ch := by
  have hprod := h.producer
  cases producerMove_of_step hs with
  | loadHead c hp => exact ⟨ct, { h with producer := rfl }⟩
  | checkCached c head hp =>
      rw [hp] at hprod
      obtain rfl : head = w.ring.head := hprod
      exact ⟨ct, { h with producer := h.producerCount_checkCached c }⟩
  | refresh c head tail hp htail =>
      rw [hp] at hprod
      obtain ⟨n, hlo, hhi, rfl, -, hheld⟩ := h.tailSince.load htail
      exact ⟨n, { h with
        cachedTail := rfl
        tailSince := hheld
        ct_le := hhi
        room := h.room.trans (Nat.add_le_add_right hlo _)
        producer := hprod
        consumer := h.consumer.congr rfl }⟩
  | checkFresh c head hp =>
      rw [hp] at hprod
      obtain rfl : head = w.ring.head := hprod
      exact ⟨ct, { h with producer := h.producerCount_checkFresh c }⟩
  | nextPiece c head n o u ms hp =>
      rw [hp] at hprod
      exact ⟨ct, { h with producer := hprod }⟩
  | copyByte c head n o u l ms hp =>
      rw [hp] at hprod
      exact ⟨ct, { h with producer := hprod, consumer := h.consumer.congr rfl }⟩
  | storeHead c head n hp => exact ⟨ct, h.store_head hp⟩

end ProducerSteps

/-! ### The consumer's steps -/

section ConsumerSteps

variable {w w' : World} {ct ch : ℕ}

theorem Counters.consumerCount_slot (h : Counters w ct ch) {e : ℕ → Byte}
    (havail : ¬ w.ring.tail = w.ring.cachedHead) :
    ConsumerCount w.ring w.handed.length ch
      (.copy (.pop e) w.ring.tail 1 (w.ring.slotCopies w.ring.tail) e) := by
  rw [h.tail_eq_cachedHead_iff] at havail
  have := h.le_ch
  refine ⟨rfl, by decide, ?_⟩
  change w.handed.length + 1 ≤ _
  omega

theorem Counters.consumerCount_popNCopy (h : Counters w ct ch) {e : ℕ → Byte}
    {n k : Size} (hk : k ≤ w.ring.avail w.ring.tail) :
    ConsumerCount w.ring w.handed.length ch (w.ring.popNCopy e n k w.ring.tail) := by
  rw [BitVec.le_def, h.toNat_avail] at hk
  have := h.le_ch
  unfold SpscRing.popNCopy
  split
  · trivial
  · exact ⟨rfl, ‹_›, by omega⟩

theorem Counters.consumerCount_checkCached (h : Counters w ct ch) (c : PopCall) :
    ConsumerCount w.ring w.handed.length ch (w.ring.popCheckCached c w.ring.tail) := by
  cases c with
  | pop e =>
      simp only [SpscRing.popCheckCached]
      split
      · rfl
      · exact h.consumerCount_slot ‹_›
  | popN e n =>
      simp only [SpscRing.popCheckCached]
      split
      · rfl
      · exact h.consumerCount_popNCopy (BitVec.not_lt.mp ‹_›)

theorem Counters.consumerCount_checkFresh (h : Counters w ct ch) (c : PopCall) :
    ConsumerCount w.ring w.handed.length ch (w.ring.popCheckFresh c w.ring.tail) := by
  cases c with
  | pop e =>
      simp only [SpscRing.popCheckFresh]
      split
      · trivial
      · exact h.consumerCount_slot ‹_›
  | popN e n =>
      refine h.consumerCount_popNCopy ?_
      split
      · exact BitVec.le_refl _
      · exact BitVec.not_lt.mp ‹_›

/-- Giving the slots back. -/
theorem Counters.store_tail (h : Counters w ct ch) {c : PopCall} {tail n : Size}
    {out : ℕ → Byte} (hp : w.consumer = .copy c tail n [] out) :
    Counters { w with
      ring := { w.ring with tail := tail + n }
      tailSince := (tail + n) :: w.tailSince
      handed := w.handed ++ elements w.ring.esize out n.toNat
      consumer := .returned c (c.result n) out } ct ch := by
  have hcons := h.consumer
  rw [hp] at hcons
  obtain ⟨rfl, -, hch⟩ := hcons
  have hlen : (w.handed ++ elements w.ring.esize out n.toNat).length =
      w.handed.length + n.toNat := by simp
  have hnew : w.ring.tail + n = BitVec.ofNat 64 (w.handed.length + n.toNat) := by
    rw [h.tail, ofNat_add_toNat]
  refine
    { h with
      tail := hnew.trans (by rw [hlen])
      tailSince := ?_
      ct_le := h.ct_le.trans (by rw [hlen]; omega)
      le_ch := by rw [hlen]; exact hch
      producer := h.producer.congr rfl rfl
      consumer := trivial }
  rw [hlen, hnew]
  exact h.tailSince.store (Nat.le_add_right _ n.toNat)

/-- A refresh moves the consumer's view of the head forward. -/
theorem counters_consumerStep {back : ℕ} (h : Counters w ct ch)
    (hs : consumerStep w back = some w') : ∃ ch', Counters w' ct ch' := by
  have hcons := h.consumer
  cases consumerMove_of_step hs with
  | loadTail c hp => exact ⟨ch, { h with consumer := rfl }⟩
  | checkCached c tail hp =>
      rw [hp] at hcons
      obtain rfl : tail = w.ring.tail := hcons
      exact ⟨ch, { h with consumer := h.consumerCount_checkCached c }⟩
  | refresh c tail head hp hhead =>
      rw [hp] at hcons
      obtain ⟨n, hlo, hhi, rfl, -, hheld⟩ := h.headSince.load hhead
      exact ⟨n, { h with
        cachedHead := rfl
        headSince := hheld
        le_ch := h.le_ch.trans hlo
        ch_le := hhi
        producer := h.producer.congr rfl rfl
        consumer := hcons }⟩
  | checkFresh c tail hp =>
      rw [hp] at hcons
      obtain rfl : tail = w.ring.tail := hcons
      exact ⟨ch, { h with consumer := h.consumerCount_checkFresh c }⟩
  | nextPiece c tail n o u ms out hp =>
      rw [hp] at hcons
      exact ⟨ch, { h with consumer := hcons }⟩
  | copyByte c tail n o u l ms out hp =>
      rw [hp] at hcons
      exact ⟨ch, { h with consumer := hcons }⟩
  | storeTail c tail n out hp => exact ⟨ch, h.store_tail hp⟩

end ConsumerSteps

/-! ### Whole runs -/

theorem counters_step (w : World) (a : Action) (w' : World) (h : ∃ ct ch, Counters w ct ch)
    (hs : step w a = some w') : ∃ ct ch, Counters w' ct ch := by
  obtain ⟨ct, ch, h⟩ := h
  cases a with
  | push c =>
      rw [enterPush_eq_some hs]
      exact ⟨ct, ch, { h with producer := trivial }⟩
  | producer back =>
      obtain ⟨ct', h'⟩ := counters_producerStep h hs
      exact ⟨ct', ch, h'⟩
  | pop c =>
      rw [enterPop_eq_some hs]
      exact ⟨ct, ch, { h with consumer := trivial }⟩
  | consumer back =>
      obtain ⟨ch', h'⟩ := counters_consumerStep h hs
      exact ⟨ct, ch', h'⟩

theorem counters_start {alignedAlloc : Bool} {malloc : Size → Option (ℕ → Byte)}
    {capacity elemSize : Size} {r : SpscRing}
    (hr : spscRingCreate alignedAlloc malloc capacity elemSize = some r) :
    Counters (World.start r) 0 0 := by
  obtain ⟨hhead, htail, hct, hch⟩ := spscRingCreate_indices hr
  exact
    { head := hhead
      tail := htail
      cachedTail := hct
      cachedHead := hch
      tailSince := by rw [World.start, htail]; exact Held.single 0
      headSince := by rw [World.start, hhead]; exact Held.single 0
      ct_le := le_rfl
      le_ch := le_rfl
      ch_le := le_rfl
      room := Nat.zero_le _
      producer := trivial
      consumer := trivial }

/-- The counters are in order at every point of every run. -/
theorem counters_after {as : List Action} {w w' : World} (h : ∃ ct ch, Counters w ct ch)
    (hw : exec step w as = some w') : ∃ ct ch, Counters w' ct ch :=
  exec_invariant (I := fun w => ∃ ct ch, Counters w ct ch) counters_step hw h

theorem counters_exec {alignedAlloc : Bool} {malloc : Size → Option (ℕ → Byte)}
    {capacity elemSize : Size} {r : SpscRing} {as : List Action} {w : World}
    (hr : spscRingCreate alignedAlloc malloc capacity elemSize = some r)
    (hw : exec step (World.start r) as = some w) : ∃ ct ch, Counters w ct ch :=
  counters_after ⟨0, 0, counters_start hr⟩ hw

structure SpscRing.SameLayout (r r' : SpscRing) : Prop where
  capacity : r'.capacity = r.capacity
  mask : r'.mask = r.mask
  elementSize : r'.elementSize = r.elementSize
  bufSize : r'.bufSize = r.bufSize

theorem SpscRing.SameLayout.refl (r : SpscRing) : r.SameLayout r := ⟨rfl, rfl, rfl, rfl⟩

theorem SpscRing.SameLayout.trans {r r' r'' : SpscRing} (h : r.SameLayout r')
    (h' : r'.SameLayout r'') : r.SameLayout r'' :=
  ⟨h'.capacity.trans h.capacity, h'.mask.trans h.mask, h'.elementSize.trans h.elementSize,
    h'.bufSize.trans h.bufSize⟩

/-- No action touches the read-only line of the structure. -/
theorem step_layout {w w' : World} {a : Action} (h : step w a = some w') :
    w.ring.SameLayout w'.ring := by
  cases a with
  | push c =>
      rw [enterPush_eq_some h]
      exact .refl _
  | producer back => cases producerMove_of_step h <;> exact ⟨rfl, rfl, rfl, rfl⟩
  | pop c =>
      rw [enterPop_eq_some h]
      exact .refl _
  | consumer back => cases consumerMove_of_step h <;> exact ⟨rfl, rfl, rfl, rfl⟩

theorem exec_layout {w w' : World} {as : List Action} (h : exec step w as = some w') :
    w.ring.SameLayout w'.ring :=
  exec_invariant (I := fun v => w.ring.SameLayout v.ring)
    (fun _ _ _ hI hs => hI.trans (step_layout hs)) h (.refl _)

end SystemsPrep.Spsc
