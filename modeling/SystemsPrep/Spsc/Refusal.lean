import SystemsPrep.Spsc.Counters

/-!
Refusals and short batches on an SPSC ring.

A call that transfers fewer elements than it was asked for decides so from the
peer's index as a refresh just loaded it. At that instant the ring really held
what the call concluded: all slots but the `k` it fills, or just the `k` elements
it takes. Up to the decision the call writes nothing.
-/

namespace SystemsPrep.Spsc

open Base

def World.held (w : World) : ℕ := w.accepted.length - w.handed.length

/-- A refresh load returns the current value. -/
def Action.Current : Action → Prop
  | .producer back | .consumer back => back = 0
  | .push _ | .pop _ => True

def Action.KeepsPush : Action → Prop
  | .push _ => False
  | _ => True

def Action.KeepsPop : Action → Prop
  | .pop _ => False
  | _ => True

def PushCall.requested : PushCall → ℕ
  | .push _ => 1
  | .pushN _ n => n.toNat

def PopCall.requested : PopCall → ℕ
  | .pop _ => 1
  | .popN _ n => n.toNat

def Return.transferred : Return → ℕ
  | .int v => if v = 0 then 1 else 0
  | .size n => n.toNat

theorem Counters.held_add_remaining {w : World} {ct ch : ℕ} (h : Counters w ct ch)
    (hct : w.ring.cachedTail = w.ring.tail) :
    w.held + (w.ring.remaining w.ring.head).toNat = w.ring.cap := by
  have := w.ring.cap_lt
  have hroom := h.room
  have hle := h.ct_le
  have := h.handed_le
  -- a cache equal to the index is equal to the counter
  have heq : w.handed.length = ct := by
    rw [h.cachedTail, h.tail, eq_comm, ofNat_inj_of_near hle (by omega)] at hct
    exact hct
  rw [h.toNat_remaining, World.held, heq]
  omega

theorem Counters.held_eq_avail {w : World} {ct ch : ℕ} (h : Counters w ct ch)
    (hch : w.ring.cachedHead = w.ring.head) :
    w.held = (w.ring.avail w.ring.tail).toNat := by
  have := w.ring.cap_lt
  have hroom := h.room
  have := h.ct_le
  have := h.le_ch
  have hle := h.ch_le
  have heq : w.accepted.length = ch := by
    rw [h.cachedHead, h.head, eq_comm, ofNat_inj_of_near hle (by omega)] at hch
    exact hch
  rw [h.toNat_avail, World.held, heq]

/-! ### What a call transfers -/

/-- The call and the number of elements it is bound to transfer, once decided. -/
def Producer.decided : Producer → Option (PushCall × ℕ)
  | .copy c _ n _ => some (c, (c.result n).transferred)
  | .returned c ret => some (c, ret.transferred)
  | _ => none

def Consumer.decided : Consumer → Option (PopCall × ℕ)
  | .copy c _ n _ _ => some (c, (c.result n).transferred)
  | .returned c ret _ => some (c, ret.transferred)
  | _ => none

namespace SpscRing

variable {r : SpscRing} {w : World} {ct ch : ℕ}

theorem decided_pushNCopy (e : ℕ → Byte) (n k head : Size) :
    (r.pushNCopy e n k head).decided = some (.pushN e n, k.toNat) := by
  unfold pushNCopy
  by_cases hk : k = 0
  · rw [if_pos hk, hk]
    rfl
  · rw [if_neg hk]
    rfl

/-- What the cached tail admits is the whole request. -/
theorem decided_pushCheckCached (h : Counters w ct ch) (c : PushCall) :
    w.ring.pushCheckCached c w.ring.head = .refresh c w.ring.head ∨
      (w.ring.pushCheckCached c w.ring.head).decided = some (c, c.requested) ∧
        c.requested ≤ (w.ring.remaining w.ring.head).toNat := by
  cases c with
  | push e =>
      simp only [pushCheckCached]
      by_cases hfull : w.ring.capacity ≤ w.ring.head - w.ring.cachedTail
      · exact Or.inl (if_pos hfull)
      · rw [if_neg hfull]
        rw [h.capacity_le_iff] at hfull
        have := h.room
        have := h.ct_le.trans h.handed_le
        refine Or.inr ⟨rfl, ?_⟩
        rw [h.toNat_remaining, PushCall.requested]
        omega
  | pushN e n =>
      simp only [pushCheckCached]
      by_cases hshort : w.ring.remaining w.ring.head < n
      · exact Or.inl (if_pos hshort)
      · rw [if_neg hshort]
        exact Or.inr ⟨decided_pushNCopy e n n _, BitVec.not_lt.mp hshort⟩

/-- After the refresh it is as much of the request as there is room for. -/
theorem decided_pushCheckFresh (h : Counters w ct ch) (c : PushCall) :
    (w.ring.pushCheckFresh c w.ring.head).decided =
      some (c, min c.requested (w.ring.remaining w.ring.head).toNat) := by
  cases c with
  | push e =>
      simp only [pushCheckFresh, PushCall.requested]
      rw [h.toNat_remaining]
      have hiff := h.capacity_le_iff
      have := h.room
      have := h.ct_le.trans h.handed_le
      by_cases hfull : w.ring.capacity ≤ w.ring.head - w.ring.cachedTail
      · have hzero : min 1 (w.ring.cap - (w.accepted.length - ct)) = 0 := by
          have := hiff.mp hfull
          omega
        rw [if_pos hfull, hzero]
        rfl
      · have hone : min 1 (w.ring.cap - (w.accepted.length - ct)) = 1 := by
          have := mt hiff.mpr hfull
          omega
        rw [if_neg hfull, hone]
        rfl
  | pushN e n =>
      simp only [pushCheckFresh, PushCall.requested, decided_pushNCopy]
      congr 2
      by_cases hshort : w.ring.remaining w.ring.head < n
      · rw [if_pos hshort, Nat.min_eq_right (BitVec.le_of_lt hshort)]
      · rw [if_neg hshort, Nat.min_eq_left (BitVec.not_lt.mp hshort)]

theorem decided_popNCopy (e : ℕ → Byte) (n k tail : Size) :
    (r.popNCopy e n k tail).decided = some (.popN e n, k.toNat) := by
  unfold popNCopy
  by_cases hk : k = 0
  · rw [if_pos hk, hk]
    rfl
  · rw [if_neg hk]
    rfl

/-- What the cached head admits is the whole request. -/
theorem decided_popCheckCached (h : Counters w ct ch) (c : PopCall) :
    w.ring.popCheckCached c w.ring.tail = .refresh c w.ring.tail ∨
      (w.ring.popCheckCached c w.ring.tail).decided = some (c, c.requested) ∧
        c.requested ≤ (w.ring.avail w.ring.tail).toNat := by
  cases c with
  | pop e =>
      simp only [popCheckCached]
      by_cases hempty : w.ring.tail = w.ring.cachedHead
      · exact Or.inl (if_pos hempty)
      · rw [if_neg hempty]
        rw [h.tail_eq_cachedHead_iff] at hempty
        have := h.le_ch
        refine Or.inr ⟨rfl, ?_⟩
        rw [h.toNat_avail, PopCall.requested]
        omega
  | popN e n =>
      simp only [popCheckCached]
      by_cases hshort : w.ring.avail w.ring.tail < n
      · exact Or.inl (if_pos hshort)
      · rw [if_neg hshort]
        exact Or.inr ⟨decided_popNCopy e n n _, BitVec.not_lt.mp hshort⟩

/-- After the refresh it is as much of the request as is there. -/
theorem decided_popCheckFresh (h : Counters w ct ch) (c : PopCall) :
    (w.ring.popCheckFresh c w.ring.tail).decided =
      some (c, min c.requested (w.ring.avail w.ring.tail).toNat) := by
  cases c with
  | pop e =>
      simp only [popCheckFresh, PopCall.requested]
      rw [h.toNat_avail]
      have hiff := h.tail_eq_cachedHead_iff
      have := h.le_ch
      by_cases hempty : w.ring.tail = w.ring.cachedHead
      · have hzero : min 1 (ch - w.handed.length) = 0 := by
          have := hiff.mp hempty
          omega
        rw [if_pos hempty, hzero]
        rfl
      · have hone : min 1 (ch - w.handed.length) = 1 := by
          have := mt hiff.mpr hempty
          omega
        rw [if_neg hempty, hone]
        rfl
  | popN e n =>
      simp only [popCheckFresh, PopCall.requested, decided_popNCopy]
      congr 2
      by_cases hshort : w.ring.avail w.ring.tail < n
      · rw [if_pos hshort, Nat.min_eq_right (BitVec.le_of_lt hshort)]
      · rw [if_neg hshort, Nat.min_eq_left (BitVec.not_lt.mp hshort)]

end SpscRing

/-! ### The producer falls short -/

/-- The producer is bound to transfer `k` elements, fewer than requested. -/
def ShortPush (k : ℕ) (w : World) : Prop :=
  match w.producer with
  | .checkFresh c head => (w.ring.remaining head).toNat = k ∧ k < c.requested
  | p => ∃ c, p.decided = some (c, k) ∧ k < c.requested

theorem shortPush_iff_of_decided {w : World} {c : PushCall} {n k : ℕ}
    (hd : w.producer.decided = some (c, n)) : ShortPush k w ↔ n = k ∧ k < c.requested := by
  have hshort : ShortPush k w ↔ ∃ c, w.producer.decided = some (c, k) ∧ k < c.requested := by
    unfold ShortPush
    split
    · rename_i hp
      rw [hp] at hd
      cases hd
    · rfl
  rw [hshort, hd]
  constructor
  · rintro ⟨c', hc, hlt⟩
    cases hc
    exact ⟨rfl, hlt⟩
  · rintro ⟨rfl, hlt⟩
    exact ⟨c, rfl, hlt⟩

/-- The only way to fall short is a refresh that finds that little room. -/
theorem shortPush_entry {k : ℕ} (w : World) (a : Action) (w' : World) (ha : a.Current)
    (hI : ∃ ct ch, Counters w ct ch) (hs : step w a = some w') (hk : ShortPush k w') :
    ShortPush k w ∨ w.held + k = w.ring.cap ∨ w'.held + k = w'.ring.cap := by
  obtain ⟨ct, ch, h⟩ := hI
  cases a with
  | push c =>
      rw [enterPush_eq_some hs] at hk
      simp [ShortPush, Producer.decided] at hk
  | pop c =>
      rw [enterPop_eq_some hs] at hk
      exact Or.inl hk
  | consumer back =>
      obtain ⟨hp, hhead, hct, -, hcap, -⟩ := consumerStep_frame hs
      refine Or.inl ?_
      simpa only [ShortPush, SpscRing.remaining, hp, hct, hcap] using hk
  | producer back =>
      obtain rfl : back = 0 := ha
      simp only [step] at hs
      obtain ⟨ct', h'⟩ := counters_producerStep h hs
      have hprod := h.producer
      cases producerMove_of_step hs with
      | loadHead c hp => simp [ShortPush, Producer.decided] at hk
      | checkCached c head hp =>
          rw [hp] at hprod
          obtain rfl : head = w.ring.head := hprod
          rcases SpscRing.decided_pushCheckCached h c with hr | ⟨hd, -⟩
          · rw [hr] at hk
            simp [ShortPush, Producer.decided] at hk
          · obtain ⟨rfl, hlt⟩ := (shortPush_iff_of_decided hd).mp hk
            exact absurd hlt (lt_irrefl _)
      | refresh c head tail hp htail =>
          -- `k` is what the refresh leaves
          rw [hp] at hprod
          obtain rfl : head = w.ring.head := hprod
          obtain ⟨n, -, -, rfl, hcur, -⟩ := h.tailSince.load htail
          refine Or.inr (Or.inr ?_)
          have hfresh := h'.held_add_remaining (by rw [h'.tail, hcur rfl])
          rw [← hfresh]
          exact congrArg _ hk.1.symm
      | checkFresh c head hp =>
          rw [hp] at hprod
          obtain rfl : head = w.ring.head := hprod
          obtain ⟨rfl, hlt⟩ :=
            (shortPush_iff_of_decided (SpscRing.decided_pushCheckFresh h c)).mp hk
          refine Or.inl ?_
          simp only [ShortPush, hp]
          omega
      | nextPiece c head n o u ms hp =>
          exact Or.inl (by simpa only [ShortPush, hp, Producer.decided] using hk)
      | copyByte c head n o u l ms hp =>
          exact Or.inl (by simpa only [ShortPush, hp, Producer.decided] using hk)
      | storeHead c head n hp =>
          exact Or.inl (by simpa only [ShortPush, hp, Producer.decided] using hk)

/-! ### The consumer falls short -/

/-- The consumer is bound to transfer `k` elements, fewer than requested. -/
def ShortPop (k : ℕ) (w : World) : Prop :=
  match w.consumer with
  | .checkFresh c tail => (w.ring.avail tail).toNat = k ∧ k < c.requested
  | p => ∃ c, p.decided = some (c, k) ∧ k < c.requested

theorem shortPop_iff_of_decided {w : World} {c : PopCall} {n k : ℕ}
    (hd : w.consumer.decided = some (c, n)) : ShortPop k w ↔ n = k ∧ k < c.requested := by
  have hshort : ShortPop k w ↔ ∃ c, w.consumer.decided = some (c, k) ∧ k < c.requested := by
    unfold ShortPop
    split
    · rename_i hp
      rw [hp] at hd
      cases hd
    · rfl
  rw [hshort, hd]
  constructor
  · rintro ⟨c', hc, hlt⟩
    cases hc
    exact ⟨rfl, hlt⟩
  · rintro ⟨rfl, hlt⟩
    exact ⟨c, rfl, hlt⟩

/-- The only way to fall short is a refresh that finds that few elements. -/
theorem shortPop_entry {k : ℕ} (w : World) (a : Action) (w' : World) (ha : a.Current)
    (hI : ∃ ct ch, Counters w ct ch) (hs : step w a = some w') (hk : ShortPop k w') :
    ShortPop k w ∨ w.held = k ∨ w'.held = k := by
  obtain ⟨ct, ch, h⟩ := hI
  cases a with
  | push c =>
      rw [enterPush_eq_some hs] at hk
      exact Or.inl hk
  | pop c =>
      rw [enterPop_eq_some hs] at hk
      simp [ShortPop, Consumer.decided] at hk
  | producer back =>
      obtain ⟨hp, htail, hch, -⟩ := producerStep_frame hs
      refine Or.inl ?_
      simpa only [ShortPop, SpscRing.avail, hp, hch] using hk
  | consumer back =>
      obtain rfl : back = 0 := ha
      simp only [step] at hs
      obtain ⟨ch', h'⟩ := counters_consumerStep h hs
      have hcons := h.consumer
      cases consumerMove_of_step hs with
      | loadTail c hp => simp [ShortPop, Consumer.decided] at hk
      | checkCached c tail hp =>
          rw [hp] at hcons
          obtain rfl : tail = w.ring.tail := hcons
          rcases SpscRing.decided_popCheckCached h c with hr | ⟨hd, -⟩
          · rw [hr] at hk
            simp [ShortPop, Consumer.decided] at hk
          · obtain ⟨rfl, hlt⟩ := (shortPop_iff_of_decided hd).mp hk
            exact absurd hlt (lt_irrefl _)
      | refresh c tail head hp hhead =>
          -- `k` is what the refresh finds
          rw [hp] at hcons
          obtain rfl : tail = w.ring.tail := hcons
          obtain ⟨n, -, -, rfl, hcur, -⟩ := h.headSince.load hhead
          refine Or.inr (Or.inr ?_)
          rw [h'.held_eq_avail (by rw [h'.head, hcur rfl])]
          exact hk.1
      | checkFresh c tail hp =>
          rw [hp] at hcons
          obtain rfl : tail = w.ring.tail := hcons
          obtain ⟨rfl, hlt⟩ :=
            (shortPop_iff_of_decided (SpscRing.decided_popCheckFresh h c)).mp hk
          refine Or.inl ?_
          simp only [ShortPop, hp]
          omega
      | nextPiece c tail n o u ms out hp =>
          exact Or.inl (by simpa only [ShortPop, hp, Consumer.decided] using hk)
      | copyByte c tail n o u l ms out hp =>
          exact Or.inl (by simpa only [ShortPop, hp, Consumer.decided] using hk)
      | storeTail c tail n out hp =>
          exact Or.inl (by simpa only [ShortPop, hp, Consumer.decided] using hk)

end SystemsPrep.Spsc
