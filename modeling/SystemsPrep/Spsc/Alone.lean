import SystemsPrep.Spsc.Calls
import SystemsPrep.Spsc.BufferSize

/-!
Calls that run alone among the steps of the two sides.

What is left of a call is a function of the ring and of the place the call has
reached. A step of the call does not change what that function says, as long as the
refresh load returns the current value, which it does when the other side has taken
no step since.
-/

namespace SystemsPrep.Spsc

open Base

/-! ### The producer -/

def SpscRing.pushCall (r : SpscRing) : PushCall → SpscRing × Return
  | .push e => ((r.push e).1, .int (r.push e).2)
  | .pushN e n => ((r.pushN e n).1, .size (r.pushN e n).2)

def SpscRing.pushRefreshed (r : SpscRing) : PushCall → SpscRing × Return
  | .push e =>
      if r.capacity ≤ r.head - r.cachedTail then (r, .int (-1)) else (r.pushSlot e, .int 0)
  | .pushN e n =>
      let k := if r.remaining r.head < n then r.remaining r.head else n
      ((r.pushBatch e k).1, .size (r.pushBatch e k).2)

/-- What is left of a call. -/
def SpscRing.pushRest (r : SpscRing) : Producer → SpscRing × Return
  | .idle => (r, .int 0)
  | .loadHead c | .checkCached c _ => r.pushCall c
  | .refresh c _ => ({ r with cachedTail := r.tail } : SpscRing).pushRefreshed c
  | .checkFresh c _ => r.pushRefreshed c
  | .copy c head n ms =>
      ({ r with buf := copyIn r.buf c.source (wrapped (moves ms)), head := head + n }, c.result n)
  | .returned _ ret => (r, ret)

theorem pushRest_pushNCopy (r : SpscRing) (e : ℕ → Byte) (n k : Size) :
    r.pushRest (r.pushNCopy e n k r.head) = ((r.pushBatch e k).1, .size (r.pushBatch e k).2) := by
  rw [SpscRing.pushNCopy, SpscRing.pushBatch]
  split <;> rfl

theorem pushRest_checkCached (r : SpscRing) (c : PushCall) :
    r.pushRest (r.pushCheckCached c r.head) = r.pushCall c := by
  cases c with
  | push e =>
      rw [SpscRing.pushCheckCached, SpscRing.pushCall, SpscRing.push]
      split
      · rw [SpscRing.pushRest, SpscRing.pushRefreshed]
        dsimp only
        split <;> rfl
      · rfl
  | pushN e n =>
      rw [SpscRing.pushCheckCached, SpscRing.pushCall, SpscRing.pushN]
      split
      · rfl
      · exact pushRest_pushNCopy r e n n

theorem pushRest_checkFresh (r : SpscRing) (c : PushCall) :
    r.pushRest (r.pushCheckFresh c r.head) = r.pushRefreshed c := by
  cases c with
  | push e =>
      rw [SpscRing.pushCheckFresh, SpscRing.pushRefreshed]
      split <;> rfl
  | pushN e n => exact pushRest_pushNCopy r e n _

theorem Counters.tail_of_load {w : World} {ct ch : ℕ} (h : Counters w ct ch) {tail : Size}
    (htail : w.tailSince[0]? = some tail) : tail = w.ring.tail := by
  obtain ⟨n, -, -, rfl, hnow, -⟩ := h.tailSince.load htail
  rw [hnow rfl, h.tail]

theorem Counters.head_of_load {w : World} {ct ch : ℕ} (h : Counters w ct ch) {head : Size}
    (hhead : w.headSince[0]? = some head) : head = w.ring.head := by
  obtain ⟨n, -, -, rfl, hnow, -⟩ := h.headSince.load hhead
  rw [hnow rfl, h.head]

theorem moves_next (o u l : ℕ) (ms : List Memcpy) :
    moves (⟨o, u, l + 1⟩ :: ms) = (o, u) :: moves (⟨o + 1, u + 1, l⟩ :: ms) := by
  rw [moves_cons, bytes_succ, List.cons_append, ← moves_cons]

/-- The producer's steps do what is left of its call. -/
theorem pushRest_step {w w' : World} {ct ch : ℕ} (hc : Counters w ct ch) (hk : Contents w)
    (hs : producerStep w 0 = some w') :
    w'.ring.pushRest w'.producer = w.ring.pushRest w.producer := by
  have hprod := hc.producer
  cases producerMove_of_step hs with
  | loadHead c hp =>
      rw [hp]
      rfl
  | checkCached c head hp =>
      rw [hp] at hprod ⊢
      obtain rfl : head = w.ring.head := hprod
      exact pushRest_checkCached w.ring c
  | refresh c head tail hp htail =>
      rw [hp, hc.tail_of_load htail]
      rfl
  | checkFresh c head hp =>
      rw [hp] at hprod ⊢
      obtain rfl : head = w.ring.head := hprod
      exact pushRest_checkFresh w.ring c
  | nextPiece c head n o u ms hp =>
      rw [hp]
      rfl
  | copyByte c head n o u l ms hp =>
      have hmem : o ∈ w.accesses := by
        rw [World.accesses, hp, Producer.accesses, moves_next]
        exact List.mem_append_left _ List.mem_cons_self
      have hlt : o < 2 ^ 64 := (hk.accesses_lt hmem).trans hk.ring.fits
      rw [hp]
      simp only [SpscRing.pushRest, moves_next, wrapped, List.map_cons, copyIn, List.foldl_cons,
        Nat.mod_eq_of_lt hlt]
  | storeHead c head n hp =>
      rw [hp]
      rfl

/-! ### The consumer -/

def SpscRing.popCall (r : SpscRing) : PopCall → SpscRing × Return × (ℕ → Byte)
  | .pop e => ((r.pop e).1, .int (r.pop e).2.1, (r.pop e).2.2)
  | .popN e n => ((r.popN e n).1, .size (r.popN e n).2.1, (r.popN e n).2.2)

/-- What is left of a call after the refresh. -/
def SpscRing.popRefreshed (r : SpscRing) : PopCall → SpscRing × Return × (ℕ → Byte)
  | .pop e =>
      if r.tail = r.cachedHead then (r, .int (-1), e)
      else ((r.popSlot e).1, .int 0, (r.popSlot e).2)
  | .popN e n =>
      let k := if r.avail r.tail < n then r.avail r.tail else n
      ((r.popBatch e k).1, .size (r.popBatch e k).2.1, (r.popBatch e k).2.2)

/-- What is left of a call. -/
def SpscRing.popRest (r : SpscRing) : Consumer → SpscRing × Return × (ℕ → Byte)
  | .idle => (r, .int 0, fun _ => 0)
  | .loadTail c | .checkCached c _ => r.popCall c
  | .refresh c _ => ({ r with cachedHead := r.head } : SpscRing).popRefreshed c
  | .checkFresh c _ => r.popRefreshed c
  | .copy c tail n ms out =>
      ({ r with tail := tail + n }, c.result n, copyOut r.buf out (wrapped (moves ms)))
  | .returned _ ret out => (r, ret, out)

theorem popRest_popNCopy (r : SpscRing) (e : ℕ → Byte) (n k : Size) :
    r.popRest (r.popNCopy e n k r.tail) =
      ((r.popBatch e k).1, .size (r.popBatch e k).2.1, (r.popBatch e k).2.2) := by
  rw [SpscRing.popNCopy, SpscRing.popBatch]
  split <;> rfl

theorem popRest_checkCached (r : SpscRing) (c : PopCall) :
    r.popRest (r.popCheckCached c r.tail) = r.popCall c := by
  cases c with
  | pop e =>
      rw [SpscRing.popCheckCached, SpscRing.popCall, SpscRing.pop]
      split
      · rw [SpscRing.popRest, SpscRing.popRefreshed]
        dsimp only
        split <;> rfl
      · rfl
  | popN e n =>
      rw [SpscRing.popCheckCached, SpscRing.popCall, SpscRing.popN]
      split
      · rfl
      · exact popRest_popNCopy r e n n

theorem popRest_checkFresh (r : SpscRing) (c : PopCall) :
    r.popRest (r.popCheckFresh c r.tail) = r.popRefreshed c := by
  cases c with
  | pop e =>
      rw [SpscRing.popCheckFresh, SpscRing.popRefreshed]
      split <;> rfl
  | popN e n => exact popRest_popNCopy r e n _

/-- The consumer's steps do what is left of its call. -/
theorem popRest_step {w w' : World} {ct ch : ℕ} (hc : Counters w ct ch) (hk : Contents w)
    (hs : consumerStep w 0 = some w') :
    w'.ring.popRest w'.consumer = w.ring.popRest w.consumer := by
  have hcons := hc.consumer
  cases consumerMove_of_step hs with
  | loadTail c hp =>
      rw [hp]
      rfl
  | checkCached c tail hp =>
      rw [hp] at hcons ⊢
      obtain rfl : tail = w.ring.tail := hcons
      exact popRest_checkCached w.ring c
  | refresh c tail head hp hhead =>
      rw [hp, hc.head_of_load hhead]
      rfl
  | checkFresh c tail hp =>
      rw [hp] at hcons ⊢
      obtain rfl : tail = w.ring.tail := hcons
      exact popRest_checkFresh w.ring c
  | nextPiece c tail n o u ms out hp =>
      rw [hp]
      rfl
  | copyByte c tail n o u l ms out hp =>
      have hmem : o ∈ w.accesses := by
        rw [World.accesses, hp, Consumer.accesses, moves_next]
        exact List.mem_append_right _ List.mem_cons_self
      have hlt : o < 2 ^ 64 := (hk.accesses_lt hmem).trans hk.ring.fits
      rw [hp]
      simp only [SpscRing.popRest, moves_next, wrapped, List.map_cons, copyOut, List.foldl_cons,
        Nat.mod_eq_of_lt hlt]
  | storeTail c tail n out hp =>
      rw [hp]
      rfl

/-! ### Whole calls -/

section Calls

variable {alignedAlloc : Bool} {malloc : Size → Option (ℕ → Byte)} {capacity elemSize : Size}
  {r : SpscRing} {as : List Action} {w w' : World} {k : ℕ} {ret : Return}

theorem replicate_step {P : World → Prop} {a : Action}
    (hstep : ∀ v v' : World, (∃ ct ch, Counters v ct ch) → Contents v → P v →
      step v a = some v' → P v')
    (hc : ∃ ct ch, Counters w ct ch) (hk : Contents w) (hP : P w)
    (h : exec step w (List.replicate k a) = some w') : P w' := by
  refine (exec_invariant_on (A := fun b => b = a)
    (I := fun v => (∃ ct ch, Counters v ct ch) ∧ Contents v ∧ P v)
    (fun v b v' hb hI hs => ?_) (fun b hb => List.eq_of_mem_replicate hb) h ⟨hc, hk, hP⟩).2.2
  subst hb
  obtain ⟨⟨ct, ch, hc⟩, hk, hP⟩ := hI
  exact ⟨counters_step v b v' ⟨ct, ch, hc⟩ hs, contents_step hk hc hs,
    hstep v v' ⟨ct, ch, hc⟩ hk hP hs⟩

/-- **A call of the producer that runs alone is the function that describes it.** -/
theorem exec_push_alone {c c' : PushCall}
    (hr : spscRingCreate alignedAlloc malloc capacity elemSize = some r)
    (hfits : capacity.toNat * elemSize.toNat < 2 ^ 64)
    (hw : exec step (World.start r) as = some w)
    (h : exec step w (.push c :: List.replicate k (.producer 0)) = some w')
    (hret : w'.producer = .returned c' ret) : w.ring.pushCall c = (w'.ring, ret) := by
  obtain ⟨t, ht, h⟩ := exec_cons_eq_some.mp h
  have hwt : exec step (World.start r) (as ++ [.push c]) = some t :=
    exec_concat_eq_some.mpr ⟨w, hw, ht⟩
  have hstart : t.ring.pushRest t.producer = w.ring.pushCall c := by
    rw [enterPush_eq_some ht]
    rfl
  have hend : w'.ring.pushRest w'.producer = w.ring.pushCall c :=
    replicate_step (a := .producer 0)
      (P := fun v => v.ring.pushRest v.producer = w.ring.pushCall c)
      (fun v v' ⟨_, _, hc⟩ hk hv hs => (pushRest_step hc hk hs).trans hv)
      (counters_exec hr hwt) (contents_exec hr hfits hwt) hstart h
  rw [← hend, hret]
  rfl

/-- **A call of the consumer that runs alone is the function that describes it.** -/
theorem exec_pop_alone {c c' : PopCall} {out : ℕ → Byte}
    (hr : spscRingCreate alignedAlloc malloc capacity elemSize = some r)
    (hfits : capacity.toNat * elemSize.toNat < 2 ^ 64)
    (hw : exec step (World.start r) as = some w)
    (h : exec step w (.pop c :: List.replicate k (.consumer 0)) = some w')
    (hret : w'.consumer = .returned c' ret out) : w.ring.popCall c = (w'.ring, ret, out) := by
  obtain ⟨t, ht, h⟩ := exec_cons_eq_some.mp h
  have hwt : exec step (World.start r) (as ++ [.pop c]) = some t :=
    exec_concat_eq_some.mpr ⟨w, hw, ht⟩
  have hstart : t.ring.popRest t.consumer = w.ring.popCall c := by
    rw [enterPop_eq_some ht]
    rfl
  have hend : w'.ring.popRest w'.consumer = w.ring.popCall c :=
    replicate_step (a := .consumer 0)
      (P := fun v => v.ring.popRest v.consumer = w.ring.popCall c)
      (fun v v' ⟨_, _, hc⟩ hk hv hs => (popRest_step hc hk hs).trans hv)
      (counters_exec hr hwt) (contents_exec hr hfits hwt) hstart h
  rw [← hend, hret]
  rfl

end Calls

end SystemsPrep.Spsc
