import SystemsPrep.Base.Exec
import SystemsPrep.Base.Window
import SystemsPrep.Spsc.Ring
import Mathlib.Logic.Function.Basic

/-!
One producer and one consumer on an SPSC ring, one action at a time.

A call is a small program over the shared ring: load the own index, test the
cached index of the peer, perhaps refresh it and test again, move the bytes of
the elements one by one, store the own index. The two programs interleave
freely. A refresh load names how many stores ago the value it returns was
current; it may not return anything older than the value the same side loaded
last.
-/

namespace SystemsPrep.Spsc

open Base

abbrev Elem := List Byte

def elements (esize : ℕ) (user : ℕ → Byte) (n : ℕ) : List Elem :=
  (List.range n).map fun i => (List.range esize).map fun j => user (i * esize + j)

/-- What a call returns: the `int` of the single calls, the `size_t` of the
batch calls. -/
inductive Return
  | int (v : Int)
  | size (n : Size)
  deriving DecidableEq

/-! ### The producer's calls -/

inductive PushCall
  | push (e : ℕ → Byte)
  | pushN (e : ℕ → Byte) (n : Size)

def PushCall.source : PushCall → ℕ → Byte
  | .push e => e
  | .pushN e _ => e

def PushCall.result : PushCall → Size → Return
  | .push _, _ => .int 0
  | .pushN _ _, n => .size n

/-- The next action of the producer's current call. `copy` has accepted `n`
elements and still has `copies` to make; with none left it stores the index. -/
inductive Producer
  | idle
  | loadHead (c : PushCall)
  | checkCached (c : PushCall) (head : Size)
  | refresh (c : PushCall) (head : Size)
  | checkFresh (c : PushCall) (head : Size)
  | copy (c : PushCall) (head n : Size) (copies : List Memcpy)
  | returned (c : PushCall) (ret : Return)

namespace SpscRing

/-- The free slots as `spsc_ring_push_n` computes them from the cached tail. -/
def remaining (r : SpscRing) (head : Size) : Size := r.capacity - (head - r.cachedTail)

/-- `spsc_ring_push_n` from `if (n == 0) return 0` on, with `k` of the `n`
requested elements admitted. -/
def pushNCopy (r : SpscRing) (e : ℕ → Byte) (n k head : Size) : Producer :=
  if k = 0 then .returned (.pushN e n) (.size 0)
  else .copy (.pushN e n) head k (r.batchCopies head k)

def pushCheckCached (r : SpscRing) : PushCall → Size → Producer
  | .push e, head =>
      if r.capacity ≤ head - r.cachedTail then .refresh (.push e) head
      else .copy (.push e) head 1 (r.slotCopies head)
  | .pushN e n, head =>
      if r.remaining head < n then .refresh (.pushN e n) head
      else r.pushNCopy e n n head

def pushCheckFresh (r : SpscRing) : PushCall → Size → Producer
  | .push e, head =>
      if r.capacity ≤ head - r.cachedTail then .returned (.push e) (.int (-1))
      else .copy (.push e) head 1 (r.slotCopies head)
  | .pushN e n, head =>
      r.pushNCopy e n (if r.remaining head < n then r.remaining head else n) head

end SpscRing

/-! ### The consumer's calls -/

/-- A call of `spsc_ring_pop` or `spsc_ring_pop_n` with the bytes of the caller's
buffer. -/
inductive PopCall
  | pop (e : ℕ → Byte)
  | popN (e : ℕ → Byte) (n : Size)

def PopCall.buffer : PopCall → ℕ → Byte
  | .pop e => e
  | .popN e _ => e

def PopCall.result : PopCall → Size → Return
  | .pop _, _ => .int 0
  | .popN _ _, n => .size n

/-- The next action of the consumer's current call, with the caller's buffer as
it stands once something may have been copied to it. -/
inductive Consumer
  | idle
  | loadTail (c : PopCall)
  | checkCached (c : PopCall) (tail : Size)
  | refresh (c : PopCall) (tail : Size)
  | checkFresh (c : PopCall) (tail : Size)
  | copy (c : PopCall) (tail n : Size) (copies : List Memcpy) (out : ℕ → Byte)
  | returned (c : PopCall) (ret : Return) (out : ℕ → Byte)

namespace SpscRing

/-- The used slots as `spsc_ring_pop_n` computes them from the cached head. -/
def avail (r : SpscRing) (tail : Size) : Size := r.cachedHead - tail

/-- `spsc_ring_pop_n` from `if (n == 0) return 0` on. -/
def popNCopy (r : SpscRing) (e : ℕ → Byte) (n k tail : Size) : Consumer :=
  if k = 0 then .returned (.popN e n) (.size 0) e
  else .copy (.popN e n) tail k (r.batchCopies tail k) e

def popCheckCached (r : SpscRing) : PopCall → Size → Consumer
  | .pop e, tail =>
      if tail = r.cachedHead then .refresh (.pop e) tail
      else .copy (.pop e) tail 1 (r.slotCopies tail) e
  | .popN e n, tail =>
      if r.avail tail < n then .refresh (.popN e n) tail
      else r.popNCopy e n n tail

def popCheckFresh (r : SpscRing) : PopCall → Size → Consumer
  | .pop e, tail =>
      if tail = r.cachedHead then .returned (.pop e) (.int (-1)) e
      else .copy (.pop e) tail 1 (r.slotCopies tail) e
  | .popN e n, tail =>
      r.popNCopy e n (if r.avail tail < n then r.avail tail else n) tail

end SpscRing

/-! ### The two together -/

/-- The ring, both parties, the values either index has held since its reader
loaded it last (newest first), and what has gone in and come out so far. -/
structure World where
  ring : SpscRing
  producer : Producer
  consumer : Consumer
  tailSince : List Size
  headSince : List Size
  accepted : List Elem
  handed : List Elem

/-- Both parties idle on a ring as `spsc_ring_create` returns it. -/
def World.start (r : SpscRing) : World where
  ring := r
  producer := .idle
  consumer := .idle
  tailSince := [r.tail]
  headSince := [r.head]
  accepted := []
  handed := []

/-- Enter a call, or take the next action of the current one. A refresh load
returns the value held `back` stores ago. -/
inductive Action
  | push (c : PushCall)
  | producer (back : ℕ)
  | pop (c : PopCall)
  | consumer (back : ℕ)

def enterPush (w : World) (c : PushCall) : Option World :=
  match w.producer with
  | .idle | .returned _ _ => some { w with producer := .loadHead c }
  | _ => none

def producerStep (w : World) (back : ℕ) : Option World :=
  match w.producer with
  | .idle | .returned _ _ => none
  | .loadHead c => some { w with producer := .checkCached c w.ring.head }
  | .checkCached c head => some { w with producer := w.ring.pushCheckCached c head }
  | .refresh c head =>
      w.tailSince[back]?.map fun tail =>
        { w with
          ring := { w.ring with cachedTail := tail }
          tailSince := w.tailSince.take (back + 1)
          producer := .checkFresh c head }
  | .checkFresh c head => some { w with producer := w.ring.pushCheckFresh c head }
  | .copy c head n (⟨_, _, 0⟩ :: ms) => some { w with producer := .copy c head n ms }
  | .copy c head n (⟨o, u, l + 1⟩ :: ms) =>
      some { w with
        ring := { w.ring with buf := Function.update w.ring.buf o (c.source u) }
        producer := .copy c head n (⟨o + 1, u + 1, l⟩ :: ms) }
  | .copy c head n [] =>
      some { w with
        ring := { w.ring with head := head + n }
        headSince := (head + n) :: w.headSince
        accepted := w.accepted ++ elements w.ring.esize c.source n.toNat
        producer := .returned c (c.result n) }

def enterPop (w : World) (c : PopCall) : Option World :=
  match w.consumer with
  | .idle | .returned _ _ _ => some { w with consumer := .loadTail c }
  | _ => none

def consumerStep (w : World) (back : ℕ) : Option World :=
  match w.consumer with
  | .idle | .returned _ _ _ => none
  | .loadTail c => some { w with consumer := .checkCached c w.ring.tail }
  | .checkCached c tail => some { w with consumer := w.ring.popCheckCached c tail }
  | .refresh c tail =>
      w.headSince[back]?.map fun head =>
        { w with
          ring := { w.ring with cachedHead := head }
          headSince := w.headSince.take (back + 1)
          consumer := .checkFresh c tail }
  | .checkFresh c tail => some { w with consumer := w.ring.popCheckFresh c tail }
  | .copy c tail n (⟨_, _, 0⟩ :: ms) out => some { w with consumer := .copy c tail n ms out }
  | .copy c tail n (⟨o, u, l + 1⟩ :: ms) out =>
      some { w with
        consumer := .copy c tail n (⟨o + 1, u + 1, l⟩ :: ms)
          (Function.update out u (w.ring.buf o)) }
  | .copy c tail n [] out =>
      some { w with
        ring := { w.ring with tail := tail + n }
        tailSince := (tail + n) :: w.tailSince
        handed := w.handed ++ elements w.ring.esize out n.toNat
        consumer := .returned c (c.result n) out }

def step (w : World) : Action → Option World
  | .push c => enterPush w c
  | .producer back => producerStep w back
  | .pop c => enterPop w c
  | .consumer back => consumerStep w back

/-! ### What a step does -/

theorem enterPush_eq_some {w w' : World} {c : PushCall} (h : enterPush w c = some w') :
    w' = { w with producer := .loadHead c } := by
  unfold enterPush at h
  split at h <;> cases h <;> rfl

theorem enterPop_eq_some {w w' : World} {c : PopCall} (h : enterPop w c = some w') :
    w' = { w with consumer := .loadTail c } := by
  unfold enterPop at h
  split at h <;> cases h <;> rfl

/-- The steps of the producer's current call, one constructor for each. -/
inductive ProducerMove (w : World) (back : ℕ) : World → Prop
  | loadHead (c : PushCall) (hp : w.producer = .loadHead c) :
      ProducerMove w back { w with producer := .checkCached c w.ring.head }
  | checkCached (c : PushCall) (head : Size) (hp : w.producer = .checkCached c head) :
      ProducerMove w back { w with producer := w.ring.pushCheckCached c head }
  | refresh (c : PushCall) (head tail : Size) (hp : w.producer = .refresh c head)
      (htail : w.tailSince[back]? = some tail) :
      ProducerMove w back { w with
        ring := { w.ring with cachedTail := tail }
        tailSince := w.tailSince.take (back + 1)
        producer := .checkFresh c head }
  | checkFresh (c : PushCall) (head : Size) (hp : w.producer = .checkFresh c head) :
      ProducerMove w back { w with producer := w.ring.pushCheckFresh c head }
  | nextPiece (c : PushCall) (head n : Size) (o u : ℕ) (ms : List Memcpy)
      (hp : w.producer = .copy c head n (⟨o, u, 0⟩ :: ms)) :
      ProducerMove w back { w with producer := .copy c head n ms }
  | copyByte (c : PushCall) (head n : Size) (o u l : ℕ) (ms : List Memcpy)
      (hp : w.producer = .copy c head n (⟨o, u, l + 1⟩ :: ms)) :
      ProducerMove w back { w with
        ring := { w.ring with buf := Function.update w.ring.buf o (c.source u) }
        producer := .copy c head n (⟨o + 1, u + 1, l⟩ :: ms) }
  | storeHead (c : PushCall) (head n : Size) (hp : w.producer = .copy c head n []) :
      ProducerMove w back { w with
        ring := { w.ring with head := head + n }
        headSince := (head + n) :: w.headSince
        accepted := w.accepted ++ elements w.ring.esize c.source n.toNat
        producer := .returned c (c.result n) }

theorem producerMove_of_step {w w' : World} {back : ℕ} (h : producerStep w back = some w') :
    ProducerMove w back w' := by
  unfold producerStep at h
  split at h <;> rename_i hp
  · cases h
  · cases h
  · cases h
    exact .loadHead _ hp
  · cases h
    exact .checkCached _ _ hp
  · obtain ⟨tail, htail, rfl⟩ := Option.map_eq_some_iff.mp h
    exact .refresh _ _ tail hp htail
  · cases h
    exact .checkFresh _ _ hp
  · cases h
    exact .nextPiece _ _ _ _ _ _ hp
  · cases h
    exact .copyByte _ _ _ _ _ _ _ hp
  · cases h
    exact .storeHead _ _ _ hp

/-- The steps of the consumer's current call. -/
inductive ConsumerMove (w : World) (back : ℕ) : World → Prop
  | loadTail (c : PopCall) (hp : w.consumer = .loadTail c) :
      ConsumerMove w back { w with consumer := .checkCached c w.ring.tail }
  | checkCached (c : PopCall) (tail : Size) (hp : w.consumer = .checkCached c tail) :
      ConsumerMove w back { w with consumer := w.ring.popCheckCached c tail }
  | refresh (c : PopCall) (tail head : Size) (hp : w.consumer = .refresh c tail)
      (hhead : w.headSince[back]? = some head) :
      ConsumerMove w back { w with
        ring := { w.ring with cachedHead := head }
        headSince := w.headSince.take (back + 1)
        consumer := .checkFresh c tail }
  | checkFresh (c : PopCall) (tail : Size) (hp : w.consumer = .checkFresh c tail) :
      ConsumerMove w back { w with consumer := w.ring.popCheckFresh c tail }
  | nextPiece (c : PopCall) (tail n : Size) (o u : ℕ) (ms : List Memcpy) (out : ℕ → Byte)
      (hp : w.consumer = .copy c tail n (⟨o, u, 0⟩ :: ms) out) :
      ConsumerMove w back { w with consumer := .copy c tail n ms out }
  | copyByte (c : PopCall) (tail n : Size) (o u l : ℕ) (ms : List Memcpy) (out : ℕ → Byte)
      (hp : w.consumer = .copy c tail n (⟨o, u, l + 1⟩ :: ms) out) :
      ConsumerMove w back { w with
        consumer := .copy c tail n (⟨o + 1, u + 1, l⟩ :: ms)
          (Function.update out u (w.ring.buf o)) }
  | storeTail (c : PopCall) (tail n : Size) (out : ℕ → Byte)
      (hp : w.consumer = .copy c tail n [] out) :
      ConsumerMove w back { w with
        ring := { w.ring with tail := tail + n }
        tailSince := (tail + n) :: w.tailSince
        handed := w.handed ++ elements w.ring.esize out n.toNat
        consumer := .returned c (c.result n) out }

theorem consumerMove_of_step {w w' : World} {back : ℕ} (h : consumerStep w back = some w') :
    ConsumerMove w back w' := by
  unfold consumerStep at h
  split at h <;> rename_i hp
  · cases h
  · cases h
  · cases h
    exact .loadTail _ hp
  · cases h
    exact .checkCached _ _ hp
  · obtain ⟨head, hhead, rfl⟩ := Option.map_eq_some_iff.mp h
    exact .refresh _ _ head hp hhead
  · cases h
    exact .checkFresh _ _ hp
  · cases h
    exact .nextPiece _ _ _ _ _ _ _ hp
  · cases h
    exact .copyByte _ _ _ _ _ _ _ _ hp
  · cases h
    exact .storeTail _ _ _ _ hp

theorem producerStep_frame {w w' : World} {back : ℕ} (h : producerStep w back = some w') :
    w'.consumer = w.consumer ∧ w'.ring.tail = w.ring.tail ∧
      w'.ring.cachedHead = w.ring.cachedHead ∧ w'.handed = w.handed := by
  cases producerMove_of_step h <;> exact ⟨rfl, rfl, rfl, rfl⟩

theorem consumerStep_frame {w w' : World} {back : ℕ} (h : consumerStep w back = some w') :
    w'.producer = w.producer ∧ w'.ring.head = w.ring.head ∧
      w'.ring.cachedTail = w.ring.cachedTail ∧ w'.ring.buf = w.ring.buf ∧
      w'.ring.capacity = w.ring.capacity ∧ w'.accepted = w.accepted := by
  cases consumerMove_of_step h <;> exact ⟨rfl, rfl, rfl, rfl, rfl, rfl⟩

/-- Everything the consumer has been handed: the elements of the calls that have
stored the tail, and those a call in progress has copied out completely. -/
def World.delivered (w : World) : List Elem :=
  w.handed ++
    match w.consumer with
    | .copy _ _ n ms out =>
        elements w.ring.esize out ((n.toNat * w.ring.esize - (moves ms).length) / w.ring.esize)
    | _ => []

end SystemsPrep.Spsc
