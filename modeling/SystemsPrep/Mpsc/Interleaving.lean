import SystemsPrep.Base.Exec
import SystemsPrep.Mpsc.Queue

/-!
Any number of producers and one consumer on a multi-producer queue, one action
at a time.

A push claims an index by a compare-exchange on the head and only afterwards
writes the cell and raises its flag, so between the two steps the claimed cell is
not ready. A failed compare-exchange leaves the current head in hand and goes
round the loop again; being a weak one, it may fail although the head has not
moved.
-/

namespace SystemsPrep.Mpsc

variable {ι : Type*} [DecidableEq ι] {w : ℕ} {T : Type*}

/-- The next action of a producer's current call of `push`. -/
inductive Producer (w : ℕ) (T : Type*)
  | idle
  | loadHead (value : T)
  | loadTail (value : T) (head : BitVec w)
  | testFull (value : T) (head tail : BitVec w)
  | compareExchange (value : T) (head tail : BitVec w)
  | write (value : T) (head : BitVec w)
  | storeReady (value : T) (head : BitVec w)
  | returned (value : T) (ret : Bool)

/-- The next action of the consumer's current call of `pop`. A call that returns
true has moved a value out. -/
inductive Consumer (w : ℕ) (T : Type*)
  | idle
  | loadTail
  | loadHead (tail : BitVec w)
  | testEmpty (tail head : BitVec w)
  | loadReady (tail : BitVec w)
  | moveOut (tail : BitVec w)
  | clearReady (tail : BitVec w) (value : T)
  | storeTail (tail : BitVec w) (value : T)
  | returned (ret : Option T)

/-- The queue and its users. The rest is bookkeeping: the pushes called and the
claims made, each with its producer, the values delivered, and for each producer
the number of claims there were when it last read the head. -/
structure World (ι : Type*) (w : ℕ) (T : Type*) where
  queue : MpscQueue w T
  producers : ι → Producer w T
  consumer : Consumer w T
  calls : List (ι × T)
  claims : List (ι × T)
  delivered : List T
  seen : ι → ℕ

/-- A fresh queue with nobody in a call. -/
def World.start (ι : Type*) (q : MpscQueue w T) : World ι w T where
  queue := q
  producers _ := .idle
  consumer := .idle
  calls := []
  claims := []
  delivered := []
  seen _ := 0

/-- Enter a call, or take the next action of the current one. `spurious` makes a
compare-exchange fail that need not; `left` is what moving a value out of a cell
leaves there. -/
inductive Action (ι : Type*) (T : Type*)
  | push (p : ι) (value : T)
  | producer (p : ι) (spurious : Bool)
  | pop
  | consumer (left : T)

def World.setProducer (s : World ι w T) (p : ι) (x : Producer w T) : World ι w T :=
  { s with producers := Function.update s.producers p x }

def World.reloadHead (s : World ι w T) (p : ι) (value : T) : World ι w T :=
  { s with
    producers := Function.update s.producers p (.loadTail value s.queue.head)
    seen := Function.update s.seen p s.claims.length }

def enterPush (s : World ι w T) (p : ι) (value : T) : Option (World ι w T) :=
  match s.producers p with
  | .idle | .returned _ _ =>
      some { s.setProducer p (.loadHead value) with calls := s.calls ++ [(p, value)] }
  | _ => none

def producerStep (s : World ι w T) (p : ι) (spurious : Bool) : Option (World ι w T) :=
  match s.producers p with
  | .idle | .returned _ _ => none
  | .loadHead value => some (s.reloadHead p value)
  | .loadTail value head => some (s.setProducer p (.testFull value head s.queue.tail))
  | .testFull value head tail =>
      some (s.setProducer p
        (if s.queue.full head tail then .returned value false
          else .compareExchange value head tail))
  | .compareExchange value head _ =>
      if s.queue.head = head ∧ spurious = false then
        some { s.setProducer p (.write value head) with
          queue := { s.queue with head := head + 1 }
          claims := s.claims ++ [(p, value)] }
      else some (s.reloadHead p value)
  | .write value head =>
      some { s.setProducer p (.storeReady value head) with
        queue := s.queue.setData (s.queue.element head) value }
  | .storeReady value head =>
      some { s.setProducer p (.returned value true) with
        queue := s.queue.setReady (s.queue.element head) true }

def enterPop (s : World ι w T) : Option (World ι w T) :=
  match s.consumer with
  | .idle | .returned _ => some { s with consumer := .loadTail }
  | _ => none

def consumerStep (s : World ι w T) (left : T) : Option (World ι w T) :=
  match s.consumer with
  | .idle | .returned _ => none
  | .loadTail => some { s with consumer := .loadHead s.queue.tail }
  | .loadHead tail => some { s with consumer := .testEmpty tail s.queue.head }
  | .testEmpty tail head =>
      some { s with
        consumer := if s.queue.empty head tail then .returned none else .loadReady tail }
  | .loadReady tail =>
      some { s with
        consumer :=
          if (s.queue.items (s.queue.element tail)).isReady then .moveOut tail
          else .returned none }
  | .moveOut tail =>
      some { s with
        queue := s.queue.setData (s.queue.element tail) left
        consumer := .clearReady tail (s.queue.items (s.queue.element tail)).data }
  | .clearReady tail value =>
      some { s with
        queue := s.queue.setReady (s.queue.element tail) false
        consumer := .storeTail tail value }
  | .storeTail tail value =>
      some { s with
        queue := { s.queue with tail := tail + 1 }
        delivered := s.delivered ++ [value]
        consumer := .returned (some value) }

def step (s : World ι w T) : Action ι T → Option (World ι w T)
  | .push p value => enterPush s p value
  | .producer p spurious => producerStep s p spurious
  | .pop => enterPop s
  | .consumer left => consumerStep s left

/-! ### What a step does -/

theorem enterPush_eq_some {s s' : World ι w T} {p : ι} {value : T}
    (h : enterPush s p value = some s') :
    (s.producers p = .idle ∨ ∃ v ret, s.producers p = .returned v ret) ∧
      s' = { s.setProducer p (.loadHead value) with calls := s.calls ++ [(p, value)] } := by
  unfold enterPush at h
  split at h <;> rename_i hp
  · cases h
    exact ⟨Or.inl hp, rfl⟩
  · cases h
    exact ⟨Or.inr ⟨_, _, hp⟩, rfl⟩
  · cases h

omit [DecidableEq ι] in
theorem enterPop_eq_some {s s' : World ι w T} (h : enterPop s = some s') :
    (s.consumer = .idle ∨ ∃ ret, s.consumer = .returned ret) ∧
      s' = { s with consumer := .loadTail } := by
  unfold enterPop at h
  split at h <;> rename_i hp
  · cases h
    exact ⟨Or.inl hp, rfl⟩
  · cases h
    exact ⟨Or.inr ⟨_, hp⟩, rfl⟩
  · cases h

/-- The steps of a producer's current call, one constructor for each outcome. -/
inductive ProducerMove (s : World ι w T) (p : ι) (spurious : Bool) : World ι w T → Prop
  | loadHead (value : T) (hp : s.producers p = .loadHead value) :
      ProducerMove s p spurious (s.reloadHead p value)
  | loadTail (value : T) (head : BitVec w) (hp : s.producers p = .loadTail value head) :
      ProducerMove s p spurious (s.setProducer p (.testFull value head s.queue.tail))
  | full (value : T) (head tail : BitVec w) (hp : s.producers p = .testFull value head tail)
      (hfull : s.queue.full head tail = true) :
      ProducerMove s p spurious (s.setProducer p (.returned value false))
  | notFull (value : T) (head tail : BitVec w) (hp : s.producers p = .testFull value head tail)
      (hfull : s.queue.full head tail = false) :
      ProducerMove s p spurious (s.setProducer p (.compareExchange value head tail))
  | claim (value : T) (head tail : BitVec w)
      (hp : s.producers p = .compareExchange value head tail) (heq : s.queue.head = head)
      (hspurious : spurious = false) :
      ProducerMove s p spurious { s.setProducer p (.write value head) with
        queue := { s.queue with head := head + 1 }
        claims := s.claims ++ [(p, value)] }
  | retry (value : T) (head tail : BitVec w)
      (hp : s.producers p = .compareExchange value head tail)
      (hfail : s.queue.head = head → spurious = true) :
      ProducerMove s p spurious (s.reloadHead p value)
  | write (value : T) (head : BitVec w) (hp : s.producers p = .write value head) :
      ProducerMove s p spurious { s.setProducer p (.storeReady value head) with
        queue := s.queue.setData (s.queue.element head) value }
  | storeReady (value : T) (head : BitVec w) (hp : s.producers p = .storeReady value head) :
      ProducerMove s p spurious { s.setProducer p (.returned value true) with
        queue := s.queue.setReady (s.queue.element head) true }

theorem producerMove_of_step {s s' : World ι w T} {p : ι} {spurious : Bool}
    (h : producerStep s p spurious = some s') : ProducerMove s p spurious s' := by
  unfold producerStep at h
  split at h <;> rename_i hp
  · cases h
  · cases h
  · cases h
    exact .loadHead _ hp
  · cases h
    exact .loadTail _ _ hp
  · rename_i value head tail
    cases h
    cases hfull : s.queue.full head tail with
    | true => exact .full _ _ _ hp hfull
    | false => exact .notFull _ _ _ hp hfull
  · split at h <;> rename_i hcas <;> cases h
    · exact .claim _ _ _ hp hcas.1 hcas.2
    · exact .retry _ _ _ hp fun heq => by simpa [heq] using hcas
  · cases h
    exact .write _ _ hp
  · cases h
    exact .storeReady _ _ hp

/-- The steps of the consumer's current call. -/
inductive ConsumerMove (s : World ι w T) (left : T) : World ι w T → Prop
  | loadTail (hp : s.consumer = .loadTail) :
      ConsumerMove s left { s with consumer := .loadHead s.queue.tail }
  | loadHead (tail : BitVec w) (hp : s.consumer = .loadHead tail) :
      ConsumerMove s left { s with consumer := .testEmpty tail s.queue.head }
  | empty (tail head : BitVec w) (hp : s.consumer = .testEmpty tail head)
      (hempty : s.queue.empty head tail = true) :
      ConsumerMove s left { s with consumer := .returned none }
  | notEmpty (tail head : BitVec w) (hp : s.consumer = .testEmpty tail head)
      (hempty : s.queue.empty head tail = false) :
      ConsumerMove s left { s with consumer := .loadReady tail }
  | ready (tail : BitVec w) (hp : s.consumer = .loadReady tail)
      (hready : (s.queue.items (s.queue.element tail)).isReady = true) :
      ConsumerMove s left { s with consumer := .moveOut tail }
  | notReady (tail : BitVec w) (hp : s.consumer = .loadReady tail)
      (hready : (s.queue.items (s.queue.element tail)).isReady = false) :
      ConsumerMove s left { s with consumer := .returned none }
  | moveOut (tail : BitVec w) (hp : s.consumer = .moveOut tail) :
      ConsumerMove s left { s with
        queue := s.queue.setData (s.queue.element tail) left
        consumer := .clearReady tail (s.queue.items (s.queue.element tail)).data }
  | clearReady (tail : BitVec w) (value : T) (hp : s.consumer = .clearReady tail value) :
      ConsumerMove s left { s with
        queue := s.queue.setReady (s.queue.element tail) false
        consumer := .storeTail tail value }
  | storeTail (tail : BitVec w) (value : T) (hp : s.consumer = .storeTail tail value) :
      ConsumerMove s left { s with
        queue := { s.queue with tail := tail + 1 }
        delivered := s.delivered ++ [value]
        consumer := .returned (some value) }

omit [DecidableEq ι] in
theorem consumerMove_of_step {s s' : World ι w T} {left : T}
    (h : consumerStep s left = some s') : ConsumerMove s left s' := by
  unfold consumerStep at h
  split at h <;> rename_i hp
  · cases h
  · cases h
  · cases h
    exact .loadTail hp
  · cases h
    exact .loadHead _ hp
  · rename_i tail head
    cases h
    cases hempty : s.queue.empty head tail with
    | true => exact .empty _ _ hp hempty
    | false => exact .notEmpty _ _ hp hempty
  · rename_i tail
    cases h
    cases hready : (s.queue.items (s.queue.element tail)).isReady with
    | true => exact .ready _ hp hready
    | false => exact .notReady _ hp hready
  · cases h
    exact .moveOut _ hp
  · cases h
    exact .clearReady _ _ hp
  · cases h
    exact .storeTail _ _ hp

/-- Claims are never taken back. -/
theorem claims_isPrefix {s s' : World ι w T} {a : Action ι T} (hs : step s a = some s') :
    s.claims <+: s'.claims := by
  cases a with
  | push p value =>
      obtain ⟨-, rfl⟩ := enterPush_eq_some hs
      exact List.prefix_refl _
  | producer p spurious =>
      cases producerMove_of_step hs with
      | claim => exact List.prefix_append _ _
      | _ => exact List.prefix_refl _
  | pop =>
      obtain ⟨-, rfl⟩ := enterPop_eq_some hs
      exact List.prefix_refl _
  | consumer left => cases consumerMove_of_step hs <;> exact List.prefix_refl _

end SystemsPrep.Mpsc
