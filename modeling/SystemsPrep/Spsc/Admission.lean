import SystemsPrep.Spsc.Contents
import SystemsPrep.Spsc.Refusal

/-!
What the tests of a call lead to.

The test of the cached index admits a transfer, leads to a refresh, or refuses a batch of
none; the test after the refresh admits or refuses. What is admitted is no more than was
asked for, in one or two copies. A refusal against the current index of the peer means
that the ring is full, or empty.
-/

namespace SystemsPrep.Spsc

open Base

inductive Side
  | producer
  | consumer
  deriving DecidableEq

def PushCall.refusal : PushCall → Return
  | .push _ => .int (-1)
  | .pushN _ _ => .size 0

def PopCall.refusal : PopCall → Return
  | .pop _ => .int (-1)
  | .popN _ _ => .size 0

def Producer.answer : Producer → Option Return
  | .returned _ ret => some ret
  | _ => none

def Consumer.answer : Consumer → Option Return
  | .returned _ ret _ => some ret
  | _ => none

def Producer.current? : Producer → Option PushCall
  | .idle | .returned _ _ => none
  | .loadHead c | .checkCached c _ | .refresh c _ | .checkFresh c _ | .copy c _ _ _ => some c

def Consumer.current? : Consumer → Option PopCall
  | .idle | .returned _ _ _ => none
  | .loadTail c | .checkCached c _ | .refresh c _ | .checkFresh c _ | .copy c _ _ _ _ => some c

def World.contents (w : World) : List Elem := w.accepted.drop w.handed.length

/-! ### The tests -/

/-- A transfer of `n` elements that a call may make, and the copies it takes. -/
structure Admitted (requested : ℕ) (n : Size) (ms : List Memcpy) : Prop where
  le : n.toNat ≤ requested
  pieces : ms.length ≤ 2

theorem admitted_slot (r : SpscRing) (index : Size) : Admitted 1 1 (r.slotCopies index) :=
  ⟨le_refl 1, Nat.le_succ 1⟩

theorem admitted_batch (r : SpscRing) (index : Size) {k n : Size} (h : k ≤ n) :
    Admitted n.toNat k (r.batchCopies index k) := by
  have hrest : ∀ (wraps : Prop) [Decidable wraps] (m : Memcpy),
      (if wraps then [m] else []).length ≤ 1 := by
    intro wraps _ m
    split
    · exact le_refl 1
    · exact Nat.zero_le 1
  refine ⟨h, ?_⟩
  rw [SpscRing.batchCopies, List.length_cons]
  exact Nat.succ_le_succ (hrest ..)

theorem answer_pushNCopy (r : SpscRing) (e : ℕ → Byte) (n k head : Size) :
    (r.pushNCopy e n k head).answer = if k = 0 then some (.size 0) else none := by
  unfold SpscRing.pushNCopy
  split <;> rfl

theorem answer_popNCopy (r : SpscRing) (e : ℕ → Byte) (n k tail : Size) :
    (r.popNCopy e n k tail).answer = if k = 0 then some (.size 0) else none := by
  unfold SpscRing.popNCopy
  split <;> rfl

theorem pushNCopy_cases (r : SpscRing) (e : ℕ → Byte) (n k head : Size) :
    (k = 0 ∧ r.pushNCopy e n k head = .returned (.pushN e n) (.size 0)) ∨
      r.pushNCopy e n k head = .copy (.pushN e n) head k (r.batchCopies head k) := by
  unfold SpscRing.pushNCopy
  split
  · exact Or.inl ⟨‹_›, rfl⟩
  · exact Or.inr rfl

theorem popNCopy_cases (r : SpscRing) (e : ℕ → Byte) (n k tail : Size) :
    (k = 0 ∧ r.popNCopy e n k tail = .returned (.popN e n) (.size 0) e) ∨
      r.popNCopy e n k tail = .copy (.popN e n) tail k (r.batchCopies tail k) e := by
  unfold SpscRing.popNCopy
  split
  · exact Or.inl ⟨‹_›, rfl⟩
  · exact Or.inr rfl

theorem pushCheckCached_cases (r : SpscRing) (c : PushCall) (head : Size) :
    r.pushCheckCached c head = .refresh c head ∨
      (∃ n ms, Admitted c.requested n ms ∧ r.pushCheckCached c head = .copy c head n ms) ∨
      (c.requested = 0 ∧ r.pushCheckCached c head = .returned c c.refusal) := by
  cases c with
  | push e =>
      simp only [SpscRing.pushCheckCached]
      split
      · exact Or.inl rfl
      · exact Or.inr (Or.inl ⟨1, _, admitted_slot r _, rfl⟩)
  | pushN e n =>
      simp only [SpscRing.pushCheckCached]
      split
      · exact Or.inl rfl
      · rcases pushNCopy_cases r e n n head with ⟨hn, hret⟩ | hcopy
        · exact Or.inr (Or.inr ⟨congrArg BitVec.toNat hn, hret⟩)
        · exact Or.inr (Or.inl ⟨n, _, admitted_batch r _ (BitVec.le_refl n), hcopy⟩)

theorem pushCheckFresh_cases (r : SpscRing) (c : PushCall) (head : Size) :
    (∃ n ms, Admitted c.requested n ms ∧ r.pushCheckFresh c head = .copy c head n ms) ∨
      r.pushCheckFresh c head = .returned c c.refusal := by
  cases c with
  | push e =>
      simp only [SpscRing.pushCheckFresh]
      split
      · exact Or.inr rfl
      · exact Or.inl ⟨1, _, admitted_slot r _, rfl⟩
  | pushN e n =>
      have hle : (if r.remaining head < n then r.remaining head else n) ≤ n := by
        split
        · exact BitVec.le_of_lt ‹_›
        · exact BitVec.le_refl n
      rcases pushNCopy_cases r e n _ head with ⟨-, hret⟩ | hcopy
      · exact Or.inr hret
      · exact Or.inl ⟨_, _, admitted_batch r _ hle, hcopy⟩

theorem popCheckCached_cases (r : SpscRing) (c : PopCall) (tail : Size) :
    r.popCheckCached c tail = .refresh c tail ∨
      (∃ n ms, Admitted c.requested n ms ∧ r.popCheckCached c tail = .copy c tail n ms c.buffer) ∨
      (c.requested = 0 ∧ r.popCheckCached c tail = .returned c c.refusal c.buffer) := by
  cases c with
  | pop e =>
      simp only [SpscRing.popCheckCached]
      split
      · exact Or.inl rfl
      · exact Or.inr (Or.inl ⟨1, _, admitted_slot r _, rfl⟩)
  | popN e n =>
      simp only [SpscRing.popCheckCached]
      split
      · exact Or.inl rfl
      · rcases popNCopy_cases r e n n tail with ⟨hn, hret⟩ | hcopy
        · exact Or.inr (Or.inr ⟨congrArg BitVec.toNat hn, hret⟩)
        · exact Or.inr (Or.inl ⟨n, _, admitted_batch r _ (BitVec.le_refl n), hcopy⟩)

theorem popCheckFresh_cases (r : SpscRing) (c : PopCall) (tail : Size) :
    (∃ n ms, Admitted c.requested n ms ∧ r.popCheckFresh c tail = .copy c tail n ms c.buffer) ∨
      r.popCheckFresh c tail = .returned c c.refusal c.buffer := by
  cases c with
  | pop e =>
      simp only [SpscRing.popCheckFresh]
      split
      · exact Or.inr rfl
      · exact Or.inl ⟨1, _, admitted_slot r _, rfl⟩
  | popN e n =>
      have hle : (if r.avail tail < n then r.avail tail else n) ≤ n := by
        split
        · exact BitVec.le_of_lt ‹_›
        · exact BitVec.le_refl n
      rcases popNCopy_cases r e n _ tail with ⟨-, hret⟩ | hcopy
      · exact Or.inr hret
      · exact Or.inl ⟨_, _, admitted_batch r _ hle, hcopy⟩

theorem answer_pushCheckFresh_congr {r r' : SpscRing} (hcap : r'.capacity = r.capacity)
    (hct : r'.cachedTail = r.cachedTail) (c : PushCall) (head : Size) :
    (r'.pushCheckFresh c head).answer = (r.pushCheckFresh c head).answer := by
  cases c with
  | push e =>
      simp only [SpscRing.pushCheckFresh, hcap, hct]
      split <;> rfl
  | pushN e n =>
      have hrem : r'.remaining head = r.remaining head := by
        rw [SpscRing.remaining, hcap, hct, SpscRing.remaining]
      simp only [SpscRing.pushCheckFresh, answer_pushNCopy]
      rw [hrem]

theorem answer_popCheckFresh_congr {r r' : SpscRing} (hch : r'.cachedHead = r.cachedHead)
    (c : PopCall) (tail : Size) :
    (r'.popCheckFresh c tail).answer = (r.popCheckFresh c tail).answer := by
  cases c with
  | pop e =>
      simp only [SpscRing.popCheckFresh, hch]
      split <;> rfl
  | popN e n =>
      have havail : r'.avail tail = r.avail tail := by
        rw [SpscRing.avail, hch, SpscRing.avail]
      simp only [SpscRing.popCheckFresh, answer_popNCopy]
      rw [havail]

@[simp] theorem PushCall.transferred_refusal (c : PushCall) : c.refusal.transferred = 0 := by
  cases c <;> rfl

@[simp] theorem PopCall.transferred_refusal (c : PopCall) : c.refusal.transferred = 0 := by
  cases c <;> rfl

theorem PushCall.transferred_result {c : PushCall} {n : Size} (h : n ≠ 0)
    (hle : n.toNat ≤ c.requested) : (c.result n).transferred = n.toNat := by
  cases c with
  | push e =>
      have hpos : n.toNat ≠ 0 := fun hz => h (BitVec.eq_of_toNat_eq hz)
      have hone : n.toNat ≤ 1 := hle
      change (1 : ℕ) = n.toNat
      omega
  | pushN e m => rfl

theorem PopCall.transferred_result {c : PopCall} {n : Size} (h : n ≠ 0)
    (hle : n.toNat ≤ c.requested) : (c.result n).transferred = n.toNat := by
  cases c with
  | pop e =>
      have hpos : n.toNat ≠ 0 := fun hz => h (BitVec.eq_of_toNat_eq hz)
      have hone : n.toNat ≤ 1 := hle
      change (1 : ℕ) = n.toNat
      omega
  | popN e m => rfl

section Refused

variable {w : World} {ct ch : ℕ}

theorem World.length_contents (w : World) : w.contents.length = w.held := List.length_drop ..

/-- A push that gives up with the current tail in its cache has found the queue full. -/
theorem Counters.full_of_refused (h : Counters w ct ch)
    (hct : w.ring.cachedTail = w.ring.tail) {c : PushCall}
    (hrefused : w.ring.pushCheckFresh c w.ring.head = .returned c c.refusal) :
    c.requested = 0 ∨ w.contents.length = w.ring.cap := by
  have hdec := SpscRing.decided_pushCheckFresh h c
  have hroom := h.held_add_remaining hct
  have hzero : (0 : ℕ) = min c.requested (w.ring.remaining w.ring.head).toNat := by
    simpa [hrefused, Producer.decided] using hdec
  rw [w.length_contents]
  omega

/-- A pop that gives up with the current head in its cache has found the queue empty. -/
theorem Counters.empty_of_refused (h : Counters w ct ch)
    (hch : w.ring.cachedHead = w.ring.head) {c : PopCall}
    (hrefused : w.ring.popCheckFresh c w.ring.tail = .returned c c.refusal c.buffer) :
    c.requested = 0 ∨ w.contents = [] := by
  have hdec := SpscRing.decided_popCheckFresh h c
  have hheld := h.held_eq_avail hch
  have hzero : (0 : ℕ) = min c.requested (w.ring.avail w.ring.tail).toNat := by
    simpa [hrefused, Consumer.decided] using hdec
  rw [← List.length_eq_zero_iff, w.length_contents]
  omega

end Refused

/-! ### The invariants together -/

def Producer.Admitted : Producer → Prop
  | .copy c _ n ms => Spsc.Admitted c.requested n ms
  | _ => True

def Consumer.Admitted : Consumer → Prop
  | .copy c _ n ms _ => Spsc.Admitted c.requested n ms
  | _ => True

theorem admitted_producerStep {w w' : World} {back : ℕ} (h : w.producer.Admitted)
    (hs : producerStep w back = some w') : w'.producer.Admitted := by
  cases producerMove_of_step hs with
  | loadHead | refresh | storeHead => trivial
  | checkCached c head hp =>
      obtain hr | ⟨n, ms, hle, hr⟩ | ⟨-, hr⟩ := pushCheckCached_cases w.ring c head <;> rw [hr]
      · trivial
      · exact hle
      · trivial
  | checkFresh c head hp =>
      obtain ⟨n, ms, hle, hr⟩ | hr := pushCheckFresh_cases w.ring c head <;> rw [hr]
      · exact hle
      · trivial
  | nextPiece c head n o u ms hp =>
      rw [hp] at h
      exact ⟨h.le, (Nat.le_succ _).trans h.pieces⟩
  | copyByte c head n o u l ms hp =>
      rw [hp] at h
      exact ⟨h.le, h.pieces⟩

theorem admitted_consumerStep {w w' : World} {back : ℕ} (h : w.consumer.Admitted)
    (hs : consumerStep w back = some w') : w'.consumer.Admitted := by
  cases consumerMove_of_step hs with
  | loadTail | refresh | storeTail => trivial
  | checkCached c tail hp =>
      obtain hr | ⟨n, ms, hle, hr⟩ | ⟨-, hr⟩ := popCheckCached_cases w.ring c tail <;> rw [hr]
      · trivial
      · exact hle
      · trivial
  | checkFresh c tail hp =>
      obtain ⟨n, ms, hle, hr⟩ | hr := popCheckFresh_cases w.ring c tail <;> rw [hr]
      · exact hle
      · trivial
  | nextPiece c tail n o u ms out hp =>
      rw [hp] at h
      exact ⟨h.le, (Nat.le_succ _).trans h.pieces⟩
  | copyByte c tail n o u l ms out hp =>
      rw [hp] at h
      exact ⟨h.le, h.pieces⟩

/-! ### What a step makes of a call -/

/-- The call goes on, gives up, or publishes what it has copied. -/
inductive PushOutcome (w w' : World) : Prop
  | goesOn (c : PushCall) (h : w.producer.current? = some c) (h' : w'.producer.current? = some c)
      (haccepted : w'.accepted = w.accepted) : PushOutcome w w'
  | gaveUp (c : PushCall) (h : w.producer.current? = some c)
      (h' : w'.producer = .returned c c.refusal) (haccepted : w'.accepted = w.accepted) :
      PushOutcome w w'
  | published (c : PushCall) (n : Size) (h : w.producer.current? = some c) (hpos : n ≠ 0)
      (hle : n.toNat ≤ c.requested) (h' : w'.producer = .returned c (c.result n))
      (haccepted : w'.accepted = w.accepted ++ elements w.ring.esize c.source n.toNat) :
      PushOutcome w w'

inductive PopOutcome (w w' : World) : Prop
  | goesOn (c : PopCall) (h : w.consumer.current? = some c) (h' : w'.consumer.current? = some c)
      (hhanded : w'.handed = w.handed) : PopOutcome w w'
  | gaveUp (c : PopCall) (h : w.consumer.current? = some c)
      (h' : w'.consumer = .returned c c.refusal c.buffer) (hhanded : w'.handed = w.handed) :
      PopOutcome w w'
  | took (c : PopCall) (n : Size) (out : ℕ → Byte) (h : w.consumer.current? = some c)
      (hpos : n ≠ 0) (hle : n.toNat ≤ c.requested) (h' : w'.consumer = .returned c (c.result n) out)
      (hhanded : w'.handed = w.handed ++ elements w.ring.esize out n.toNat) : PopOutcome w w'

theorem pushOutcome_of_step {w w' : World} {back ct ch : ℕ} (hc : Counters w ct ch)
    (hadm : w.producer.Admitted) (hs : producerStep w back = some w') : PushOutcome w w' := by
  have hprod := hc.producer
  cases producerMove_of_step hs with
  | loadHead c hp => exact .goesOn c (by rw [hp]; rfl) rfl rfl
  | refresh c head _ hp => exact .goesOn c (by rw [hp]; rfl) rfl rfl
  | nextPiece c head n o u ms hp => exact .goesOn c (by rw [hp]; rfl) rfl rfl
  | copyByte c head n o u l ms hp => exact .goesOn c (by rw [hp]; rfl) rfl rfl
  | checkCached c head hp =>
      obtain hr | ⟨n, ms, -, hr⟩ | ⟨-, hr⟩ := pushCheckCached_cases w.ring c head
      · exact .goesOn c (by rw [hp]; rfl) (congrArg Producer.current? hr) rfl
      · exact .goesOn c (by rw [hp]; rfl) (congrArg Producer.current? hr) rfl
      · exact .gaveUp c (by rw [hp]; rfl) hr rfl
  | checkFresh c head hp =>
      obtain ⟨n, ms, -, hr⟩ | hr := pushCheckFresh_cases w.ring c head
      · exact .goesOn c (by rw [hp]; rfl) (congrArg Producer.current? hr) rfl
      · exact .gaveUp c (by rw [hp]; rfl) hr rfl
  | storeHead c head n hp =>
      rw [hp] at hprod hadm
      exact .published c n (by rw [hp]; rfl) hprod.2.1 hadm.le rfl rfl

theorem popOutcome_of_step {w w' : World} {back ct ch : ℕ} (hc : Counters w ct ch)
    (hadm : w.consumer.Admitted) (hs : consumerStep w back = some w') : PopOutcome w w' := by
  have hcons := hc.consumer
  cases consumerMove_of_step hs with
  | loadTail c hp => exact .goesOn c (by rw [hp]; rfl) rfl rfl
  | refresh c tail _ hp => exact .goesOn c (by rw [hp]; rfl) rfl rfl
  | nextPiece c tail n o u ms out hp => exact .goesOn c (by rw [hp]; rfl) rfl rfl
  | copyByte c tail n o u l ms out hp => exact .goesOn c (by rw [hp]; rfl) rfl rfl
  | checkCached c tail hp =>
      obtain hr | ⟨n, ms, -, hr⟩ | ⟨-, hr⟩ := popCheckCached_cases w.ring c tail
      · exact .goesOn c (by rw [hp]; rfl) (congrArg Consumer.current? hr) rfl
      · exact .goesOn c (by rw [hp]; rfl) (congrArg Consumer.current? hr) rfl
      · exact .gaveUp c (by rw [hp]; rfl) hr rfl
  | checkFresh c tail hp =>
      obtain ⟨n, ms, -, hr⟩ | hr := popCheckFresh_cases w.ring c tail
      · exact .goesOn c (by rw [hp]; rfl) (congrArg Consumer.current? hr) rfl
      · exact .gaveUp c (by rw [hp]; rfl) hr rfl
  | storeTail c tail n out hp =>
      rw [hp] at hcons hadm
      exact .took c n out (by rw [hp]; rfl) hcons.2.1 hadm.le rfl rfl

/-- All that holds at every point of a run, for a ring of `cap` slots of `esize` bytes. -/
structure InOrder (cap esize : ℕ) (w : World) : Prop where
  counters : ∃ ct ch, Counters w ct ch
  contents : Contents w
  producer : w.producer.Admitted
  consumer : w.consumer.Admitted
  cap : w.ring.cap = cap
  esize : w.ring.esize = esize

theorem inOrder_step {cap esize : ℕ} {w w' : World} {a : Action} (h : InOrder cap esize w)
    (hs : step w a = some w') : InOrder cap esize w' := by
  obtain ⟨ct, ch, hc⟩ := h.counters
  have hlayout := step_layout hs
  have hadmitted : w'.producer.Admitted ∧ w'.consumer.Admitted := by
    cases a with
    | push c =>
        rw [enterPush_eq_some hs]
        exact ⟨trivial, h.consumer⟩
    | producer back =>
        rw [(producerStep_frame hs).1]
        exact ⟨admitted_producerStep h.producer hs, h.consumer⟩
    | pop c =>
        rw [enterPop_eq_some hs]
        exact ⟨h.producer, trivial⟩
    | consumer back =>
        rw [(consumerStep_frame hs).1]
        exact ⟨h.producer, admitted_consumerStep h.consumer hs⟩
  exact
    { counters := counters_step w a w' h.counters hs
      contents := contents_step h.contents hc hs
      producer := hadmitted.1
      consumer := hadmitted.2
      cap := by rw [← h.cap, SpscRing.cap, hlayout.capacity, SpscRing.cap]
      esize := by rw [← h.esize, SpscRing.esize, hlayout.elementSize, SpscRing.esize] }

theorem inOrder_start {alignedAlloc : Bool} {malloc : Size → Option (ℕ → Byte)}
    {capacity elemSize : Size} {r : SpscRing}
    (hr : spscRingCreate alignedAlloc malloc capacity elemSize = some r)
    (hfits : capacity.toNat * elemSize.toNat < 2 ^ 64) :
    InOrder capacity.toNat elemSize.toNat (World.start r) := by
  obtain ⟨hcap, hesize⟩ := spscRingCreate_capacity hr
  exact
    { counters := ⟨0, 0, counters_start hr⟩
      contents := contents_start hr hfits
      producer := trivial
      consumer := trivial
      cap := congrArg BitVec.toNat hcap
      esize := congrArg BitVec.toNat hesize }

theorem inOrder_after {cap esize : ℕ} {as : List Action} {w w' : World}
    (h : InOrder cap esize w) (hw : exec step w as = some w') : InOrder cap esize w' :=
  exec_invariant (I := InOrder cap esize) (fun _ _ _ h hs => inOrder_step h hs) hw h

end SystemsPrep.Spsc
