import SystemsPrep.Base.Linearizable
import SystemsPrep.Spsc.Admission

/-!
An SPSC ring is a bounded queue to its two callers.

The abstract object is a list of elements. A push puts elements at its end and a pop
takes elements from its front, in one step somewhere inside the call; a call that
transfers nothing was asked for nothing, or found the list full or empty at that step.
A successful call takes effect when it stores its index. One that gives up took effect
earlier, when the refresh loaded the index of the peer: by the time it returns, the peer
may have moved on.
-/

namespace SystemsPrep.Spsc

open Base

inductive RingCall
  | push (c : PushCall)
  | pop (c : PopCall)

structure RingReply where
  ret : Return
  got : List Elem

/-- The calls on a queue of at most `cap` elements of `esize` bytes. A batch may
transfer any part of what is asked for, but not nothing. -/
inductive QueueEffect (cap esize : ℕ) : List Elem → RingCall → RingReply → List Elem → Prop
  | push (xs : List Elem) (c : PushCall) (n : Size) (hpos : n ≠ 0) (hle : n.toNat ≤ c.requested)
      (hroom : xs.length + n.toNat ≤ cap) :
      QueueEffect cap esize xs (.push c) ⟨c.result n, []⟩
        (xs ++ elements esize c.source n.toNat)
  | pushRefused (xs : List Elem) (c : PushCall) (h : c.requested = 0 ∨ xs.length = cap) :
      QueueEffect cap esize xs (.push c) ⟨c.refusal, []⟩ xs
  | pop (ys xs : List Elem) (c : PopCall) (n : Size) (hpos : n ≠ 0)
      (hle : n.toNat ≤ c.requested) (hlen : ys.length = n.toNat) :
      QueueEffect cap esize (ys ++ xs) (.pop c) ⟨c.result n, ys⟩ xs
  | popRefused (xs : List Elem) (c : PopCall) (h : c.requested = 0 ∨ xs = []) :
      QueueEffect cap esize xs (.pop c) ⟨c.refusal, []⟩ xs

/-- The specification: the effect of a call does not depend on who else is in a call. -/
def queueSpec (cap esize : ℕ) : Base.Spec Side (List Elem) RingCall RingReply :=
  fun _ _ xs c r xs' => QueueEffect cap esize xs c r xs'

/-- What the callers see of a step: the calls when they are entered, and the replies
when they are returned. -/
def callEvents (_ : World) (a : Action) (w' : World) : List (CallEvent Side RingCall RingReply) :=
  match a with
  | .push c => [.call .producer (.push c)]
  | .pop c => [.call .consumer (.pop c)]
  | .producer _ =>
      match w'.producer with
      | .returned _ ret => [.ret .producer ⟨ret, []⟩]
      | _ => []
  | .consumer _ =>
      match w'.consumer with
      | .returned _ ret out =>
          [.ret .consumer ⟨ret, elements w'.ring.esize out ret.transferred⟩]
      | _ => []

/-! ### The abstract value of a state -/

/-- How far the producer's call is. Once the fresh tail leaves no room the refusal is
decided. -/
def Producer.stage (r : SpscRing) : Producer → CallStage RingCall RingReply
  | .idle | .returned _ _ => .outside
  | .loadHead c | .checkCached c _ | .refresh c _ | .copy c _ _ _ => .called (.push c)
  | .checkFresh c head =>
      match (r.pushCheckFresh c head).answer with
      | some ret => .done (.push c) ⟨ret, []⟩
      | none => .called (.push c)

def Consumer.stage (r : SpscRing) : Consumer → CallStage RingCall RingReply
  | .idle | .returned _ _ _ => .outside
  | .loadTail c | .checkCached c _ | .refresh c _ | .copy c _ _ _ _ => .called (.pop c)
  | .checkFresh c tail =>
      match (r.popCheckFresh c tail).answer with
      | some ret => .done (.pop c) ⟨ret, []⟩
      | none => .called (.pop c)

def World.stage (w : World) : Side → CallStage RingCall RingReply
  | .producer => w.producer.stage w.ring
  | .consumer => w.consumer.stage w.ring

def World.queue (w : World) : Atomic Side (List Elem) RingCall RingReply where
  value := w.contents
  stage := w.stage

/-! ### Frames -/

theorem Producer.stage_congr {r r' : SpscRing} (hcap : r'.capacity = r.capacity)
    (hct : r'.cachedTail = r.cachedTail) (p : Producer) : p.stage r' = p.stage r := by
  cases p with
  | checkFresh c head => simp only [stage, answer_pushCheckFresh_congr hcap hct]
  | _ => rfl

theorem Consumer.stage_congr {r r' : SpscRing} (hch : r'.cachedHead = r.cachedHead)
    (p : Consumer) : p.stage r' = p.stage r := by
  cases p with
  | checkFresh c tail => simp only [stage, answer_popCheckFresh_congr hch]
  | _ => rfl

theorem queue_of_producer {w w' : World} (h : w'.consumer.stage w'.ring = w.consumer.stage w.ring) :
    w'.queue = { w.queue.setStage .producer (w'.producer.stage w'.ring) with
      value := w'.contents } := by
  have hstage : w'.stage = Function.update w.stage .producer (w'.producer.stage w'.ring) := by
    funext s
    cases s with
    | producer => rfl
    | consumer => exact h
  unfold World.queue Atomic.setStage
  rw [hstage]

theorem queue_of_consumer {w w' : World} (h : w'.producer.stage w'.ring = w.producer.stage w.ring) :
    w'.queue = { w.queue.setStage .consumer (w'.consumer.stage w'.ring) with
      value := w'.contents } := by
  have hstage : w'.stage = Function.update w.stage .consumer (w'.consumer.stage w'.ring) := by
    funext s
    cases s with
    | producer => exact h
    | consumer => rfl
  unfold World.queue Atomic.setStage
  rw [hstage]

/-! ### Each step is one of the queue -/

section Steps

variable {cap esize : ℕ} {w w' : World}

theorem InOrder.effect_push (h : InOrder cap esize w) {c : PushCall} {head n : Size}
    (hp : w.producer = .copy c head n []) :
    QueueEffect cap esize w.contents (.push c) ⟨c.result n, []⟩
      ((w.accepted ++ elements w.ring.esize c.source n.toNat).drop w.handed.length) := by
  obtain ⟨ct, ch, hc⟩ := h.counters
  have hprod := hc.producer
  have hadm := h.producer
  rw [hp] at hprod hadm
  obtain ⟨-, hpos, hroom⟩ := hprod
  have hct := hc.ct_le
  have hle := hc.handed_le
  have hlen : w.contents.length + n.toNat ≤ cap := by
    rw [w.length_contents, World.held, ← h.cap]
    omega
  rw [List.drop_append_of_le_length hc.handed_le, h.esize]
  exact .push w.contents c n hpos hadm.le hlen

theorem InOrder.effect_pop (h : InOrder cap esize w) {c : PopCall} {tail n : Size}
    {out : ℕ → Byte} (hp : w.consumer = .copy c tail n [] out)
    (hfifo : w.handed ++ elements w.ring.esize out n.toNat <+: w.accepted) :
    QueueEffect cap esize w.contents (.pop c)
      ⟨c.result n, elements w.ring.esize out n.toNat⟩
      (w.accepted.drop (w.handed ++ elements w.ring.esize out n.toNat).length) := by
  obtain ⟨ct, ch, hc⟩ := h.counters
  have hcons := hc.consumer
  have hadm := h.consumer
  rw [hp] at hcons hadm
  obtain ⟨rest, hrest⟩ := hfifo
  have hbefore : w.contents = elements w.ring.esize out n.toNat ++ rest := by
    rw [World.contents, ← hrest, List.append_assoc, List.drop_left]
  rw [hbefore, ← hrest, List.drop_left]
  exact .pop _ rest c n hcons.2.1 hadm.le (length_elements ..)

/-- A step of the producer is a run of the queue. -/
theorem queue_producerStep (h : InOrder cap esize w) (hs : producerStep w 0 = some w') :
    AtomicRun (queueSpec cap esize) w.queue (callEvents w (.producer 0) w') w'.queue := by
  obtain ⟨hcons, -, hch, -⟩ := producerStep_frame hs
  have hframe : w'.consumer.stage w'.ring = w.consumer.stage w.ring := by
    rw [hcons, Consumer.stage_congr hch]
  rw [queue_of_producer hframe]
  obtain ⟨ct, ch, hc⟩ := h.counters
  obtain ⟨ct', hc'⟩ := counters_producerStep hc hs
  have hprod := hc.producer
  cases producerMove_of_step hs with
  | loadHead c hp =>
      have hstage : w.queue.stage .producer = .called (.push c) := congrArg (·.stage w.ring) hp
      exact AtomicRun.stay hstage
  | checkCached c head hp =>
      have hstage : w.queue.stage .producer = .called (.push c) := congrArg (·.stage w.ring) hp
      obtain hr | ⟨n, ms, -, hr⟩ | ⟨hzero, hr⟩ := pushCheckCached_cases w.ring c head <;>
        simp only [callEvents, hr]
      · exact AtomicRun.stay hstage
      · exact AtomicRun.stay hstage
      · exact AtomicRun.effect_ret hstage (.pushRefused w.contents c (Or.inl hzero))
  | refresh c head tail hp htail =>
      have hstage : w.queue.stage .producer = .called (.push c) := congrArg (·.stage w.ring) hp
      rw [hp] at hprod
      obtain rfl : head = w.ring.head := hprod
      obtain ⟨n, -, -, rfl, hcur, -⟩ := hc.tailSince.load htail
      have hct : BitVec.ofNat 64 n = w.ring.tail := by rw [hcur rfl, hc.tail]
      simp only [callEvents, Producer.stage]
      obtain ⟨n', ms, -, hr⟩ | hr := pushCheckFresh_cases
        { w.ring with cachedTail := BitVec.ofNat 64 n } c w.ring.head <;> rw [hr]
      · exact AtomicRun.stay hstage
      · have hfull := hc'.full_of_refused hct hr
        refine AtomicRun.single_effect hstage (.pushRefused w.contents c ?_)
        rw [← h.cap]
        exact hfull
  | checkFresh c head hp =>
      obtain ⟨n, ms, -, hr⟩ | hr := pushCheckFresh_cases w.ring c head <;>
        simp only [callEvents, hr]
      · have hstage : w.queue.stage .producer = .called (.push c) := by
          simp only [World.queue, World.stage, Producer.stage, Producer.answer, hp, hr]
        exact AtomicRun.stay hstage
      · have hstage : w.queue.stage .producer = .done (.push c) ⟨c.refusal, []⟩ := by
          simp only [World.queue, World.stage, Producer.stage, Producer.answer, hp, hr]
        exact AtomicRun.single_ret hstage
  | nextPiece c head n o u ms hp =>
      have hstage : w.queue.stage .producer = .called (.push c) := congrArg (·.stage w.ring) hp
      exact AtomicRun.stay hstage
  | copyByte c head n o u l ms hp =>
      have hstage : w.queue.stage .producer = .called (.push c) := congrArg (·.stage w.ring) hp
      exact AtomicRun.stay hstage
  | storeHead c head n hp =>
      have hstage : w.queue.stage .producer = .called (.push c) := congrArg (·.stage w.ring) hp
      exact AtomicRun.effect_ret hstage (h.effect_push hp)

/-- So is a step of the consumer. -/
theorem queue_consumerStep (h : InOrder cap esize w) (hs : consumerStep w 0 = some w') :
    AtomicRun (queueSpec cap esize) w.queue (callEvents w (.consumer 0) w') w'.queue := by
  obtain ⟨hprod, -, hct, -, hcap, -⟩ := consumerStep_frame hs
  have hframe : w'.producer.stage w'.ring = w.producer.stage w.ring := by
    rw [hprod, Producer.stage_congr hcap hct]
  rw [queue_of_consumer hframe]
  obtain ⟨ct, ch, hc⟩ := h.counters
  obtain ⟨ch', hc'⟩ := counters_consumerStep hc hs
  have hcons := hc.consumer
  cases consumerMove_of_step hs with
  | loadTail c hp =>
      have hstage : w.queue.stage .consumer = .called (.pop c) := congrArg (·.stage w.ring) hp
      exact AtomicRun.stay hstage
  | checkCached c tail hp =>
      have hstage : w.queue.stage .consumer = .called (.pop c) := congrArg (·.stage w.ring) hp
      obtain hr | ⟨n, ms, -, hr⟩ | ⟨hzero, hr⟩ := popCheckCached_cases w.ring c tail <;>
        simp only [callEvents, hr]
      · exact AtomicRun.stay hstage
      · exact AtomicRun.stay hstage
      · rw [PopCall.transferred_refusal]
        exact AtomicRun.effect_ret hstage (.popRefused w.contents c (Or.inl hzero))
  | refresh c tail head hp hhead =>
      have hstage : w.queue.stage .consumer = .called (.pop c) := congrArg (·.stage w.ring) hp
      rw [hp] at hcons
      obtain rfl : tail = w.ring.tail := hcons
      obtain ⟨n, -, -, rfl, hcur, -⟩ := hc.headSince.load hhead
      have hch : BitVec.ofNat 64 n = w.ring.head := by rw [hcur rfl, hc.head]
      simp only [callEvents, Consumer.stage]
      obtain ⟨n', ms, -, hr⟩ | hr := popCheckFresh_cases
        { w.ring with cachedHead := BitVec.ofNat 64 n } c w.ring.tail <;> rw [hr]
      · exact AtomicRun.stay hstage
      · exact AtomicRun.single_effect hstage
          (.popRefused w.contents c (hc'.empty_of_refused hch hr))
  | checkFresh c tail hp =>
      obtain ⟨n, ms, -, hr⟩ | hr := popCheckFresh_cases w.ring c tail <;>
        simp only [callEvents, hr]
      · have hstage : w.queue.stage .consumer = .called (.pop c) := by
          simp only [World.queue, World.stage, Consumer.stage, Consumer.answer, hp, hr]
        exact AtomicRun.stay hstage
      · have hstage : w.queue.stage .consumer = .done (.pop c) ⟨c.refusal, []⟩ := by
          simp only [World.queue, World.stage, Consumer.stage, Consumer.answer, hp, hr]
        rw [PopCall.transferred_refusal]
        exact AtomicRun.single_ret hstage
  | nextPiece c tail n o u ms out hp =>
      have hstage : w.queue.stage .consumer = .called (.pop c) := congrArg (·.stage w.ring) hp
      exact AtomicRun.stay hstage
  | copyByte c tail n o u l ms out hp =>
      have hstage : w.queue.stage .consumer = .called (.pop c) := congrArg (·.stage w.ring) hp
      exact AtomicRun.stay hstage
  | storeTail c tail n out hp =>
      have hstage : w.queue.stage .consumer = .called (.pop c) := congrArg (·.stage w.ring) hp
      have hadm := h.consumer
      rw [hp] at hadm hcons
      have hfifo := (contents_step (a := .consumer 0) h.contents hc hs).fifo
      simp only [callEvents, PopCall.transferred_result hcons.2.1 hadm.le]
      exact AtomicRun.effect_ret hstage (h.effect_pop hp hfifo)

/-- Every step is. Entering a call is its beginning. -/
theorem queue_step {a : Action} (ha : a.Current) (h : InOrder cap esize w)
    (hs : step w a = some w') :
    AtomicRun (queueSpec cap esize) w.queue (callEvents w a w') w'.queue := by
  cases a with
  | push c =>
      have hout : w.queue.stage .producer = .outside := by
        cases hp : w.producer with
        | idle | returned => exact congrArg (·.stage w.ring) hp
        | _ => simp [step, enterPush, hp] at hs
      have heq := enterPush_eq_some hs
      have hqueue := @queue_of_producer w w' (by rw [heq])
      rw [hqueue, heq]
      exact AtomicRun.single_call (.push c) hout
  | producer back =>
      obtain rfl : back = 0 := ha
      exact queue_producerStep h hs
  | pop c =>
      have hout : w.queue.stage .consumer = .outside := by
        cases hp : w.consumer with
        | idle | returned => exact congrArg (·.stage w.ring) hp
        | _ => simp [step, enterPop, hp] at hs
      have heq := enterPop_eq_some hs
      have hqueue := @queue_of_consumer w w' (by rw [heq])
      rw [hqueue, heq]
      exact AtomicRun.single_call (.pop c) hout
  | consumer back =>
      obtain rfl : back = 0 := ha
      exact queue_consumerStep h hs

end Steps

/-! ### Whole runs -/

/-- **Linearizability.** With loads that return the current value, what the two callers
of a ring see is a history of one bounded queue: each call takes effect at one instant
between its entry and its return, whatever the sizes of the batches and however the
actions interleave. -/
theorem spsc_linearizable {alignedAlloc : Bool} {malloc : Size → Option (ℕ → Byte)}
    {capacity elemSize : Size} {r : SpscRing} {as : List Action} {w : World}
    (hr : spscRingCreate alignedAlloc malloc capacity elemSize = some r)
    (hfits : capacity.toNat * elemSize.toNat < 2 ^ 64) (hcur : ∀ a ∈ as, a.Current)
    (hw : exec step (World.start r) as = some w) :
    Linearizable (queueSpec capacity.toNat elemSize.toNat) []
      (record step callEvents (World.start r) as) := by
  have hqueue : (World.start r).queue = .start Side [] := by
    have hstage : (World.start r).stage = fun _ => .outside := by
      funext s
      cases s <;> rfl
    unfold World.queue Atomic.start
    rw [hstage]
    rfl
  exact linearizable_of_mapping (C := fun _ a _ => a.Current) (f := World.queue)
    (fun _ _ _ _ h hs => inOrder_step h hs) (fun _ _ _ ha h hs => queue_step ha h hs)
    (Steps.of_forall_mem hcur) hw (inOrder_start hr hfits) hqueue

def lateRefusal : List Action :=
  [.pop (.pop fun _ => 0), .consumer 0, .consumer 0, .consumer 0, .push (.push fun _ => 7),
    .producer 0, .producer 0, .producer 0, .producer 0, .producer 0, .consumer 0]

theorem spsc_linearizable_lateRefusal :
    ∃ r w, spscRingCreate true (fun _ => some fun _ => 0) 2 1 = some r ∧
      exec step (World.start r) lateRefusal = some w ∧
      record step callEvents (World.start r) lateRefusal =
        [.call .consumer (.pop (.pop fun _ => 0)), .call .producer (.push (.push fun _ => 7)),
          .ret .producer ⟨.int 0, []⟩, .ret .consumer ⟨.int (-1), []⟩] ∧
      Linearizable (queueSpec 2 1) [] (record step callEvents (World.start r) lateRefusal) :=
  ⟨_, _, rfl, rfl, rfl,
    @spsc_linearizable true (fun _ => some fun _ => 0) 2 1 _ lateRefusal _ rfl (by decide)
      (by simp [lateRefusal, Action.Current]) rfl⟩

end SystemsPrep.Spsc
