import SystemsPrep.Base.Linearizable
import SystemsPrep.Mpsc.Ownership
import SystemsPrep.Mpsc.Refusal

/-!
A multi-producer queue is a bounded queue to its callers, but for a pop that gives up
on a value that is still being written.

The abstract object is the list of the claimed and undelivered values with their
producers. A push takes effect at its compare-exchange, before its value is in the
cell, and a pop when it stores the tail. A pop that finds the flag of the front cell
down returns nothing although the list is not empty: then the push that put the front
value there has not returned. A refused push takes effect when it loads the tail.
-/

namespace SystemsPrep.Mpsc

open Base

variable {ι : Type*} {w : ℕ} {T : Type*}

inductive Party (ι : Type*)
  | producer (p : ι)
  | consumer
  deriving DecidableEq

inductive QueueCall (T : Type*)
  | push (value : T)
  | pop

inductive QueueReply (T : Type*)
  | pushed (accepted : Bool)
  | popped (result : Option T)

/-- The calls on a queue of at most `cap` values. `pending` tells which pushes have put
their value in the queue and have not returned. -/
inductive QueueEffect (cap : ℕ) (pending : ι → T → Prop) :
    Party ι → List (ι × T) → QueueCall T → QueueReply T → List (ι × T) → Prop
  | accept (p : ι) (xs : List (ι × T)) (value : T) (hroom : xs.length < cap) :
      QueueEffect cap pending (.producer p) xs (.push value) (.pushed true) (xs ++ [(p, value)])
  | refuse (p : ι) (xs : List (ι × T)) (value : T) (hfull : xs.length = cap) :
      QueueEffect cap pending (.producer p) xs (.push value) (.pushed false) xs
  | take (p : ι) (value : T) (xs : List (ι × T)) :
      QueueEffect cap pending .consumer ((p, value) :: xs) .pop (.popped (some value)) xs
  | empty : QueueEffect cap pending .consumer [] .pop (.popped none) []
  | unready (p : ι) (value : T) (xs : List (ι × T)) (hp : pending p value) :
      QueueEffect cap pending .consumer ((p, value) :: xs) .pop (.popped none) ((p, value) :: xs)

/-- The specification. A push is pending from its effect to its return. -/
def queueSpec (ι T : Type*) (cap : ℕ) :
    Base.Spec (Party ι) (List (ι × T)) (QueueCall T) (QueueReply T) :=
  fun stage t xs c r xs' =>
    QueueEffect cap (fun p v => stage (.producer p) = .done (.push v) (.pushed true)) t xs c r xs'

/-- What the callers see of a step. -/
def callEvents (_ : World ι w T) (a : Action ι T) (s' : World ι w T) :
    List (CallEvent (Party ι) (QueueCall T) (QueueReply T)) :=
  match a with
  | .push p value => [.call (.producer p) (.push value)]
  | .pop => [.call .consumer .pop]
  | .producer p _ =>
      match s'.producers p with
      | .returned _ ret => [.ret (.producer p) (.pushed ret)]
      | _ => []
  | .consumer _ =>
      match s'.consumer with
      | .returned ret => [.ret .consumer (.popped ret)]
      | _ => []

/-! ### The abstract value of a state -/

/-- How far a push is. The tail it has loaded decides a refusal. -/
def Producer.stage (q : MpscQueue w T) : Producer w T → CallStage (QueueCall T) (QueueReply T)
  | .idle | .returned _ _ => .outside
  | .loadHead v | .loadTail v _ | .compareExchange v _ _ => .called (.push v)
  | .testFull v head tail =>
      if q.full head tail then .done (.push v) (.pushed false) else .called (.push v)
  | .write v _ | .storeReady v _ => .done (.push v) (.pushed true)

def Consumer.stage (q : MpscQueue w T) : Consumer w T → CallStage (QueueCall T) (QueueReply T)
  | .idle | .returned _ => .outside
  | .loadTail | .loadHead _ | .loadReady _ | .moveOut _ | .clearReady _ _ | .storeTail _ _ =>
      .called .pop
  | .testEmpty tail head => if q.empty head tail then .done .pop (.popped none) else .called .pop

def World.stage (s : World ι w T) : Party ι → CallStage (QueueCall T) (QueueReply T)
  | .producer p => (s.producers p).stage s.queue
  | .consumer => s.consumer.stage s.queue

def World.undelivered (s : World ι w T) : List (ι × T) := s.claims.drop s.delivered.length

def World.abstract (s : World ι w T) :
    Atomic (Party ι) (List (ι × T)) (QueueCall T) (QueueReply T) where
  value := s.undelivered
  stage := s.stage

theorem Producer.stage_congr {q q' : MpscQueue w T} (h : q'.capacity = q.capacity)
    (x : Producer w T) : x.stage q' = x.stage q := by
  cases x with
  | testFull v head tail =>
      have hfull : q'.full head tail = q.full head tail := by
        rw [MpscQueue.full, h, MpscQueue.full]
      rw [stage, hfull, stage]
  | _ => rfl

section Tests

variable {q : MpscQueue w T} {v : T} {head tail : BitVec w}

theorem Producer.stage_of_full (h : q.full head tail = true) :
    (Producer.testFull v head tail).stage q = .done (.push v) (.pushed false) := if_pos h

theorem Producer.stage_of_not_full (h : q.full head tail = false) :
    (Producer.testFull v head tail).stage q = .called (.push v) :=
  if_neg (by rw [h]; exact Bool.noConfusion)

end Tests

section Frames

variable [DecidableEq ι] {s s' : World ι w T}

theorem abstract_of_producer {p : ι} (hcap : s'.queue.capacity = s.queue.capacity)
    (hcons : s'.consumer = s.consumer) (hother : ∀ q ≠ p, s'.producers q = s.producers q) :
    s'.abstract = { s.abstract.setStage (.producer p) ((s'.producers p).stage s'.queue) with
      value := s'.undelivered } := by
  have hstage : s'.stage =
      Function.update s.stage (.producer p) ((s'.producers p).stage s'.queue) := by
    funext t
    cases t with
    | producer q =>
        by_cases hq : q = p
        · subst hq
          rw [Function.update_self]
          rfl
        · rw [Function.update_of_ne fun h => hq (Party.producer.inj h), World.stage, hother q hq,
            Producer.stage_congr hcap]
          rfl
    | consumer =>
        rw [Function.update_of_ne (by simp), World.stage, hcons]
        rfl
  unfold World.abstract Atomic.setStage
  rw [hstage]

theorem abstract_of_consumer (hcap : s'.queue.capacity = s.queue.capacity)
    (hprod : s'.producers = s.producers) :
    s'.abstract = { s.abstract.setStage .consumer (s'.consumer.stage s'.queue) with
      value := s'.undelivered } := by
  have hstage : s'.stage = Function.update s.stage .consumer (s'.consumer.stage s'.queue) := by
    funext t
    cases t with
    | producer q =>
        rw [Function.update_of_ne (by simp), World.stage, hprod,
          Producer.stage_congr hcap]
        rfl
    | consumer => rw [Function.update_self]; rfl
  unfold World.abstract Atomic.setStage
  rw [hstage]

end Frames

/-! ### Each step is one of the queue -/

section Values

variable {s : World ι w T}

theorem undelivered_claim (h : Counters s) (a : ι × T) :
    (s.claims ++ [a]).drop s.delivered.length = s.undelivered ++ [a] :=
  List.drop_append_of_le_length h.le

theorem undelivered_front {a : ι × T} (h : s.claims[s.delivered.length]? = some a) :
    s.undelivered = a :: s.claims.drop (s.delivered.length + 1) := by
  obtain ⟨hlt, ha⟩ := List.getElem?_eq_some_iff.mp h
  rw [World.undelivered, List.drop_eq_getElem_cons hlt, ha]

/-- A push that loads a tail which has not passed its head and takes the queue for full
is right. -/
theorem Counters.full_of_loadTail (h : Counters s) {p : ι} {value : T} {head : BitVec w}
    (hp : s.producers p = .loadTail value head) (hpass : s.delivered.length ≤ s.seen p)
    (hfull : s.queue.full head s.queue.tail = true) :
    s.undelivered.length = s.queue.cap := by
  have hprod := h.producer p
  rw [hp] at hprod
  obtain ⟨rfl, hseen⟩ := hprod
  have hroom := h.room
  have hnot : ¬ s.seen p < s.delivered.length + s.queue.cap := by
    rw [← not_full_iff_of_le hpass (hseen.trans hroom), ← h.tail, hfull]
    exact Bool.noConfusion
  rw [World.undelivered, List.length_drop]
  omega

/-- A pop that loads a head equal to its tail is right to take the queue for empty. -/
theorem Counters.empty_of_loadHead (h : Counters s) {tail : BitVec w}
    (hp : s.consumer = .loadHead tail) (hempty : s.queue.empty s.queue.head tail = true) :
    s.undelivered = [] := by
  have hcons := h.consumer
  rw [hp] at hcons
  obtain rfl : tail = BitVec.ofNat w s.delivered.length := hcons
  have := s.queue.cap_lt
  have := h.room
  have heq : s.claims.length = s.delivered.length := by
    rw [MpscQueue.empty, decide_eq_true_eq, h.head, ofNat_inj_of_near h.le (by omega)] at hempty
    exact hempty
  rw [World.undelivered, ← heq, List.drop_length]

/-- A flag that is down at the tail belongs to a push that has not returned. -/
theorem Flags.pending_of_notReady {l : List (FlagWrite w)} (h : Flags s l) (hc : Counters s)
    (hk : Contents s) (hlt : s.claims.length < 2 ^ w) {tail : BitVec w}
    (hp : s.consumer = .loadReady tail)
    (hready : (s.queue.items (s.queue.element tail)).isReady = false) :
    ∃ p value, s.claims[s.delivered.length]? = some (p, value) ∧
      (s.producers p).stage s.queue = .done (.push value) (.pushed true) := by
  have hcons := hc.consumer
  rw [hp] at hcons
  obtain ⟨rfl, hD⟩ := hcons
  rw [element_ofNat (hD.trans hlt)] at hready
  rcases h.published _ le_rfl hD hready with ⟨p, value, howned⟩ | ⟨-, hst⟩
  · obtain ⟨k, hkD, -, hclaim, -⟩ := hk.owner p _ value howned
    obtain rfl := index_inj (hD.trans hlt) ((lt_of_getElem?_claims hclaim).trans hlt) hkD
    refine ⟨p, value, hclaim, ?_⟩
    cases hprod : s.producers p with
    | write v head | storeReady v head =>
        rw [hprod] at howned
        cases howned
        rfl
    | _ => rw [hprod] at howned; cases howned
  · rw [hp] at hst
    cases hst

end Values

section Steps

variable [DecidableEq ι] {s s' : World ι w T}

/-- A step of a producer is a run of the queue. -/
theorem abstract_producerStep {p : ι} {spurious : Bool} (hc : Counters s)
    (hlt : s.claims.length < 2 ^ w) (hpass : NotPassed s (.producer p spurious))
    (hs : producerStep s p spurious = some s') :
    AtomicRun (queueSpec ι T s.queue.cap) s.abstract (callEvents s (.producer p spurious) s')
      s'.abstract := by
  obtain ⟨hother, -, hcap, -⟩ := producerStep_frame hs
  have hcons : s'.consumer = s.consumer := by cases producerMove_of_step hs <;> rfl
  rw [abstract_of_producer hcap hcons fun q hq => (hother q hq).1]
  have hprod := hc.producer p
  have hself : ∀ x : Producer w T, Function.update s.producers p x p = x :=
    fun x => Function.update_self ..
  cases producerMove_of_step hs with
  | loadHead value hp =>
      have hstage : s.abstract.stage (.producer p) = .called (.push value) :=
        congrArg (·.stage s.queue) hp
      simp only [callEvents, World.reloadHead, hself]
      exact AtomicRun.stay hstage
  | loadTail value head hp =>
      have hstage : s.abstract.stage (.producer p) = .called (.push value) :=
        congrArg (·.stage s.queue) hp
      simp only [NotPassed, hp] at hpass
      simp only [callEvents, World.setProducer, hself]
      cases hfull : s.queue.full head s.queue.tail with
      | false =>
          rw [Producer.stage_of_not_full hfull]
          exact AtomicRun.stay hstage
      | true =>
          rw [Producer.stage_of_full hfull]
          exact AtomicRun.single_effect hstage
            (.refuse p s.undelivered value (hc.full_of_loadTail hp hpass hfull))
  | full value head tail hp hfull =>
      have hstage : s.abstract.stage (.producer p) = .done (.push value) (.pushed false) :=
        (congrArg (·.stage s.queue) hp).trans (Producer.stage_of_full hfull)
      simp only [callEvents, World.setProducer, hself]
      exact AtomicRun.single_ret hstage
  | notFull value head tail hp hfull =>
      have hstage : s.abstract.stage (.producer p) = .called (.push value) :=
        (congrArg (·.stage s.queue) hp).trans (Producer.stage_of_not_full hfull)
      simp only [callEvents, World.setProducer, hself]
      exact AtomicRun.stay hstage
  | claim value head tail hp heq hspurious =>
      have hstage : s.abstract.stage (.producer p) = .called (.push value) :=
        congrArg (·.stage s.queue) hp
      have hroom := (hc.claim hp heq (by omega)).room
      change (s.claims ++ [(p, value)]).length ≤ s.delivered.length + s.queue.cap at hroom
      have hlen : s.undelivered.length < s.queue.cap := by
        rw [List.length_append, List.length_singleton] at hroom
        rw [World.undelivered, List.length_drop]
        have := hc.le
        omega
      have heffect : queueSpec ι T s.queue.cap s.abstract.stage (.producer p) s.undelivered
          (.push value) (.pushed true) (s.undelivered ++ [(p, value)]) :=
        .accept p s.undelivered value hlen
      rw [← undelivered_claim hc] at heffect
      simp only [callEvents, World.setProducer, hself]
      exact AtomicRun.single_effect hstage heffect
  | retry value head tail hp hfail =>
      have hstage : s.abstract.stage (.producer p) = .called (.push value) :=
        congrArg (·.stage s.queue) hp
      simp only [callEvents, World.reloadHead, hself]
      exact AtomicRun.stay hstage
  | write value head hp =>
      have hstage : s.abstract.stage (.producer p) = .done (.push value) (.pushed true) :=
        congrArg (·.stage s.queue) hp
      simp only [callEvents, World.setProducer, hself]
      exact AtomicRun.stay hstage
  | storeReady value head hp =>
      have hstage : s.abstract.stage (.producer p) = .done (.push value) (.pushed true) :=
        congrArg (·.stage s.queue) hp
      simp only [callEvents, World.setProducer, hself]
      exact AtomicRun.single_ret hstage

/-- A step of the consumer is a run of the queue. -/
theorem abstract_consumerStep {left : T} {l : List (FlagWrite w)} (hc : Counters s)
    (hk : Contents s) (hf : Flags s l) (hlt : s.claims.length < 2 ^ w)
    (hs : consumerStep s left = some s') :
    AtomicRun (queueSpec ι T s.queue.cap) s.abstract (callEvents s (.consumer left) s')
      s'.abstract := by
  obtain ⟨hprod, -, -, -, hcap⟩ := consumerStep_frame hs
  rw [abstract_of_consumer hcap hprod]
  cases consumerMove_of_step hs with
  | loadTail hp =>
      have hstage : s.abstract.stage .consumer = .called .pop := congrArg (·.stage s.queue) hp
      exact AtomicRun.stay hstage
  | loadHead tail hp =>
      have hstage : s.abstract.stage .consumer = .called .pop := congrArg (·.stage s.queue) hp
      simp only [callEvents, Consumer.stage]
      by_cases hempty : s.queue.empty s.queue.head tail = true
      · have hnil : s.abstract.value = [] := hc.empty_of_loadHead hp hempty
        rw [if_pos hempty]
        refine AtomicRun.single_effect hstage ?_
        change QueueEffect _ _ _ s.abstract.value _ _ s.abstract.value
        rw [hnil]
        exact .empty
      · rw [if_neg hempty]
        exact AtomicRun.stay hstage
  | empty tail head hp hempty =>
      have hstage : s.abstract.stage .consumer = .done .pop (.popped none) := by
        simp only [World.abstract, World.stage, hp, Consumer.stage, hempty, if_true]
      exact AtomicRun.single_ret hstage
  | notEmpty tail head hp hempty =>
      have hstage : s.abstract.stage .consumer = .called .pop := by
        simp only [World.abstract, World.stage, hp, Consumer.stage, hempty]
        rfl
      exact AtomicRun.stay hstage
  | ready tail hp hready =>
      have hstage : s.abstract.stage .consumer = .called .pop := congrArg (·.stage s.queue) hp
      exact AtomicRun.stay hstage
  | notReady tail hp hready =>
      have hstage : s.abstract.stage .consumer = .called .pop := congrArg (·.stage s.queue) hp
      obtain ⟨p, value, hclaim, hpending⟩ := hf.pending_of_notReady hc hk hlt hp hready
      refine AtomicRun.effect_ret hstage ?_
      change QueueEffect _ _ _ s.undelivered _ _ s.undelivered
      rw [undelivered_front hclaim]
      exact .unready p value _ hpending
  | moveOut tail hp =>
      have hstage : s.abstract.stage .consumer = .called .pop := congrArg (·.stage s.queue) hp
      exact AtomicRun.stay hstage
  | clearReady tail value hp =>
      have hstage : s.abstract.stage .consumer = .called .pop := congrArg (·.stage s.queue) hp
      exact AtomicRun.stay hstage
  | storeTail tail value hp =>
      have hstage : s.abstract.stage .consumer = .called .pop := congrArg (·.stage s.queue) hp
      have hcell := hk.consumer
      rw [hp] at hcell
      obtain ⟨⟨p, v⟩, hclaim, rfl⟩ := Option.map_eq_some_iff.mp
        ((List.getElem?_map ..).symm.trans hcell.2.1)
      have hlen : (s.delivered ++ [v]).length = s.delivered.length + 1 := by simp
      refine AtomicRun.effect_ret hstage ?_
      change QueueEffect _ _ _ s.undelivered _ _ (s.claims.drop (s.delivered ++ [v]).length)
      rw [undelivered_front hclaim, hlen]
      exact .take p v _

/-- What the mapping rests on, for a queue of `cap` cells. -/
def Mapped (cap : ℕ) (s : World ι w T) : Prop :=
  s.queue.cap = cap ∧ Counters s ∧ Contents s ∧ ∃ l, Flags s l

theorem mapped_step {cap : ℕ} {a : Action ι T} (h : Mapped cap s)
    (hlt : s'.claims.length < 2 ^ w) (hs : step s a = some s') : Mapped cap s' := by
  obtain ⟨rfl, hc, hk, l, hf⟩ := h
  obtain ⟨hc', hk', hf'⟩ := flags_step s l a s' (fun _ => ⟨hc, hk, hf⟩) hs hlt
  have hcap : s'.queue.capacity = s.queue.capacity := by
    cases a with
    | push p value => rw [(enterPush_frame hs).2.2.2.2.2]
    | producer p spurious => exact (producerStep_frame hs).2.2.1
    | pop =>
        obtain ⟨-, rfl⟩ := enterPop_eq_some hs
        rfl
    | consumer left => exact (consumerStep_frame hs).2.2.2.2
  exact ⟨congrArg BitVec.toNat hcap, hc', hk', _, hf'⟩

theorem abstract_step {cap : ℕ} {a : Action ι T} (h : Mapped cap s) (hpass : NotPassed s a)
    (hlt : s'.claims.length < 2 ^ w) (hs : step s a = some s') :
    AtomicRun (queueSpec ι T cap) s.abstract (callEvents s a s') s'.abstract := by
  have hlt' : s.claims.length < 2 ^ w := (claims_isPrefix hs).length_le.trans_lt hlt
  obtain ⟨rfl, hc, hk, l, hf⟩ := h
  cases a with
  | push p value =>
      obtain ⟨hown, hother, -, -, -, hqueue⟩ := enterPush_frame hs
      obtain ⟨hidle, heq⟩ := enterPush_eq_some hs
      have hout : s.abstract.stage (.producer p) = .outside := by
        obtain hp | ⟨v, ret, hp⟩ := hidle <;> exact congrArg (·.stage s.queue) hp
      rw [abstract_of_producer (by rw [hqueue]) (by rw [heq]; rfl) hother, hown, heq]
      exact AtomicRun.single_call (.push value) hout
  | producer p spurious => exact abstract_producerStep hc hlt' hpass hs
  | pop =>
      obtain ⟨hidle, heq⟩ := enterPop_eq_some hs
      have hout : s.abstract.stage .consumer = .outside := by
        obtain hp | ⟨ret, hp⟩ := hidle <;> exact congrArg (·.stage s.queue) hp
      have habs := @abstract_of_consumer _ _ _ _ s s' (by rw [heq]) (by rw [heq])
      rw [habs, heq]
      exact AtomicRun.single_call .pop hout
  | consumer left => exact abstract_consumerStep hc hk hf hlt' hs

/-! ### Whole runs -/

theorem claims_exec {as : List (Action ι T)} (hs : exec step s as = some s') :
    s.claims <+: s'.claims :=
  exec_invariant (I := fun t => s.claims <+: t.claims)
    (fun _ _ _ h ht => h.trans (claims_isPrefix ht)) hs (List.prefix_refl _)

theorem steps_claims_lt {as : List (Action ι T)} (hs : exec step s as = some s')
    (hlt : s'.claims.length < 2 ^ w) :
    Steps step (fun _ _ t => t.claims.length < 2 ^ w) s as := by
  rintro bs a t t' ⟨cs, rfl⟩ ht hta
  rw [exec_append_eq_some] at hs
  obtain ⟨u, hu, hus⟩ := hs
  rw [exec_concat_eq_some.mpr ⟨t, ht, hta⟩, Option.some.injEq] at hu
  exact (hu ▸ claims_exec hus).length_le.trans_lt hlt

end Steps

/-- **Linearizability.** As long as the indices have not wrapped and no load of the tail
finds it past the head in hand, what any number of producers and the consumer see is a
history of one bounded queue, in which a pop may also give up on a front value whose push
has not returned. -/
theorem mpsc_linearizable [DecidableEq ι] {capacity : BitVec w} {data : ℕ → T}
    {as : List (Action ι T)} {s : World ι w T}
    (hs : exec step (World.start ι (.create capacity data)) as = some s)
    (hlt : s.claims.length < 2 ^ w)
    (hpass : Steps step (fun s a _ => NotPassed s a) (World.start ι (.create capacity data)) as) :
    Linearizable (queueSpec ι T capacity.toNat) []
      (record step callEvents (World.start ι (.create capacity data)) as) := by
  have hstart : Mapped capacity.toNat (World.start ι (.create capacity data)) :=
    ⟨rfl, counters_start capacity data, contents_start capacity data, [], flags_start _⟩
  have habs : (World.start ι (.create capacity data)).abstract = .start (Party ι) [] := by
    have hstage : (World.start ι (.create capacity data)).stage = fun _ => .outside := by
      funext t
      cases t <;> rfl
    unfold World.abstract Atomic.start
    rw [hstage]
    rfl
  exact linearizable_of_mapping (f := World.abstract)
    (C := fun s a s' => NotPassed s a ∧ s'.claims.length < 2 ^ w)
    (fun _ _ _ hC h ht => mapped_step h hC.2 ht)
    (fun _ _ _ hC h ht => abstract_step h hC.1 hC.2 ht)
    (hpass.and (steps_claims_lt hs hlt)) hs hstart habs

def slowPush : List (Action Bool ℕ) :=
  .push true 5 :: List.replicate 4 (.producer true false) ++
    .pop :: List.replicate 4 (.consumer 0) ++ List.replicate 2 (.producer true false)

theorem mpsc_linearizable_slowPush :
    ∃ s, exec step (World.start Bool (.create (3 : BitVec 64) fun _ => 0)) slowPush = some s ∧
      record step callEvents (World.start Bool (.create (3 : BitVec 64) fun _ => 0)) slowPush =
        [.call (.producer true) (.push 5), .call .consumer .pop, .ret .consumer (.popped none),
          .ret (.producer true) (.pushed true)] ∧
      Linearizable (queueSpec Bool ℕ 3) []
        (record step callEvents (World.start Bool (.create (3 : BitVec 64) fun _ => 0))
          slowPush) := by
  have hs : exec step (World.start Bool (.create (3 : BitVec 64) fun _ => 0)) slowPush =
    some _ := rfl
  exact ⟨_, hs, rfl, mpsc_linearizable hs (by decide) (by decide)⟩

end SystemsPrep.Mpsc
