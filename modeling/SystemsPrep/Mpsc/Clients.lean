import SystemsPrep.Mpsc.Delivery
import SystemsPrep.Mpsc.Linearizable
import SystemsPrep.Mpsc.LockFree
import SystemsPrep.Mpsc.Size
import Mathlib.Algebra.Order.BigOperators.Group.Finset
import Mathlib.Data.Fintype.Card

/-!
The threads that the tests run on a multi-producer queue.

Each producer thread pushes its values one after the other, and makes a call again that
has been refused. The consumer thread pops until it has as many values as there are to
come, puts each to a check, and gives up at the first that fails it.
-/

namespace SystemsPrep.Mpsc

open Base

variable {ι : Type*} {w : ℕ} {T σ : Type*}

structure Feeders (ι T : Type*) where
  items : ℕ
  value : ι → ℕ → T

/-- The loop of the consumer thread: the number of values it waits for, and its check,
which keeps a state of its own and may fail. -/
structure Drainer (σ T : Type*) where
  items : ℕ
  init : σ
  check : σ → T → Option σ

/-! ### The programs of the source -/

/-- The producer thread of the single-producer test of `test_mpmc.cpp`. -/
def spscProducer (items : ℕ) : Feeders Unit (BitVec 32) := ⟨items, fun _ i => BitVec.ofNat 32 i⟩

/-- Its consumer thread, which counts in `expected`. -/
def spscConsumer (items : ℕ) : Drainer (BitVec 32) (BitVec 32) where
  items := items
  init := 0
  check expected got := if got ≠ expected then none else some (expected + 1)

def pack (pid seq : BitVec 32) : BitVec 64 := (pid.setWidth 64) <<< 32 ||| seq.setWidth 64

def unpackPid (v : BitVec 64) : BitVec 32 := (v >>> 32).setWidth 32

def unpackSeq (v : BitVec 64) : BitVec 32 := v.setWidth 32

/-- The producer threads of `test_concurrent_mpsc`. -/
def mpscProducers (producers perProd : ℕ) : Feeders (Fin producers) (BitVec 64) :=
  ⟨perProd, fun p i => pack (BitVec.ofNat 32 p) (BitVec.ofNat 32 i)⟩

structure LastSeen where
  first : ℕ → Bool
  lastSeq : ℕ → BitVec 32

/-- The consumer thread of `test_concurrent_mpsc`. -/
def mpscConsumer (producers perProd : ℕ) : Drainer LastSeen (BitVec 64) where
  items := producers * perProd
  init := ⟨fun _ => true, fun _ => 0⟩
  check s got :=
    let pid := (unpackPid got).toNat
    let seq := unpackSeq got
    if producers ≤ pid then none
    else if s.first pid then
      if seq ≠ 0 then none
      else some ⟨Function.update s.first pid false, Function.update s.lastSeq pid seq⟩
    else if seq ≠ s.lastSeq pid + 1 then none
    else some ⟨s.first, Function.update s.lastSeq pid seq⟩

/-! ### The threads on a queue -/

/-- The queue with its users and the local variables of the threads. `seen` is the state of
the consumer's check, if it has not failed. -/
structure Clients (ι : Type*) (w : ℕ) (T σ : Type*) where
  world : World ι w T
  sent : ι → ℕ
  total : ℕ
  seen : Option σ

def Clients.start (ι : Type*) (q : MpscQueue w T) (d : Drainer σ T) : Clients ι w T σ where
  world := .start ι q
  sent _ := 0
  total := 0
  seen := some d.init

def Producer.current? : Producer w T → Option T
  | .idle | .returned _ _ => none
  | .loadHead v | .loadTail v _ | .testFull v _ _ | .compareExchange v _ _ | .write v _
  | .storeReady v _ => some v

def Consumer.inCall : Consumer w T → Bool
  | .idle | .returned _ => false
  | _ => true

def Producer.accepted : Producer w T → Bool
  | .returned _ ret => ret
  | _ => false

variable [DecidableEq ι]

def producerTurn (f : Feeders ι T) (s : Clients ι w T σ) (p : ι) (spurious : Bool) :
    Option (Clients ι w T σ) :=
  match (s.world.producers p).current? with
  | none =>
      if s.sent p < f.items then
        (enterPush s.world p (f.value p (s.sent p))).map fun v => { s with world := v }
      else none
  | some _ =>
      (producerStep s.world p spurious).map fun v =>
        { s with
          world := v
          sent := Function.update s.sent p (s.sent p + ((v.producers p).accepted).toNat) }

omit [DecidableEq ι] in
def Clients.receive (d : Drainer σ T) (s : Clients ι w T σ) (v : World ι w T) :
    Clients ι w T σ :=
  match v.consumer with
  | .returned (some got) =>
      match s.seen.bind fun t => d.check t got with
      | none => { s with world := v, seen := none }
      | some t => { s with world := v, seen := some t, total := s.total + 1 }
  | _ => { s with world := v }

omit [DecidableEq ι] in
def consumerTurn (d : Drainer σ T) (s : Clients ι w T σ) (left : T) : Option (Clients ι w T σ) :=
  if s.world.consumer.inCall then (consumerStep s.world left).map (s.receive d)
  else if s.seen.isSome ∧ s.total < d.items then
    (enterPop s.world).map fun v => { s with world := v }
  else none

inductive Turn (ι T : Type*)
  | producer (p : ι) (spurious : Bool)
  | consumer (left : T)

def Turn.party : Turn ι T → Party ι
  | .producer p _ => .producer p
  | .consumer _ => .consumer

def clientStep (f : Feeders ι T) (d : Drainer σ T) (s : Clients ι w T σ) :
    Turn ι T → Option (Clients ι w T σ)
  | .producer p spurious => producerTurn f s p spurious
  | .consumer left => consumerTurn d s left

/-! ### What a step does -/

inductive ClientMove (f : Feeders ι T) (d : Drainer σ T) (s : Clients ι w T σ) :
    Turn ι T → Clients ι w T σ → Prop
  | push (p : ι) (spurious : Bool) (v : World ι w T)
      (hrest : (s.world.producers p).current? = none) (hlt : s.sent p < f.items)
      (hv : enterPush s.world p (f.value p (s.sent p)) = some v) :
      ClientMove f d s (.producer p spurious) { s with world := v }
  | producer (p : ι) (spurious : Bool) (v : World ι w T)
      (hv : producerStep s.world p spurious = some v) :
      ClientMove f d s (.producer p spurious)
        { s with
          world := v
          sent := Function.update s.sent p (s.sent p + ((v.producers p).accepted).toNat) }
  | pop (left : T) (v : World ι w T) (hrest : s.world.consumer.inCall = false)
      (hseen : s.seen.isSome) (hlt : s.total < d.items) (hv : enterPop s.world = some v) :
      ClientMove f d s (.consumer left) { s with world := v }
  | consumer (left : T) (v : World ι w T) (hv : consumerStep s.world left = some v) :
      ClientMove f d s (.consumer left) (s.receive d v)

section Steps

variable {f : Feeders ι T} {d : Drainer σ T} {s s' : Clients ι w T σ} {t : Turn ι T}

theorem clientMove_of_step (h : clientStep f d s t = some s') : ClientMove f d s t s' := by
  cases t with
  | producer p spurious =>
      simp only [clientStep, producerTurn] at h
      split at h
      · split at h
        · obtain ⟨v, hv, rfl⟩ := Option.map_eq_some_iff.mp h
          exact .push p spurious v ‹_› ‹_› hv
        · cases h
      · obtain ⟨v, hv, rfl⟩ := Option.map_eq_some_iff.mp h
        exact .producer p spurious v hv
  | consumer left =>
      simp only [clientStep, consumerTurn] at h
      split at h
      · obtain ⟨v, hv, rfl⟩ := Option.map_eq_some_iff.mp h
        exact .consumer left v hv
      · split at h
        · rename_i hrest hmore
          obtain ⟨v, hv, rfl⟩ := Option.map_eq_some_iff.mp h
          exact .pop left v (Bool.eq_false_of_not_eq_true hrest) hmore.1 hmore.2 hv
        · cases h

omit [DecidableEq ι] in
@[simp] theorem Clients.receive_world (d : Drainer σ T) (s : Clients ι w T σ) (v : World ι w T) :
    (s.receive d v).world = v := by
  unfold Clients.receive
  split
  · split <;> rfl
  · rfl

omit [DecidableEq ι] in
@[simp] theorem Clients.receive_sent (d : Drainer σ T) (s : Clients ι w T σ) (v : World ι w T) :
    (s.receive d v).sent = s.sent := by
  unfold Clients.receive
  split
  · split <;> rfl
  · rfl

end Steps

/-! ### What a step makes of a call -/

section Outcomes

variable {s s' : World ι w T} {p : ι}

/-- A push that is past its claim is accepted; one step makes a claim or leaves the number
of values that its producer has brought into the queue. -/
inductive PushOutcome (s s' : World ι w T) (p : ι) : Prop
  | kept (hclaims : s'.claims = s.claims)
      (howned : ((s'.producers p).accepted).toNat + ((s'.producers p).owned.isSome).toNat =
        ((s.producers p).owned.isSome).toNat)
      (hcurrent : ∀ v ∈ (s'.producers p).current?,
        v ∈ (s.producers p).current? ∧ (s'.producers p).accepted = false) : PushOutcome s s' p
  | claimed (value : T) (hvalue : (s.producers p).current? = some value)
      (hclaims : s'.claims = s.claims ++ [(p, value)])
      (hbefore : (s.producers p).owned = none) (hafter : (s'.producers p).owned.isSome = true)
      (hcurrent : (s'.producers p).current? = some value)
      (haccepted : (s'.producers p).accepted = false) : PushOutcome s s' p

theorem pushOutcome_of_step {spurious : Bool} (hs : producerStep s p spurious = some s') :
    PushOutcome s s' p := by
  cases producerMove_of_step hs with
  | loadHead _ hp | loadTail _ _ hp | full _ _ _ hp | notFull _ _ _ hp | retry _ _ _ hp
  | write _ _ hp | storeReady _ _ hp =>
      refine .kept rfl ?_ ?_ <;>
        simp [World.reloadHead, World.setProducer, hp, Producer.accepted, Producer.owned,
          Producer.current?]
  | claim value head tail hp =>
      refine .claimed value ?_ rfl ?_ ?_ ?_ ?_ <;>
        simp [World.setProducer, hp, Producer.accepted, Producer.owned, Producer.current?]

inductive PopOutcome (s s' : World ι w T) : Prop
  | none (hdelivered : s'.delivered = s.delivered) (hret : ∀ v, s'.consumer ≠ .returned (some v)) :
      PopOutcome s s'
  | some (value : T) (hdelivered : s'.delivered = s.delivered ++ [value])
      (hret : s'.consumer = .returned (some value)) : PopOutcome s s'

omit [DecidableEq ι] in
theorem popOutcome_of_step {left : T} (hs : consumerStep s left = some s') :
    PopOutcome s s' := by
  cases consumerMove_of_step hs with
  | storeTail tail value hp => exact .some value rfl rfl
  | loadTail | loadHead | empty | notEmpty | ready | notReady | moveOut | clearReady =>
      exact .none rfl (by simp)

end Outcomes

/-! ### What the threads keep -/

/-- The list is an interleaving of first parts of what the producers push. -/
def Interleaves (f : Feeders ι T) (l : List (ι × T)) : Prop :=
  ∀ p, (l.filter fun a => a.1 = p).map Prod.snd <+: (List.range f.items).map (f.value p)

/-- The check passes on everything that may arrive. -/
def Agree (f : Feeders ι T) (d : Drainer σ T) : Prop :=
  ∀ l, Interleaves f l → ((l.map Prod.snd).foldlM d.check d.init).isSome

def Clients.claimed (s : Clients ι w T σ) (p : ι) : ℕ :=
  s.sent p + ((s.world.producers p).owned.isSome).toNat

structure Sending (f : Feeders ι T) (s : Clients ι w T σ) : Prop where
  claimed_le : ∀ p, s.claimed p ≤ f.items
  own : ∀ p, s.world.claimsOf p = (List.range (s.claimed p)).map (f.value p)
  pushing : ∀ p, ∀ v ∈ (s.world.producers p).current?, v = f.value p (s.sent p) ∧
    s.sent p < f.items

structure Receiving (d : Drainer σ T) (s : Clients ι w T σ) : Prop where
  popping : s.world.consumer.inCall = true → s.seen.isSome ∧ s.total < d.items
  total : s.seen.isSome → s.total = s.world.delivered.length
  seen : s.seen = s.world.delivered.foldlM d.check d.init

section Keeps

variable {f : Feeders ι T} {d : Drainer σ T} {s s' : Clients ι w T σ} {t : Turn ι T}

/-- The thread of `p` moves, and the others stay as they are. -/
theorem Sending.of_others (h : Sending f s) (p : ι)
    (hother : ∀ q ≠ p, s'.world.producers q = s.world.producers q ∧ s'.sent q = s.sent q ∧
      s'.world.claimsOf q = s.world.claimsOf q)
    (hle : s'.claimed p ≤ f.items)
    (hown : s'.world.claimsOf p = (List.range (s'.claimed p)).map (f.value p))
    (hpushing : ∀ v ∈ (s'.world.producers p).current?, v = f.value p (s'.sent p) ∧
      s'.sent p < f.items) : Sending f s' := by
  have hclaimed : ∀ q ≠ p, s'.claimed q = s.claimed q := by
    intro q hq
    obtain ⟨hprod, hsent, -⟩ := hother q hq
    rw [Clients.claimed, Clients.claimed, hprod, hsent]
  refine ⟨fun q => ?_, fun q => ?_, fun q => ?_⟩
  all_goals
    by_cases hq : q = p
    · subst hq
      assumption
  · rw [hclaimed q hq]
    exact h.claimed_le q
  · rw [hclaimed q hq, (hother q hq).2.2]
    exact h.own q
  · rw [(hother q hq).1, (hother q hq).2.1]
    exact h.pushing q

theorem Sending.push (h : Sending f s) {p : ι} {v : World ι w T}
    (hrest : (s.world.producers p).current? = none) (hlt : s.sent p < f.items)
    (hv : enterPush s.world p (f.value p (s.sent p)) = some v) :
    Sending f { s with world := v } := by
  obtain ⟨hp, hrestq, -, hclaims, -⟩ := enterPush_frame hv
  have hnone : (s.world.producers p).owned = none := by
    cases hprod : s.world.producers p with
    | write | storeReady =>
        rw [hprod] at hrest
        cases hrest
    | _ => rfl
  have hclaimed : ({ s with world := v } : Clients ι w T σ).claimed p = s.claimed p := by
    simp only [Clients.claimed, hp, hnone]
    rfl
  refine h.of_others p (fun q hq => ⟨hrestq q hq, rfl, by rw [World.claimsOf, hclaims]; rfl⟩) ?_ ?_ ?_
  · rw [hclaimed]
    exact h.claimed_le p
  · rw [hclaimed, World.claimsOf, hclaims]
    exact h.own p
  · intro u hu
    simp only [hp, Producer.current?, Option.mem_def, Option.some.injEq] at hu
    exact ⟨hu.symm, hlt⟩

theorem Sending.producer (h : Sending f s) {p : ι} {spurious : Bool} {v : World ι w T}
    (hv : producerStep s.world p spurious = some v) :
    Sending f
      { s with
        world := v
        sent := Function.update s.sent p (s.sent p + ((v.producers p).accepted).toNat) } := by
  obtain ⟨hrest, -⟩ := producerStep_frame hv
  have hle := h.claimed_le p
  have hown := h.own p
  cases pushOutcome_of_step hv with
  | kept hclaims howned hcurrent =>
      have hclaimed : ({ s with
          world := v
          sent := Function.update s.sent p (s.sent p + ((v.producers p).accepted).toNat) } :
          Clients ι w T σ).claimed p = s.claimed p := by
        simp only [Clients.claimed, Function.update_self]
        omega
      refine h.of_others p (fun q hq => ⟨(hrest q hq).1, Function.update_of_ne hq .., ?_⟩) ?_ ?_ ?_
      · rw [World.claimsOf, hclaims, World.claimsOf]
      · rwa [hclaimed]
      · rw [hclaimed, World.claimsOf, hclaims]
        exact hown
      · intro u hu
        obtain ⟨hold, hnot⟩ := hcurrent u hu
        simp only [Function.update_self, hnot, Bool.toNat_false, Nat.add_zero]
        exact h.pushing p u hold
  | claimed value hvalue hclaims hbefore hafter hcurrent haccepted =>
      obtain ⟨hsame, hlt⟩ := h.pushing p value hvalue
      have hclaimed : ({ s with
          world := v
          sent := Function.update s.sent p (s.sent p + ((v.producers p).accepted).toNat) } :
          Clients ι w T σ).claimed p = s.sent p + 1 := by
        simp only [Clients.claimed, Function.update_self, haccepted, hafter]
        rfl
      have hold : s.claimed p = s.sent p := by
        simp only [Clients.claimed, hbefore]
        rfl
      refine h.of_others p (fun q hq => ⟨(hrest q hq).1, Function.update_of_ne hq .., ?_⟩) ?_ ?_ ?_
      · rw [World.claimsOf, hclaims, pairs_concat, if_neg (Ne.symm hq), List.append_nil]
        rfl
      · rw [hclaimed]
        exact hlt
      · rw [hold] at hown
        rw [hclaimed, World.claimsOf, hclaims, pairs_concat, if_pos rfl, List.range_succ,
          List.map_append, hsame]
        exact congrArg (· ++ [f.value p (s.sent p)]) hown
      · intro u hu
        rw [hcurrent] at hu
        cases hu
        simp only [Function.update_self, haccepted, Bool.toNat_false, Nat.add_zero]
        exact ⟨hsame, hlt⟩

theorem Sending.consumer (h : Sending f s) {v : World ι w T}
    (hprod : v.producers = s.world.producers) (hclaims : v.claims = s.world.claims)
    (hworld : s'.world = v) (hsent : s'.sent = s.sent) : Sending f s' := by
  have hclaimed : ∀ q, s'.claimed q = s.claimed q := by
    intro q
    rw [Clients.claimed, Clients.claimed, hworld, hprod, hsent]
  refine ⟨fun q => ?_, fun q => ?_, fun q => ?_⟩
  · rw [hclaimed]
    exact h.claimed_le q
  · rw [hclaimed, hworld, World.claimsOf, hclaims]
    exact h.own q
  · rw [hworld, hprod, hsent]
    exact h.pushing q

theorem sending_step (h : Sending f s) (hs : clientStep f d s t = some s') : Sending f s' := by
  cases clientMove_of_step hs with
  | push p spurious v hrest hlt hv => exact h.push hrest hlt hv
  | producer p spurious v hv => exact h.producer hv
  | pop left v hrest hseen hlt hv =>
      obtain ⟨-, heq⟩ := enterPop_eq_some hv
      exact h.consumer (v := v) (by rw [heq]) (by rw [heq]) rfl rfl
  | consumer left v hv =>
      obtain ⟨hprod, -, hclaims, -⟩ := consumerStep_frame hv
      exact h.consumer hprod hclaims (Clients.receive_world ..) (Clients.receive_sent ..)

omit [DecidableEq ι] in
theorem Receiving.receive (h : Receiving d s) (hcall : s.world.consumer.inCall = true)
    {left : T} {v : World ι w T} (hv : consumerStep s.world left = some v) :
    Receiving d (s.receive d v) := by
  obtain ⟨hseen, hlt⟩ := h.popping hcall
  obtain ⟨t, ht⟩ := Option.isSome_iff_exists.mp hseen
  have htotal := h.total hseen
  have hfold := h.seen
  cases popOutcome_of_step hv with
  | none hdelivered hret =>
      have hsame : s.receive d v = { s with world := v } := by
        unfold Clients.receive
        split
        · exact absurd ‹_› (hret _)
        · rfl
      rw [hsame]
      refine ⟨fun _ => ⟨hseen, hlt⟩, fun _ => ?_, ?_⟩
      · simp only [hdelivered, htotal]
      · simp only [hdelivered, hfold]
  | some value hdelivered hret =>
      have hnext : v.delivered.foldlM d.check d.init = d.check t value := by
        rw [hdelivered, List.foldlM_append, ← hfold, ht]
        simp
      cases hcheck : d.check t value with
      | none =>
          have hafter : s.receive d v = { s with world := v, seen := none } := by
            simp only [Clients.receive, hret, ht, Option.bind_some, hcheck]
          rw [hafter]
          refine ⟨fun hin => ?_, nofun, ?_⟩
          · simp [hret, Consumer.inCall] at hin
          · simp only [hnext, hcheck]
      | some u =>
          have hafter : s.receive d v =
              { s with world := v, seen := some u, total := s.total + 1 } := by
            simp only [Clients.receive, hret, ht, Option.bind_some, hcheck]
          rw [hafter]
          refine ⟨fun hin => ?_, fun _ => ?_, ?_⟩
          · simp [hret, Consumer.inCall] at hin
          · simp only [hdelivered, List.length_append, List.length_singleton, htotal]
          · simp only [hnext, hcheck]

theorem receiving_step (h : Receiving d s) (hs : clientStep f d s t = some s') :
    Receiving d s' := by
  cases clientMove_of_step hs with
  | push p spurious v hrest hlt hv =>
      obtain ⟨-, heq⟩ := enterPush_eq_some hv
      rw [heq]
      exact { h with }
  | producer p spurious v hv =>
      have hsame : v.consumer = s.world.consumer := by
        cases producerMove_of_step hv <;> rfl
      have hdelivered := (producerStep_frame hv).2.1
      refine ⟨?_, ?_, ?_⟩
      · rw [hsame]
        exact h.popping
      · rw [hdelivered]
        exact h.total
      · rw [hdelivered]
        exact h.seen
  | pop left v hrest hseen hlt hv =>
      obtain ⟨-, heq⟩ := enterPop_eq_some hv
      rw [heq]
      exact { h with popping := fun _ => ⟨hseen, hlt⟩ }
  | consumer left v hv =>
      refine h.receive ?_ hv
      cases hcons : s.world.consumer with
      | idle | returned => simp [consumerStep, hcons] at hv
      | _ => rfl

end Keeps

/-! ### Numbers -/

section Numbers

variable [Fintype ι] {f : Feeders ι T} {d : Drainer σ T} {s s' : Clients ι w T σ}
  {t : Turn ι T}

theorem length_eq_sum (l : List (ι × T)) :
    l.length = ∑ p, ((l.filter fun a => a.1 = p).map Prod.snd).length := by
  induction l with
  | nil => simp
  | cons a l ih =>
      have hcons : ∀ p, (((a :: l).filter fun a => a.1 = p).map Prod.snd).length =
          (if a.1 = p then 1 else 0) + ((l.filter fun a => a.1 = p).map Prod.snd).length := by
        intro p
        by_cases hp : a.1 = p
        · simp [hp, Nat.add_comm]
        · simp [hp]
      simp only [hcons, Finset.sum_add_distrib, Finset.sum_ite_eq, Finset.mem_univ, if_true]
      rw [← ih, List.length_cons, Nat.add_comm]

theorem Sending.length_claims (h : Sending f s) :
    s.world.claims.length = ∑ p, s.claimed p := by
  rw [length_eq_sum]
  refine Finset.sum_congr rfl fun p _ => ?_
  have hown := congrArg List.length (h.own p)
  rwa [List.length_map, List.length_range] at hown

theorem Sending.length_claims_le (h : Sending f s) :
    s.world.claims.length ≤ Fintype.card ι * f.items := by
  have hle := Finset.sum_le_card_nsmul Finset.univ s.claimed f.items fun p _ => h.claimed_le p
  rwa [h.length_claims, ← Finset.card_univ, ← Nat.nsmul_eq_mul]

end Numbers

/-! ### Runs of the threads -/

structure Honest (f : Feeders ι T) (d : Drainer σ T) (cap : ℕ) (s : Clients ι w T σ) : Prop where
  mapped : Mapped cap s.world
  sending : Sending f s
  receiving : Receiving d s

structure Finished (f : Feeders ι T) (d : Drainer σ T) (s : Clients ι w T σ) : Prop where
  seen : s.seen.isSome
  sent : ∀ p, s.sent p = f.items
  total : s.total = d.items
  producers : ∀ p, (s.world.producers p).current? = none
  consumer : s.world.consumer.inCall = false
  empty : s.world.queue.isEmptyAcross s.world.queue = true

section Runs

variable {f : Feeders ι T} {d : Drainer σ T} {cap : ℕ} {s s' : Clients ι w T σ} {t : Turn ι T}

theorem step_of_clientStep (h : clientStep f d s t = some s') :
    ∃ a, step s.world a = some s'.world := by
  cases clientMove_of_step h with
  | push p spurious v hrest hlt hv => exact ⟨.push p _, hv⟩
  | producer p spurious v hv => exact ⟨.producer p spurious, hv⟩
  | pop left v hrest hseen hlt hv => exact ⟨.pop, hv⟩
  | consumer left v hv => exact ⟨.consumer left, by rw [Clients.receive_world]; exact hv⟩

theorem honest_step [Fintype ι] (hfit : Fintype.card ι * f.items < 2 ^ w) (h : Honest f d cap s)
    (hs : clientStep f d s t = some s') : Honest f d cap s' := by
  obtain ⟨a, ha⟩ := step_of_clientStep hs
  have hsending := sending_step h.sending hs
  have hlt : s'.world.claims.length < 2 ^ w := hsending.length_claims_le.trans_lt hfit
  exact ⟨mapped_step h.mapped hlt ha, hsending, receiving_step h.receiving hs⟩

theorem honest_start (f : Feeders ι T) (d : Drainer σ T) (capacity : BitVec w) (data : ℕ → T) :
    Honest f d capacity.toNat (Clients.start ι (.create capacity data) d) where
  mapped := ⟨rfl, counters_start capacity data, contents_start capacity data, [], flags_start _⟩
  sending :=
    { claimed_le := fun _ => Nat.zero_le _
      own := fun _ => rfl
      pushing := fun p v hv => by simp [Clients.start, World.start, Producer.current?] at hv }
  receiving :=
    { popping := fun h => by simp [Clients.start, World.start, Consumer.inCall] at h
      total := fun _ => rfl
      seen := rfl }

theorem honest_after [Fintype ι] (hfit : Fintype.card ι * f.items < 2 ^ w) {ts : List (Turn ι T)}
    (h : Honest f d cap s) (hs : exec (clientStep f d) s ts = some s') : Honest f d cap s' :=
  exec_invariant (I := Honest f d cap) (fun _ _ _ h hs => honest_step hfit h hs) hs h

theorem Honest.delivered_eq (h : Honest f d cap s) :
    s.world.delivered = (s.world.claims.take s.world.delivered.length).map Prod.snd ∧
      Interleaves f (s.world.claims.take s.world.delivered.length) := by
  obtain ⟨-, -, hk, -⟩ := h.mapped
  refine ⟨?_, fun p => ?_⟩
  · rw [List.map_take]
    exact List.prefix_iff_eq_take.mp hk.fifo
  · have hall : s.world.claimsOf p <+: (List.range f.items).map (f.value p) := by
      rw [h.sending.own p]
      refine List.IsPrefix.map _ ?_
      rw [List.prefix_iff_eq_take, List.length_range, List.take_range,
        Nat.min_eq_left (h.sending.claimed_le p)]
    refine List.IsPrefix.trans (List.IsPrefix.map _ (List.IsPrefix.filter _ ?_)) hall
    exact List.take_prefix ..

theorem Honest.seen_isSome (h : Honest f d cap s) (hagree : Agree f d) : s.seen.isSome := by
  obtain ⟨hdel, hinter⟩ := h.delivered_eq
  rw [h.receiving.seen, hdel]
  exact hagree _ hinter

theorem Honest.total_le (h : Honest f d cap s) (hagree : Agree f d) :
    s.total ≤ s.world.claims.length := by
  obtain ⟨-, hc, -⟩ := h.mapped
  rw [h.receiving.total (h.seen_isSome hagree)]
  exact hc.le

/-- Threads that have all done their work are in no call. -/
theorem Honest.finished [Fintype ι] (h : Honest f d cap s) (hagree : Agree f d)
    (hitems : d.items = Fintype.card ι * f.items) (hsent : ∀ p, s.sent p = f.items)
    (htotal : s.total = d.items) : Finished f d s := by
  have hseen := h.seen_isSome hagree
  obtain ⟨-, hc, -⟩ := h.mapped
  have hle := h.sending.length_claims_le
  have hdel := h.receiving.total hseen
  have hclaims := hc.le
  refine ⟨hseen, hsent, htotal, fun p => ?_, ?_, ?_⟩
  · refine Option.eq_none_iff_forall_ne_some.mpr fun v hv => ?_
    have hlt := (h.sending.pushing p v hv).2
    rw [hsent p] at hlt
    exact absurd hlt (lt_irrefl _)
  · cases hin : s.world.consumer.inCall with
    | false => rfl
    | true =>
        have hlt := (h.receiving.popping hin).2
        omega
  · have hsize : s.world.queue.sizeAcross s.world.queue = 0 := by
      apply BitVec.eq_of_toNat_eq
      rw [MpscQueue.sizeAcross, hc.toNat_head_sub_tail]
      simp only [BitVec.ofNat_eq_ofNat, BitVec.toNat_ofNat, Nat.zero_mod]
      omega
    rw [MpscQueue.isEmptyAcross, hsize]
    rfl

theorem producerTurn_isSome {p : ι} (hlt : s.sent p < f.items) :
    (producerTurn f s p false).isSome := by
  cases hp : (s.world.producers p).current? with
  | none =>
      cases hprod : s.world.producers p with
      | idle | returned => simp [producerTurn, hprod, Producer.current?, hlt, enterPush]
      | _ =>
          rw [hprod] at hp
          cases hp
  | some v =>
      have hvalue : (s.world.producers p).value? = some v := by
        cases hprod : s.world.producers p <;> rw [hprod] at hp <;> first | exact hp | cases hp
      rcases returned_or_producerStep hvalue with ⟨ret, hret⟩ | hstep
      · rw [hret] at hp
        cases hp
      · simp [producerTurn, hp, hstep]

omit [DecidableEq ι] in
theorem consumerTurn_isSome (hseen : s.seen.isSome) (hlt : s.total < d.items) (left : T) :
    (consumerTurn d s left).isSome := by
  cases hin : s.world.consumer.inCall with
  | false =>
      cases hcons : s.world.consumer with
      | idle | returned => simp [consumerTurn, hcons, Consumer.inCall, hseen, hlt, enterPop]
      | _ =>
          rw [hcons] at hin
          cases hin
  | true =>
      have hidle : s.world.consumer ≠ .idle := by
        intro hcons
        rw [hcons] at hin
        cases hin
      rcases returned_or_consumerStep hidle left with ⟨ret, hret⟩ | hstep
      · rw [hret] at hin
        cases hin
      · simp [consumerTurn, hin, hstep]

theorem Honest.length_claims_of_sent [Fintype ι] (h : Honest f d cap s)
    (hsent : ∀ p, f.items ≤ s.sent p) : s.world.claims.length = Fintype.card ι * f.items := by
  have hall : ∀ p, s.claimed p = f.items := by
    intro p
    have hle := h.sending.claimed_le p
    have hge := hsent p
    simp only [Clients.claimed] at hle ⊢
    omega
  rw [h.sending.length_claims, Finset.sum_congr rfl fun p _ => hall p, Finset.sum_const,
    Finset.card_univ, Nat.nsmul_eq_mul]

/-- The threads stop only when all are done. -/
theorem Honest.finished_of_stuck [Fintype ι] [Nonempty T] (h : Honest f d cap s)
    (hagree : Agree f d) (hitems : d.items = Fintype.card ι * f.items)
    (hstuck : ∀ t, clientStep f d s t = none) : Finished f d s := by
  have hsent : ∀ p, f.items ≤ s.sent p := by
    intro p
    by_contra hlt
    have hstep := producerTurn_isSome (f := f) (s := s) (p := p) (by omega)
    have hnone : producerTurn f s p false = none := hstuck (.producer p false)
    rw [hnone] at hstep
    cases hstep
  have htotal : d.items ≤ s.total := by
    by_contra hlt
    obtain ⟨left⟩ := ‹Nonempty T›
    have hstep := consumerTurn_isSome (d := d) (h.seen_isSome hagree) (by omega) left
    have hnone : consumerTurn d s left = none := hstuck (.consumer left)
    rw [hnone] at hstep
    cases hstep
  have hclaims := h.length_claims_of_sent hsent
  have hle := h.total_le hagree
  refine h.finished hagree hitems (fun p => ?_) (by omega)
  have hp := h.sending.claimed_le p
  have hge := hsent p
  simp only [Clients.claimed] at hp
  omega

end Runs

/-! ### The programs -/

theorem unpackPid_pack (pid seq : BitVec 32) : unpackPid (pack pid seq) = pid := by
  apply BitVec.eq_of_getLsbD_eq
  intro i hi
  have hlow : i < 64 := by omega
  have hhigh : 32 + i < 64 := by omega
  simp [unpackPid, pack, hi, hlow, hhigh]

theorem unpackSeq_pack (pid seq : BitVec 32) : unpackSeq (pack pid seq) = seq := by
  apply BitVec.eq_of_getLsbD_eq
  intro i hi
  simp [unpackSeq, pack, hi]

section Checks

variable {ι : Type*} [DecidableEq ι] {f : Feeders ι T} {l : List (ι × T)} {p : ι} {v : T}

theorem Interleaves.of_concat (h : Interleaves f (l ++ [(p, v)])) : Interleaves f l := by
  intro q
  refine List.IsPrefix.trans ?_ (h q)
  exact List.IsPrefix.map _ (List.IsPrefix.filter _ (List.prefix_append ..))

theorem Interleaves.last (h : Interleaves f (l ++ [(p, v)])) :
    v = f.value p (l.filter fun a => a.1 = p).length := by
  have hp := h p
  rw [pairs_concat, if_pos rfl] at hp
  have hnext := List.prefix_iff_getElem?.mp hp (l.filter fun a => a.1 = p).length (by simp)
  simp only [List.getElem?_map, Option.map_eq_some_iff] at hnext
  obtain ⟨i, hi, hv⟩ := hnext
  have hindex : (l.filter fun a => a.1 = p).length = i := by
    simpa using (List.getElem?_eq_some_iff.mp hi).2
  rw [hindex, hv]
  simp

end Checks

theorem agree_spscProducer (items : ℕ) : Agree (spscProducer items) (spscConsumer items) := by
  have hcheck : ∀ l, Interleaves (spscProducer items) l →
      (l.map Prod.snd).foldlM (spscConsumer items).check (spscConsumer items).init =
        some (BitVec.ofNat 32 l.length) := by
    intro l
    induction l using List.reverseRecOn with
    | nil => exact fun _ => rfl
    | append_singleton l a ih =>
        obtain ⟨p, v⟩ := a
        intro h
        have hv := h.last
        have hall : (l.filter fun a => a.1 = p) = l :=
          List.filter_eq_self.mpr fun a _ => decide_eq_true (Subsingleton.elim ..)
        rw [hall] at hv
        rw [List.map_append, List.foldlM_append, ih h.of_concat]
        simp [spscConsumer, hv, spscProducer, BitVec.ofNat_add]
  intro l h
  rw [hcheck l h]
  rfl

/-- The check of `mpscConsumer` remembers how many values of each producer it has seen. -/
structure Remembers {producers : ℕ} (l : List (Fin producers × BitVec 64)) (s : LastSeen) :
    Prop where
  first : ∀ p : Fin producers, s.first p = decide ((l.filter fun a => a.1 = p).length = 0)
  lastSeq : ∀ p : Fin producers, 0 < (l.filter fun a => a.1 = p).length →
    s.lastSeq p = BitVec.ofNat 32 ((l.filter fun a => a.1 = p).length - 1)

theorem length_filter_concat {ι T : Type*} [DecidableEq ι] (l : List (ι × T)) (p q : ι) (v : T) :
    ((l ++ [(p, v)]).filter fun a => a.1 = q).length =
      (l.filter fun a => a.1 = q).length + if p = q then 1 else 0 := by
  by_cases h : p = q <;> simp [List.filter_append, h]

theorem Remembers.concat {producers : ℕ} {l : List (Fin producers × BitVec 64)} {s s' : LastSeen}
    (h : Remembers l s) {p : Fin producers} {v : BitVec 64}
    (hfirst : ∀ q, s'.first q = if q = (p : ℕ) then false else s.first q)
    (hlast : ∀ q, s'.lastSeq q = if q = (p : ℕ) then
      BitVec.ofNat 32 (l.filter fun a => a.1 = p).length else s.lastSeq q) :
    Remembers (l ++ [(p, v)]) s' := by
  constructor
  · intro q
    rw [hfirst, length_filter_concat]
    by_cases hq : q = p
    · subst hq
      simp
    · rw [if_neg fun hval => hq (Fin.ext hval), if_neg (Ne.symm hq), Nat.add_zero]
      exact h.first q
  · intro q hpos
    rw [length_filter_concat] at hpos ⊢
    rw [hlast]
    by_cases hq : q = p
    · subst hq
      simp
    · rw [if_neg (Ne.symm hq), Nat.add_zero] at hpos ⊢
      rw [if_neg fun hval => hq (Fin.ext hval)]
      exact h.lastSeq q hpos

/-- The check passes one more value. -/
theorem Remembers.check {producers : ℕ} (perProd : ℕ) (hproducers : producers < 2 ^ 32)
    {l : List (Fin producers × BitVec 64)} {s : LastSeen} (h : Remembers l s)
    {p : Fin producers} {v : BitVec 64}
    (hv : v = pack (BitVec.ofNat 32 p) (BitVec.ofNat 32 (l.filter fun a => a.1 = p).length)) :
    ∃ s', (mpscConsumer producers perProd).check s v = some s' ∧
      Remembers (l ++ [(p, v)]) s' := by
  have hpid : (unpackPid v).toNat = p := by
    rw [hv, unpackPid_pack, BitVec.toNat_ofNat, Nat.mod_eq_of_lt (p.isLt.trans hproducers)]
  have hseq : unpackSeq v = BitVec.ofNat 32 (l.filter fun a => a.1 = p).length := by
    rw [hv, unpackSeq_pack]
  have hfirst := h.first p
  have hlast := h.lastSeq p
  have hknown : ¬ producers ≤ (p : ℕ) := Nat.not_le.mpr p.isLt
  simp only [mpscConsumer, hpid, hseq, hknown, if_false]
  rcases Nat.eq_zero_or_pos (l.filter fun a => a.1 = p).length with hzero | hpos
  · -- the first value of this producer
    rw [hzero, decide_eq_true rfl] at hfirst
    simp only [hfirst, if_true, hzero]
    refine ⟨_, rfl, h.concat (fun q => ?_) fun q => ?_⟩
    · simp only [Function.update_apply]
    · simp only [Function.update_apply, hzero]
  · rw [decide_eq_false (by omega)] at hfirst
    have hnext : BitVec.ofNat 32 (l.filter fun a => a.1 = p).length = s.lastSeq p + 1 := by
      rw [hlast hpos, ← ofNat_succ, Nat.sub_add_cancel hpos]
    simp only [hfirst, Bool.false_eq_true, if_false, hnext, ne_eq, not_true_eq_false]
    refine ⟨_, rfl, h.concat (fun q => ?_) fun q => ?_⟩
    · by_cases hq : q = p
      · rw [if_pos hq, hq, hfirst]
      · rw [if_neg hq]
    · simp only [Function.update_apply, hnext]

theorem agree_mpscProducers {producers : ℕ} (hproducers : producers < 2 ^ 32) (perProd : ℕ) :
    Agree (mpscProducers producers perProd) (mpscConsumer producers perProd) := by
  have hcheck : ∀ l, Interleaves (mpscProducers producers perProd) l →
      ∃ s, (l.map Prod.snd).foldlM (mpscConsumer producers perProd).check
        (mpscConsumer producers perProd).init = some s ∧ Remembers l s := by
    intro l
    induction l using List.reverseRecOn with
    | nil => exact fun _ => ⟨_, rfl, fun _ => rfl, fun _ hpos => absurd hpos (lt_irrefl _)⟩
    | append_singleton l a ih =>
        obtain ⟨p, v⟩ := a
        intro h
        obtain ⟨s, hs, hmem⟩ := ih h.of_concat
        obtain ⟨s', hs', hmem'⟩ := hmem.check perProd hproducers h.last
        refine ⟨s', ?_, hmem'⟩
        rw [List.map_append, List.foldlM_append, hs]
        simpa using hs'
  intro l h
  obtain ⟨s, hs, -⟩ := hcheck l h
  rw [hs]
  rfl

/-! ### The test -/

theorem Honest.deliveredOf_eq {f : Feeders ι T} {d : Drainer σ T} {cap : ℕ} {s : Clients ι w T σ}
    (h : Honest f d cap s) (p : ι) :
    s.world.deliveredOf p = (List.range (s.world.deliveredOf p).length).map (f.value p) ∧
      (s.world.deliveredOf p).length ≤ f.items := by
  obtain ⟨-, hinter⟩ := h.delivered_eq
  have hpre : s.world.deliveredOf p <+: (List.range f.items).map (f.value p) := hinter p
  have hle : (s.world.deliveredOf p).length ≤ f.items := by simpa using hpre.length_le
  refine ⟨?_, hle⟩
  have htake := List.prefix_iff_eq_take.mp hpre
  rw [← List.map_take, List.take_range, Nat.min_eq_left hle] at htake
  exact htake

theorem Honest.deliveredOf_of_finished [Fintype ι] {f : Feeders ι T} {d : Drainer σ T} {cap : ℕ}
    {s : Clients ι w T σ} (h : Honest f d cap s) (hitems : d.items = Fintype.card ι * f.items)
    (hend : Finished f d s) (p : ι) :
    s.world.deliveredOf p = (List.range f.items).map (f.value p) := by
  have hclaims := h.length_claims_of_sent fun q => (hend.sent q).ge
  have htotal := h.receiving.total hend.seen
  have hall : s.world.claims.take s.world.delivered.length = s.world.claims := by
    rw [← htotal, hend.total, hitems, ← hclaims, List.take_length]
  have hclaimed : s.claimed p = f.items := by
    have hle := h.sending.claimed_le p
    have hsent := hend.sent p
    simp only [Clients.claimed] at hle ⊢
    omega
  have hown := h.sending.own p
  rw [hclaimed] at hown
  rw [World.deliveredOf, hall]
  exact hown

/-- **The multi-producer test cannot fail.** In every run of `test_concurrent_mpsc`, with any
number of producers, on a queue of any capacity, however the threads interleave and
whichever compare-exchanges fail, the consumer's check never fails and the values of each
producer arrive in order, none twice and none left out. The threads stop only when all
values have arrived, and then the queue is empty. -/
theorem concurrent_mpsc_passes {producers perProd : ℕ} {capacity : BitVec 64}
    {data : ℕ → BitVec 64} {ts : List (Turn (Fin producers) (BitVec 64))}
    {s : Clients (Fin producers) 64 (BitVec 64) LastSeen} (hproducers : producers < 2 ^ 32)
    (hbound : producers * perProd < 2 ^ 32)
    (hs : exec (clientStep (mpscProducers producers perProd) (mpscConsumer producers perProd))
      (.start _ (.create capacity data) (mpscConsumer producers perProd)) ts = some s) :
    s.seen.isSome ∧
      (∀ p, s.world.deliveredOf p = (List.range (s.world.deliveredOf p).length).map fun i =>
        pack (BitVec.ofNat 32 p) (BitVec.ofNat 32 i)) ∧
      ((∀ t, clientStep (mpscProducers producers perProd) (mpscConsumer producers perProd) s t =
          none) →
        s.total = producers * perProd ∧ (∀ p, (s.world.deliveredOf p).length = perProd) ∧
          s.world.queue.isEmptyAcross s.world.queue = true) := by
  have hitems : (mpscConsumer producers perProd).items =
      Fintype.card (Fin producers) * (mpscProducers producers perProd).items := by
    rw [Fintype.card_fin]
    rfl
  have hfit : Fintype.card (Fin producers) * (mpscProducers producers perProd).items < 2 ^ 64 := by
    rw [← hitems]
    exact hbound.trans (by norm_num)
  have h := honest_after hfit (honest_start (mpscProducers producers perProd)
    (mpscConsumer producers perProd) capacity data) hs
  have hagree := agree_mpscProducers hproducers perProd
  refine ⟨h.seen_isSome hagree, fun p => (h.deliveredOf_eq p).1, fun hstuck => ?_⟩
  have hend := h.finished_of_stuck hagree hitems hstuck
  refine ⟨hend.total, fun p => ?_, hend.empty⟩
  rw [h.deliveredOf_of_finished hitems hend p, List.length_map, List.length_range]
  rfl

def slow : Fin 2 := ⟨0, Nat.zero_lt_two⟩
def fast : Fin 2 := ⟨1, Nat.one_lt_two⟩

def overtaken : List (Turn (Fin 2) (BitVec 64)) :=
  List.replicate 5 (.producer slow false) ++ List.replicate 7 (.producer fast false) ++
    List.replicate 2 (.producer slow false) ++ List.replicate 16 (.consumer 0)

theorem concurrent_mpsc_passes_overtaken :
    ∃ s : Clients (Fin 2) 64 (BitVec 64) LastSeen,
      exec (clientStep (mpscProducers 2 1) (mpscConsumer 2 1))
        (.start _ (.create 4 fun _ => 0) (mpscConsumer 2 1)) overtaken = some s ∧
      s.total = 2 ∧ s.seen.isSome :=
  ⟨_, rfl, rfl,
    (@concurrent_mpsc_passes 2 1 4 (fun _ => 0) overtaken _ (by decide) (by decide) rfl).1⟩

end SystemsPrep.Mpsc
