import SystemsPrep.Base.Counter
import SystemsPrep.Mpsc.Interleaving

/-!
The two counters behind the indices of a multi-producer queue.

The head counts the claims `H`, the tail the deliveries `D`, and
`D ≤ H ≤ D + capacity`. A producer claims against a tail it read earlier, which
can only have moved on since, provided that the head it compares with is really
the one it read: a compare-exchange must not find the head back at the same word
after a whole lap of the index type.
-/

namespace SystemsPrep.Mpsc

open Base

variable {ι : Type*} {w : ℕ} {T : Type*}

def MpscQueue.cap (q : MpscQueue w T) : ℕ := q.capacity.toNat

theorem MpscQueue.cap_lt (q : MpscQueue w T) : q.cap < 2 ^ w := q.capacity.isLt

/-- What a producer knows in the loop, having read the head `s` claims into the
run. A tail that passes the full test leaves room for the claim. -/
def ProducerCount (cap H D s : ℕ) : Producer w T → Prop
  | .idle | .loadHead _ | .write _ _ | .storeReady _ _ | .returned _ _ => True
  | .loadTail _ head => head = BitVec.ofNat w s ∧ s ≤ H
  | .testFull _ head tail =>
      head = BitVec.ofNat w s ∧ s ≤ H ∧
        ∃ t, tail = BitVec.ofNat w t ∧ t ≤ D ∧ s ≤ t + cap
  | .compareExchange _ head tail =>
      head = BitVec.ofNat w s ∧ s ≤ H ∧
        ∃ t, tail = BitVec.ofNat w t ∧ t ≤ D ∧ s < t + cap

/-- What the consumer knows in the middle of a call. -/
def ConsumerCount (H D : ℕ) : Consumer w T → Prop
  | .idle | .loadTail | .returned _ => True
  | .loadHead tail => tail = BitVec.ofNat w D
  | .testEmpty tail head =>
      tail = BitVec.ofNat w D ∧ ∃ h, head = BitVec.ofNat w h ∧ D ≤ h ∧ h ≤ H
  | .loadReady tail | .moveOut tail | .clearReady tail _ | .storeTail tail _ =>
      tail = BitVec.ofNat w D ∧ D < H

structure Counters (s : World ι w T) : Prop where
  head : s.queue.head = BitVec.ofNat w s.claims.length
  tail : s.queue.tail = BitVec.ofNat w s.delivered.length
  le : s.delivered.length ≤ s.claims.length
  room : s.claims.length ≤ s.delivered.length + s.queue.cap
  producer : ∀ p, ProducerCount s.queue.cap s.claims.length s.delivered.length (s.seen p)
    (s.producers p)
  consumer : ConsumerCount s.claims.length s.delivered.length s.consumer

theorem ProducerCount.mono {cap H H' D D' s : ℕ} {x : Producer w T}
    (h : ProducerCount cap H D s x) (hH : H ≤ H') (hD : D ≤ D') :
    ProducerCount cap H' D' s x := by
  cases x with
  | idle | loadHead | write | storeReady | returned => trivial
  | loadTail => exact ⟨h.1, h.2.trans hH⟩
  | testFull | compareExchange =>
      obtain ⟨hhead, hs, t, htail, ht, hroom⟩ := h
      exact ⟨hhead, hs.trans hH, t, htail, ht.trans hD, hroom⟩

theorem ConsumerCount.mono {H H' D : ℕ} {x : Consumer w T} (h : ConsumerCount H D x)
    (hH : H ≤ H') : ConsumerCount H' D x := by
  cases x with
  | idle | loadTail | returned => trivial
  | loadHead => exact h
  | testEmpty =>
      obtain ⟨htail, n, hhead, hlo, hhi⟩ := h
      exact ⟨htail, n, hhead, hlo, hhi.trans hH⟩
  | loadReady | moveOut | clearReady | storeTail => exact ⟨h.1, h.2.trans_le hH⟩

/-! ### Reading the indices -/

section Reading

variable {s : World ι w T}

theorem Counters.toNat_head_sub_tail (h : Counters s) :
    (s.queue.head - s.queue.tail).toNat = s.claims.length - s.delivered.length := by
  have := s.queue.cap_lt
  have := h.room
  rw [h.head, h.tail, toNat_ofNat_sub h.le (by omega)]

/-- The current head and tail are `capacity` apart. -/
theorem Counters.head_sub_tail_eq_capacity_iff (h : Counters s) :
    s.queue.head - s.queue.tail = s.queue.capacity ↔
      s.claims.length = s.delivered.length + s.queue.cap := by
  have := h.le
  rw [← BitVec.toNat_inj, h.toNat_head_sub_tail]
  change _ = s.queue.cap ↔ _
  omega

theorem not_full_iff {q : MpscQueue w T} {head tail : BitVec w} :
    q.full head tail = false ↔ (head - tail).toNat < q.cap := by
  rw [MpscQueue.full, decide_eq_false_iff_not, BitVec.not_le, BitVec.lt_def]
  rfl

/-- A head that is not behind the tail it is tested against is tested exactly. -/
theorem not_full_iff_of_le {q : MpscQueue w T} {n t : ℕ} (hle : t ≤ n) (hroom : n ≤ t + q.cap) :
    q.full (BitVec.ofNat w n) (BitVec.ofNat w t) = false ↔ n < t + q.cap := by
  have := q.cap_lt
  rw [not_full_iff, toNat_ofNat_sub hle (by omega)]
  omega

end Reading

/-! ### The steps -/

/-- When a compare-exchange is tried, fewer than `2 ^ w` claims have been made
since its producer read the head. -/
def NoLap (s : World ι w T) : Action ι T → Prop
  | .producer p _ =>
      match s.producers p with
      | .compareExchange _ _ _ => s.claims.length < s.seen p + 2 ^ w
      | _ => True
  | _ => True

instance (s : World ι w T) : (a : Action ι T) → Decidable (NoLap s a)
  | .producer p _ =>
      match hp : s.producers p with
      | .compareExchange _ _ _ =>
          decidable_of_iff (s.claims.length < s.seen p + 2 ^ w) (by simp only [NoLap, hp])
      | .idle | .loadHead _ | .loadTail _ _ | .testFull _ _ _ | .write _ _
      | .storeReady _ _ | .returned _ _ => .isTrue (by simp only [NoLap, hp])
  | .push _ _ | .pop | .consumer _ => .isTrue trivial

theorem noLap_of_claims_lt {s : World ι w T} (h : s.claims.length < 2 ^ w) (a : Action ι T) :
    NoLap s a := by
  unfold NoLap
  split
  · split
    · omega
    · trivial
  · trivial

theorem counters_start (capacity : BitVec w) (data : ℕ → T) :
    Counters (World.start ι (.create capacity data)) where
  head := rfl
  tail := rfl
  le := le_rfl
  room := Nat.zero_le _
  producer _ := trivial
  consumer := trivial

theorem Counters.setQueue {s : World ι w T} (h : Counters s) {q : MpscQueue w T}
    (hcap : q.capacity = s.queue.capacity) (hhead : q.head = s.queue.head)
    (htail : q.tail = s.queue.tail) : Counters { s with queue := q } := by
  have hcap' : q.cap = s.queue.cap := congrArg BitVec.toNat hcap
  exact
    { head := hhead.trans h.head
      tail := htail.trans h.tail
      le := h.le
      room := by rw [hcap']; exact h.room
      producer := fun p => by rw [hcap']; exact h.producer p
      consumer := h.consumer }

section Steps

variable [DecidableEq ι] {s s' : World ι w T}

theorem Counters.setProducer (h : Counters s) (p : ι) {x : Producer w T}
    (hx : ProducerCount s.queue.cap s.claims.length s.delivered.length (s.seen p) x) :
    Counters (s.setProducer p x) := by
  refine { h with producer := fun q => ?_ }
  change ProducerCount s.queue.cap s.claims.length s.delivered.length (s.seen q)
    (Function.update s.producers p x q)
  by_cases hq : q = p
  · subst hq
    rw [Function.update_self]
    exact hx
  · rw [Function.update_of_ne hq]
    exact h.producer q

theorem Counters.reloadHead (h : Counters s) (p : ι) (value : T) :
    Counters (s.reloadHead p value) := by
  refine { h with producer := fun q => ?_ }
  change ProducerCount s.queue.cap s.claims.length s.delivered.length
    (Function.update s.seen p s.claims.length q)
    (Function.update s.producers p (.loadTail value s.queue.head) q)
  by_cases hq : q = p
  · subst hq
    rw [Function.update_self, Function.update_self]
    exact ⟨h.head, le_rfl⟩
  · rw [Function.update_of_ne hq, Function.update_of_ne hq]
    exact h.producer q

/-- A successful compare-exchange. The head it compares with is the one its
producer read, so the tail it tested against still bounds the claims. -/
theorem Counters.claim (h : Counters s) {p : ι} {value : T} {head tail : BitVec w}
    (hp : s.producers p = .compareExchange value head tail) (heq : s.queue.head = head)
    (hlap : s.claims.length < s.seen p + 2 ^ w) :
    Counters { s.setProducer p (.write value head) with
      queue := { s.queue with head := head + 1 }
      claims := s.claims ++ [(p, value)] } := by
  have hprod := h.producer p
  rw [hp] at hprod
  obtain ⟨hhead, hseen, t, -, ht, hroom⟩ := hprod
  have hcur : s.claims.length = s.seen p := by
    rw [h.head, hhead, ofNat_inj_of_near hseen (by omega)] at heq
    exact heq
  have hlen : (s.claims ++ [(p, value)]).length = s.claims.length + 1 := by simp
  have hle : s.claims.length ≤ (s.claims ++ [(p, value)]).length := by omega
  have hset := h.setProducer p (x := .write value head) trivial
  refine
    { hset with
      head := ?_
      le := h.le.trans hle
      room := ?_
      producer := fun q => (hset.producer q).mono hle le_rfl
      consumer := h.consumer.mono hle }
  · change head + 1 = BitVec.ofNat w (s.claims ++ [(p, value)]).length
    rw [hlen, ofNat_succ, ← h.head, heq]
  · change (s.claims ++ [(p, value)]).length ≤ s.delivered.length + s.queue.cap
    rw [hlen]
    omega

theorem counters_producerStep {p : ι} {spurious : Bool} (h : Counters s)
    (hlap : NoLap s (.producer p spurious)) (hs : producerStep s p spurious = some s') :
    Counters s' := by
  have hprod := h.producer p
  cases producerMove_of_step hs with
  | loadHead value hp => exact h.reloadHead p value
  | loadTail value head hp =>
      rw [hp] at hprod
      have hroom := h.room
      have hseen := hprod.2
      exact h.setProducer p ⟨hprod.1, hseen, s.delivered.length, h.tail, le_rfl, by omega⟩
  | full value head tail hp hfull => exact h.setProducer p trivial
  | notFull value head tail hp hfull =>
      -- the tail subtracted may have passed the head
      rw [hp] at hprod
      obtain ⟨rfl, hseen, t, rfl, ht, hroom⟩ := hprod
      refine h.setProducer p ⟨rfl, hseen, t, rfl, ht, ?_⟩
      rcases Nat.lt_or_ge (s.seen p) t with hlt | hle
      · omega
      · exact (not_full_iff_of_le hle hroom).mp hfull
  | claim value head tail hp heq hspurious =>
      simp only [NoLap, hp] at hlap
      exact h.claim hp heq hlap
  | retry value head tail hp hfail => exact h.reloadHead p value
  | write value head hp =>
      exact (h.setProducer p (x := .storeReady value head) trivial).setQueue rfl rfl rfl
  | storeReady value head hp =>
      exact (h.setProducer p (x := .returned value true) trivial).setQueue rfl rfl rfl

omit [DecidableEq ι] in
theorem counters_consumerStep {left : T} (h : Counters s) (hs : consumerStep s left = some s') :
    Counters s' := by
  have hcons := h.consumer
  cases consumerMove_of_step hs with
  | loadTail hp => exact { h with consumer := h.tail }
  | loadHead tail hp =>
      rw [hp] at hcons
      exact { h with consumer := ⟨hcons, s.claims.length, h.head, h.le, le_rfl⟩ }
  | empty tail head hp hempty => exact { h with consumer := trivial }
  | notEmpty tail head hp hempty =>
      rw [hp] at hcons
      obtain ⟨rfl, n, rfl, hlo, hhi⟩ := hcons
      -- different words belong to different counters
      have hne : s.delivered.length ≠ n := by
        rintro rfl
        exact of_decide_eq_false hempty rfl
      have hlt : s.delivered.length < s.claims.length := by omega
      exact { h with consumer := ⟨rfl, hlt⟩ }
  | ready tail hp hready =>
      rw [hp] at hcons
      exact { h with consumer := hcons }
  | notReady tail hp hready => exact { h with consumer := trivial }
  | moveOut tail hp =>
      rw [hp] at hcons
      exact { h.setQueue rfl rfl rfl with consumer := hcons }
  | clearReady tail value hp =>
      rw [hp] at hcons
      exact { h.setQueue rfl rfl rfl with consumer := hcons }
  | storeTail tail value hp =>
      rw [hp] at hcons
      obtain ⟨rfl, hlt⟩ := hcons
      have hlen : (s.delivered ++ [value]).length = s.delivered.length + 1 := by simp
      have hle : s.delivered.length ≤ (s.delivered ++ [value]).length := by omega
      exact
        { h with
          tail := by rw [hlen, ofNat_succ]
          le := by rw [hlen]; exact hlt
          room := h.room.trans (Nat.add_le_add_right hle _)
          producer := fun p => (h.producer p).mono le_rfl hle
          consumer := trivial }

theorem counters_step (s : World ι w T) (a : Action ι T) (s' : World ι w T) (hlap : NoLap s a)
    (h : Counters s) (hs : step s a = some s') : Counters s' := by
  cases a with
  | push p value =>
      obtain ⟨-, rfl⟩ := enterPush_eq_some hs
      have hset := h.setProducer p (x := .loadHead value) trivial
      exact { hset with }
  | producer p spurious => exact counters_producerStep h hlap hs
  | pop =>
      obtain ⟨-, rfl⟩ := enterPop_eq_some hs
      exact { h with consumer := trivial }
  | consumer left => exact counters_consumerStep h hs

end Steps

end SystemsPrep.Mpsc
