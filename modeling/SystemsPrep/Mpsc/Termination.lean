import SystemsPrep.Base.Fair
import SystemsPrep.Mpsc.Clients
import Mathlib.Data.Prod.Lex

/-!
The loops of the threads on a multi-producer queue end.

All values go through if every thread has turns again and again and only finitely many
compare-exchanges fail for no reason. What brings the end nearer depends on the front of
the queue. If it is claimed and still being written, the steps of its producer do, and
nobody can overtake it; if it is ready, the steps of the consumer. On an empty queue the
steps of any producer with values left do: another producer sets it back only by a claim
of its own.
-/

namespace SystemsPrep.Mpsc

open Base

variable {ι : Type*} {w : ℕ} {T σ : Type*}

/-! ### How far a thread is -/

/-- The steps of a producer to its flag, if it has claimed an index, and otherwise to its
claim on an empty queue. A refusal that is already decided, or a head in hand that is no
longer current, costs another round. -/
def Producer.distance (q : MpscQueue w T) (behind : Bool) : Producer w T → ℕ
  | .write _ _ => 11
  | .storeReady _ _ => 10
  | .idle | .returned _ _ => 5
  | .loadHead _ => 4
  | .loadTail _ _ => if behind then 7 else 3
  | .testFull _ head tail => if q.full head tail then 6 else if behind then 5 else 2
  | .compareExchange _ _ _ => if behind then 4 else 1

/-- The steps of the consumer to its store of the tail, if the front is ready. -/
def Consumer.distance (q : MpscQueue w T) : Consumer w T → ℕ
  | .idle | .returned _ => 8
  | .loadTail => 7
  | .loadHead _ => 6
  | .testEmpty tail head => if q.empty head tail then 9 else 5
  | .loadReady _ => 4
  | .moveOut _ => 3
  | .clearReady _ _ => 2
  | .storeTail _ _ => 1

theorem Consumer.distance_le (q : MpscQueue w T) (x : Consumer w T) : x.distance q ≤ 9 := by
  cases x with
  | testEmpty tail head =>
      simp only [distance]
      split <;> omega
  | _ => simp [distance]

theorem Consumer.distance_congr (q q' : MpscQueue w T) (x : Consumer w T) :
    x.distance q = x.distance q' := by
  cases x <;> rfl

theorem Producer.distance_congr {q q' : MpscQueue w T} (h : q'.capacity = q.capacity) (b : Bool)
    (x : Producer w T) : x.distance q' b = x.distance q b := by
  cases x with
  | testFull v head tail =>
      have hfull : q'.full head tail = q.full head tail := by
        rw [MpscQueue.full, h, MpscQueue.full]
      simp only [distance, hfull]
  | _ => rfl

section Distance

variable {s s' : World ι w T}

/-- With a value at the front whose flag is up when the consumer looks at it, every step
of a pop that does not store the tail brings it nearer to that. -/
theorem Counters.distance_consumerStep (h : Counters s)
    (hfront : s.delivered.length < s.claims.length)
    (hready : ∀ tail, s.consumer = .loadReady tail →
      (s.queue.items (s.queue.element tail)).isReady = true)
    {left : T} (hs : consumerStep s left = some s') (hkept : s'.delivered = s.delivered) :
    s'.consumer.distance s'.queue < s.consumer.distance s.queue := by
  have hcons := h.consumer
  cases consumerMove_of_step hs with
  | loadTail hp | moveOut tail hp | clearReady tail _ hp =>
      rw [hp]
      exact Nat.lt_succ_self _
  | loadHead tail hp =>
      rw [hp] at hcons ⊢
      obtain rfl : tail = BitVec.ofNat w s.delivered.length := hcons
      have hne : s.queue.empty s.queue.head (BitVec.ofNat w s.delivered.length) = false := by
        have := s.queue.cap_lt
        have := h.room
        refine decide_eq_false fun heq => ?_
        rw [h.head, ofNat_inj_of_near h.le (by omega)] at heq
        omega
      simp only [Consumer.distance, hne]
      decide
  | empty tail head hp hempty =>
      rw [hp]
      simp only [Consumer.distance, hempty, if_true]
      decide
  | notEmpty tail head hp hempty =>
      rw [hp]
      simp only [Consumer.distance, hempty]
      decide
  | ready tail hp =>
      rw [hp]
      exact Nat.lt_succ_self _
  | notReady tail hp hdown =>
      rw [hready tail hp] at hdown
      cases hdown
  | storeTail tail value hp =>
      have hlen := congrArg List.length hkept
      simp at hlen

variable [DecidableEq ι] {p : ι}

@[simp] theorem setProducer_self (s : World ι w T) (p : ι) (x : Producer w T) :
    (s.setProducer p x).producers p = x := Function.update_self ..

@[simp] theorem setProducer_behind (s : World ι w T) (p : ι) (x : Producer w T) :
    (s.setProducer p x).behind p = s.behind p := rfl

@[simp] theorem setProducer_queue (s : World ι w T) (p : ι) (x : Producer w T) :
    (s.setProducer p x).queue = s.queue := rfl

/-- On an empty queue, every step of a push that does not claim an index brings it nearer
to that. -/
theorem Counters.distance_producerStep (h : Counters s) (hcap : 0 < s.queue.cap)
    (hempty : s.claims.length = s.delivered.length)
    (hnone : (s.producers p).owned = none) (hs : producerStep s p false = some s')
    (hkept : s'.claims = s.claims) :
    (s'.producers p).distance s'.queue (s'.behind p) <
      (s.producers p).distance s.queue (s.behind p) := by
  have hprod := h.producer p
  cases producerMove_of_step hs with
  | loadHead value hp =>
      have hafter : (s.reloadHead p value).behind p = false := by
        simp [World.reloadHead, World.behind]
      have hself : (s.reloadHead p value).producers p = .loadTail value s.queue.head :=
        Function.update_self ..
      rw [hp, hself, hafter]
      exact Nat.lt_succ_self 3
  | loadTail value head hp =>
      rw [hp] at hprod ⊢
      simp only [setProducer_self, setProducer_behind, setProducer_queue, Producer.distance]
      by_cases hb : s.behind p = true
      · simp only [hb, if_true]
        split <;> omega
      · have hcur : s.seen p = s.claims.length := by
          have hnot : ¬ s.seen p < s.claims.length := fun hlt => hb (decide_eq_true hlt)
          have := hprod.2
          omega
        have hfull : s.queue.full head s.queue.tail = false := by
          rw [hprod.1, h.tail, hcur, hempty]
          exact (not_full_iff_of_le le_rfl (Nat.le_add_right ..)).mpr (by omega)
        simp [hfull, hb]
  | full value head tail hp hfull =>
      rw [hp]
      simp [Producer.distance, hfull]
  | notFull value head tail hp hfull =>
      rw [hp]
      simp only [setProducer_self, setProducer_behind, Producer.distance, hfull]
      by_cases hb : s.behind p = true <;> simp [hb]
  | claim value head tail hp =>
      have hlen := congrArg List.length hkept
      simp at hlen
  | retry value head tail hp hfail =>
      rw [hp] at hprod ⊢
      have hb : s.behind p = true := by
        refine decide_eq_true (lt_of_le_of_ne hprod.2.1 fun hcur => ?_)
        exact Bool.noConfusion (hfail (by rw [h.head, hprod.1, hcur]))
      have hafter : (s.reloadHead p value).behind p = false := by
        simp [World.reloadHead, World.behind]
      have hself : (s.reloadHead p value).producers p = .loadTail value s.queue.head :=
        Function.update_self ..
      rw [hself, hafter, hb]
      exact Nat.lt_succ_self 3
  | write value head hp | storeReady value head hp =>
      rw [hp] at hnone
      cases hnone

end Distance

/-! ### Who brings the end nearer -/

/-- The front of the queue is claimed by `p`, which has not raised its flag. -/
def World.OwnsFront (s : World ι w T) (p : ι) : Prop :=
  ∃ v, (s.producers p).owned = some (BitVec.ofNat w s.delivered.length, v)

section Front

variable {cap : ℕ} {s s' : World ι w T} {p q : ι}

theorem Mapped.claim_of_ownsFront (h : Mapped cap s) (hlt : s.claims.length < 2 ^ w)
    (hp : s.OwnsFront p) : ∃ v, s.claims[s.delivered.length]? = some (p, v) := by
  obtain ⟨-, hc, hk, -⟩ := h
  obtain ⟨v, hv⟩ := hp
  obtain ⟨k, heq, -, hclaim, -⟩ := hk.owner p _ v hv
  have hk' := lt_of_getElem?_claims hclaim
  obtain rfl := index_inj (hc.le.trans_lt hlt) (hk'.trans hlt) heq
  exact ⟨v, hclaim⟩

theorem Mapped.ownsFront_unique (h : Mapped cap s) (hlt : s.claims.length < 2 ^ w)
    (hp : s.OwnsFront p) (hq : s.OwnsFront q) : p = q := by
  obtain ⟨v, hv⟩ := h.claim_of_ownsFront hlt hp
  obtain ⟨u, hu⟩ := h.claim_of_ownsFront hlt hq
  rw [hv, Option.some.injEq, Prod.mk.injEq] at hu
  exact hu.1

theorem Mapped.lt_of_ownsFront (h : Mapped cap s) (hlt : s.claims.length < 2 ^ w)
    (hp : s.OwnsFront p) : s.delivered.length < s.claims.length := by
  obtain ⟨v, hv⟩ := h.claim_of_ownsFront hlt hp
  exact lt_of_getElem?_claims hv

/-- A claimed front that nobody is writing is ready for the consumer. -/
theorem Mapped.ready_of_not_ownsFront (h : Mapped cap s) (hlt : s.claims.length < 2 ^ w)
    (hfront : s.delivered.length < s.claims.length) (hnone : ∀ p, ¬ s.OwnsFront p) {tail : BitVec w}
    (hcons : s.consumer = .loadReady tail) :
    (s.queue.items (s.queue.element tail)).isReady = true := by
  obtain ⟨-, hc, -, l, hf⟩ := h
  have hcount := hc.consumer
  rw [hcons] at hcount
  obtain ⟨rfl, -⟩ := hcount
  rw [element_ofNat (hfront.trans hlt)]
  cases hready : (s.queue.items (s.delivered.length % s.queue.cap)).isReady with
  | true => rfl
  | false =>
      rcases hf.published s.delivered.length le_rfl hfront hready with ⟨p, v, hp⟩ | ⟨-, hst⟩
      · exact absurd ⟨v, hp⟩ (hnone p)
      · rw [hcons] at hst
        cases hst

theorem Mapped.not_owned_of_empty (h : Mapped cap s)
    (hempty : s.claims.length = s.delivered.length) (p : ι) : (s.producers p).owned = none := by
  obtain ⟨-, -, hk, -⟩ := h
  refine Option.eq_none_iff_forall_ne_some.mpr fun ⟨head, v⟩ hp => ?_
  obtain ⟨k, -, hle, hclaim, -⟩ := hk.owner p head v hp
  have := lt_of_getElem?_claims hclaim
  omega

theorem owned_of_kept [DecidableEq ι] {spurious : Bool}
    (hs : producerStep s p spurious = some s') (hkept : s'.claims = s.claims) {a : BitVec w × T}
    (ha : (s'.producers p).owned = some a) : (s.producers p).owned = some a := by
  cases producerMove_of_step hs with
  | claim value =>
      have hlen := congrArg List.length hkept
      simp at hlen
  | write value head hp =>
      rw [hp]
      simpa [World.setProducer, Producer.owned] using ha
  | _ => simp [World.setProducer, World.reloadHead, Producer.owned] at ha

end Front

section Rank

variable {f : Feeders ι T} {d : Drainer σ T} {cap : ℕ} {s s' : Clients ι w T σ} {t : Turn ι T}

open Classical in
/-- Whoever owns the front, or else the consumer if there is a front, or else anyone who
has more to push. -/
noncomputable def pick (owns : ι → Prop) (front : Prop) (more : ι → Prop) : Party ι :=
  if h : ∃ p, owns p then .producer h.choose
  else if front then .consumer
  else if h : ∃ p, more p then .producer h.choose
  else .consumer

noncomputable def Clients.helpful (f : Feeders ι T) (s : Clients ι w T σ) : Party ι :=
  pick s.world.OwnsFront (s.world.delivered.length < s.world.claims.length)
    fun p => s.sent p < f.items

theorem helpful_of_ownsFront (h : Mapped cap s.world) (hlt : s.world.claims.length < 2 ^ w) {p : ι}
    (hp : s.world.OwnsFront p) : s.helpful f = .producer p := by
  have hex : ∃ p, s.world.OwnsFront p := ⟨p, hp⟩
  rw [Clients.helpful, pick, dif_pos hex, h.ownsFront_unique hlt hex.choose_spec hp]

theorem helpful_of_front (hnone : ∀ p, ¬ s.world.OwnsFront p)
    (hfront : s.world.delivered.length < s.world.claims.length) : s.helpful f = .consumer := by
  rw [Clients.helpful, pick, dif_neg (not_exists.mpr hnone), if_pos hfront]

theorem helpful_of_empty (hnone : ∀ p, ¬ s.world.OwnsFront p)
    (hempty : ¬ s.world.delivered.length < s.world.claims.length)
    (hmore : ∃ p, s.sent p < f.items) :
    ∃ p, s.sent p < f.items ∧ s.helpful f = .producer p := by
  refine ⟨hmore.choose, hmore.choose_spec, ?_⟩
  rw [Clients.helpful, pick, dif_neg (not_exists.mpr hnone), if_neg hempty, dif_pos hmore]

theorem helpful_congr (howns : ∀ p, s'.world.OwnsFront p ↔ s.world.OwnsFront p)
    (hclaims : s'.world.claims = s.world.claims)
    (hdelivered : s'.world.delivered = s.world.delivered)
    (hmore : s.world.delivered.length < s.world.claims.length ∨ s'.sent = s.sent) :
    s'.helpful f = s.helpful f := by
  have howns' : s'.world.OwnsFront = s.world.OwnsFront := funext fun p => propext (howns p)
  rw [Clients.helpful, howns', hclaims, hdelivered, Clients.helpful]
  rcases hmore with hfront | hsent
  · simp only [pick, if_pos hfront]
  · rw [hsent]

noncomputable def Clients.distance (f : Feeders ι T) (s : Clients ι w T σ) : ℕ :=
  match s.helpful f with
  | .producer p => (s.world.producers p).distance s.world.queue (s.world.behind p)
  | .consumer => s.world.consumer.distance s.world.queue

/-- The claims and the deliveries still to come, and then the way to the next of them. -/
noncomputable def Clients.rank (f : Feeders ι T) (d : Drainer σ T) (s : Clients ι w T σ) :
    ℕ ×ₗ ℕ :=
  toLex (d.items + d.items - s.world.claims.length - s.world.delivered.length, s.distance f)

theorem Clients.rank_lt_of_more
    (hmore : s.world.claims.length + s.world.delivered.length <
      s'.world.claims.length + s'.world.delivered.length)
    (hle : s'.world.claims.length ≤ d.items) (hle' : s'.world.delivered.length ≤ d.items) :
    s'.rank f d < s.rank f d := by
  refine Prod.Lex.toLex_lt_toLex.mpr (Or.inl ?_)
  change d.items + d.items - s'.world.claims.length - s'.world.delivered.length <
    d.items + d.items - s.world.claims.length - s.world.delivered.length
  omega

theorem Clients.rank_lt_of_nearer (hclaims : s'.world.claims = s.world.claims)
    (hdelivered : s'.world.delivered = s.world.delivered)
    (hlt : s'.distance f < s.distance f) : s'.rank f d < s.rank f d := by
  refine Prod.Lex.toLex_lt_toLex.mpr (Or.inr ⟨?_, hlt⟩)
  simp only [hclaims, hdelivered]

variable [DecidableEq ι]

/-- A step claims an index, delivers a value, or does neither. -/
theorem progress_cases (hs : clientStep f d s t = some s') :
    s.world.claims.length + s.world.delivered.length <
        s'.world.claims.length + s'.world.delivered.length ∨
      s'.world.claims = s.world.claims ∧ s'.world.delivered = s.world.delivered := by
  cases clientMove_of_step hs with
  | push p spurious v hrest hlt hv =>
      obtain ⟨-, rfl⟩ := enterPush_eq_some hv
      exact Or.inr ⟨rfl, rfl⟩
  | producer p spurious v hv =>
      have hdelivered := (producerStep_frame hv).2.1
      rcases claims_producerStep hv with hclaims | ⟨u, hclaims⟩
      · exact Or.inr ⟨hclaims, hdelivered⟩
      · refine Or.inl ?_
        simp only [hclaims, hdelivered, List.length_append, List.length_singleton]
        omega
  | pop left v hrest hseen hlt hv =>
      obtain ⟨-, rfl⟩ := enterPop_eq_some hv
      exact Or.inr ⟨rfl, rfl⟩
  | consumer left v hv =>
      have hclaims := (consumerStep_frame hv).2.2.1
      rw [Clients.receive_world]
      cases popOutcome_of_step hv with
      | none hdelivered => exact Or.inr ⟨hclaims, hdelivered⟩
      | some value hdelivered =>
          refine Or.inl ?_
          simp only [hclaims, hdelivered, List.length_append, List.length_singleton]
          omega

/-- What a turn of a producer thread leaves alone. -/
structure KeptBy (p : ι) (s s' : Clients ι w T σ) : Prop where
  others : ∀ q ≠ p, s'.world.producers q = s.world.producers q ∧
    s'.world.behind q = s.world.behind q
  consumer : s'.world.consumer = s.world.consumer
  capacity : s'.world.queue.capacity = s.world.queue.capacity
  owned : ∀ a, (s'.world.producers p).owned = some a → (s.world.producers p).owned = some a
  sent : (∀ q, (s.world.producers q).owned = none) → s'.sent = s.sent

theorem keptBy_of_move {p : ι} {spurious : Bool}
    (hs : ClientMove f d s (.producer p spurious) s')
    (hkept : s'.world.claims = s.world.claims) : KeptBy p s s' := by
  cases hs with
  | push p spurious v hrest hlt hv =>
      obtain ⟨hp, hother, hseen, hclaims, -, hqueue⟩ := enterPush_frame hv
      obtain ⟨-, heq⟩ := enterPush_eq_some hv
      refine ⟨fun q hq => ⟨hother q hq, ?_⟩, by rw [heq]; rfl, congrArg _ hqueue, ?_, fun _ => rfl⟩
      · simp only [World.behind, hseen, hclaims]
      · intro a ha
        simp [hp, Producer.owned] at ha
  | producer p spurious v hv =>
      obtain ⟨hother, -, hcapacity, -⟩ := producerStep_frame hv
      have hclaims : v.claims = s.world.claims := hkept
      refine ⟨fun q hq => ⟨(hother q hq).1, ?_⟩, ?_, hcapacity, ?_, ?_⟩
      · simp only [World.behind, (hother q hq).2, hclaims]
      · cases producerMove_of_step hv <;> rfl
      · exact fun a ha => owned_of_kept hv hclaims ha
      · intro hnone
        have hzero : ((v.producers p).accepted).toNat = 0 := by
          cases pushOutcome_of_step hv with
          | kept hclaims howned hcurrent =>
              rw [hnone p] at howned
              simp only [Option.isSome_none, Bool.toNat_false] at howned
              omega
          | claimed value hvalue hclaims' =>
              have hlen := congrArg List.length (hclaims'.symm.trans hclaims)
              simp at hlen
        simp only [hzero, Nat.add_zero, Function.update_eq_self]

variable [Fintype ι]

theorem Honest.counts_le (h : Honest f d cap s) (hitems : d.items = Fintype.card ι * f.items) :
    s.world.claims.length ≤ d.items ∧ s.world.delivered.length ≤ d.items := by
  obtain ⟨-, hc, -⟩ := h.mapped
  have hle := h.sending.length_claims_le
  exact ⟨by omega, hc.le.trans (by omega)⟩

omit [Fintype ι] in
/-- A producer whose turn it is not claims an index or changes nothing that matters. -/
theorem Honest.kept_producer (h : Honest f d cap s) (hlt : s.world.claims.length < 2 ^ w) {p : ι}
    {spurious : Bool} (hclaims : s'.world.claims = s.world.claims)
    (hdelivered : s'.world.delivered = s.world.delivered) (hother : .producer p ≠ s.helpful f)
    (hs : ClientMove f d s (.producer p spurious) s') :
    s'.helpful f = s.helpful f ∧ s'.distance f = s.distance f := by
  have hkept := keptBy_of_move hs hclaims
  have hnot : ¬ s.world.OwnsFront p := fun hp =>
    hother (helpful_of_ownsFront h.mapped hlt hp).symm
  have howns : ∀ q, s'.world.OwnsFront q ↔ s.world.OwnsFront q := by
    intro q
    simp only [World.OwnsFront, hdelivered]
    by_cases hq : q = p
    · subst hq
      exact ⟨fun ⟨v, hv⟩ => ⟨v, hkept.owned _ hv⟩, fun hq => absurd hq hnot⟩
    · rw [(hkept.others q hq).1]
  have hhelp : s'.helpful f = s.helpful f := by
    refine helpful_congr howns hclaims hdelivered ?_
    -- what has been sent matters only while the queue is empty
    by_cases hfront : s.world.delivered.length < s.world.claims.length
    · exact Or.inl hfront
    · obtain ⟨-, hc, -⟩ := id h.mapped
      have hle := hc.le
      exact Or.inr (hkept.sent (h.mapped.not_owned_of_empty (by omega)))
  refine ⟨hhelp, ?_⟩
  rw [Clients.distance, hhelp, Clients.distance]
  cases hh : s.helpful f with
  | producer q =>
      have hq : q ≠ p := by
        rintro rfl
        exact hother hh.symm
      -- another producer is next: its own step is where it was
      simp only
      rw [(hkept.others q hq).1, (hkept.others q hq).2, Producer.distance_congr hkept.capacity]
  | consumer =>
      simp only
      rw [hkept.consumer, Consumer.distance_congr]

omit [Fintype ι] in
/-- A consumer whose turn it is not delivers a value or changes nothing that matters. -/
theorem kept_consumer {left : T} (hclaims : s'.world.claims = s.world.claims)
    (hdelivered : s'.world.delivered = s.world.delivered) (hother : .consumer ≠ s.helpful f)
    (hs : ClientMove f d s (.consumer left) s') :
    s'.helpful f = s.helpful f ∧ s'.distance f = s.distance f := by
  have hframe : s'.world.producers = s.world.producers ∧ s'.world.behind = s.world.behind ∧
      s'.world.queue.capacity = s.world.queue.capacity ∧ s'.sent = s.sent := by
    cases hs with
    | pop left v hrest hseen hlt hv =>
        obtain ⟨-, rfl⟩ := enterPop_eq_some hv
        exact ⟨rfl, rfl, rfl, rfl⟩
    | consumer left v hv =>
        obtain ⟨hprod, hseen, hclaims', -, hcapacity⟩ := consumerStep_frame hv
        simp only [Clients.receive_world, Clients.receive_sent]
        refine ⟨hprod, ?_, hcapacity, trivial⟩
        funext q
        simp only [World.behind, hseen, hclaims']
  obtain ⟨hprod, hbehind, hcapacity, hsent⟩ := hframe
  have hhelp : s'.helpful f = s.helpful f := by
    refine helpful_congr (fun q => ?_) hclaims hdelivered (Or.inr hsent)
    simp only [World.OwnsFront, hprod, hdelivered]
  refine ⟨hhelp, ?_⟩
  rw [Clients.distance, hhelp, Clients.distance]
  cases hh : s.helpful f with
  | producer q =>
      simp only
      rw [hprod, hbehind, Producer.distance_congr hcapacity]
  | consumer => exact absurd hh.symm hother

theorem Honest.rank_other (h : Honest f d cap s) (h' : Honest f d cap s')
    (hitems : d.items = Fintype.card ι * f.items) (hfit : d.items < 2 ^ w)
    (hother : t.party ≠ s.helpful f) (hs : clientStep f d s t = some s') :
    s'.rank f d < s.rank f d ∨ (s'.rank f d = s.rank f d ∧ s'.helpful f = s.helpful f) := by
  obtain ⟨hclaims_le, hdelivered_le⟩ := h'.counts_le hitems
  have hlt : s.world.claims.length < 2 ^ w := (h.counts_le hitems).1.trans_lt hfit
  rcases progress_cases hs with hmore | ⟨hclaims, hdelivered⟩
  · exact Or.inl (Clients.rank_lt_of_more hmore hclaims_le hdelivered_le)
  have hmove := clientMove_of_step hs
  obtain ⟨hhelp, hdist⟩ : s'.helpful f = s.helpful f ∧ s'.distance f = s.distance f := by
    cases t with
    | producer p spurious => exact h.kept_producer hlt hclaims hdelivered hother hmove
    | consumer left => exact kept_consumer hclaims hdelivered hother hmove
  -- the rank is the same if the helpful thread and its distance are
  refine Or.inr ⟨?_, hhelp⟩
  rw [Clients.rank, Clients.rank, hclaims, hdelivered, hdist]

omit [Fintype ι] in
/-- The owner of the front writes its value and raises the flag. -/
theorem Honest.nearer_owner (h : Honest f d cap s) (h' : Honest f d cap s')
    (hlt : s.world.claims.length < 2 ^ w) (hclaims : s'.world.claims = s.world.claims)
    (hdelivered : s'.world.delivered = s.world.delivered) {p : ι} (hp : s.world.OwnsFront p)
    (hs : ClientMove f d s (.producer p false) s') : s'.distance f < s.distance f := by
  have hlt' : s'.world.claims.length < 2 ^ w := by rwa [hclaims]
  have hfront := h.mapped.lt_of_ownsFront hlt hp
  obtain ⟨value, howned⟩ := hp
  have hhelp := helpful_of_ownsFront (f := f) h.mapped hlt ⟨value, howned⟩
  -- once the flag is up, it is the consumer's turn to bring the end nearer
  have hpublished : (∀ q, ¬ s'.world.OwnsFront q) → s'.distance f ≤ 9 := by
    intro hnone
    rw [← hclaims, ← hdelivered] at hfront
    rw [Clients.distance, helpful_of_front hnone hfront]
    exact Consumer.distance_le ..
  cases hs with
  | push p spurious v hrest =>
      cases hprod : s.world.producers p <;> rw [hprod] at hrest howned <;>
        first | (cases howned; done) | cases hrest
  | producer p spurious v hv =>
      cases producerMove_of_step hv with
      | write u head hprod =>
          have hfront' : ({ s.world.setProducer p (.storeReady u head) with
              queue := s.world.queue.setData (s.world.queue.element head) u } :
              World ι w T).OwnsFront p := by
            rw [hprod] at howned
            refine ⟨value, ?_⟩
            simpa [World.setProducer, Producer.owned] using howned
          rw [Clients.distance, Clients.distance, hhelp,
            helpful_of_ownsFront h'.mapped hlt' hfront']
          simp only [hprod, World.setProducer, Function.update_self]
          exact Nat.lt_succ_self _
      | storeReady u head hprod =>
          have hnone : ∀ q, ¬ ({ s.world.setProducer p (.returned u true) with
              queue := s.world.queue.setReady (s.world.queue.element head) true } :
              World ι w T).OwnsFront q := by
            rintro q ⟨v, hv⟩
            obtain ⟨hq, hold⟩ := owned_update rfl hv
            exact hq (h.mapped.ownsFront_unique hlt ⟨v, hold⟩ ⟨value, howned⟩)
          have hbefore : s.distance f = 10 := by
            rw [Clients.distance, hhelp]
            simp only [hprod, Producer.distance]
          rw [hbefore]
          exact Nat.lt_succ_of_le (hpublished hnone)
      | loadHead _ hprod | loadTail _ _ hprod | full _ _ _ hprod | notFull _ _ _ hprod
      | claim _ _ _ hprod | retry _ _ _ hprod =>
          rw [hprod] at howned
          cases howned

omit [Fintype ι] in
/-- The consumer takes the front. -/
theorem Honest.nearer_consumer (h : Honest f d cap s) (hlt : s.world.claims.length < 2 ^ w)
    (hclaims : s'.world.claims = s.world.claims)
    (hdelivered : s'.world.delivered = s.world.delivered) (hnone : ∀ p, ¬ s.world.OwnsFront p)
    (hfront : s.world.delivered.length < s.world.claims.length) {left : T}
    (hs : ClientMove f d s (.consumer left) s') : s'.distance f < s.distance f := by
  obtain ⟨-, hc, -⟩ := id h.mapped
  have hprod : s'.world.producers = s.world.producers := by
    cases hs with
    | pop left v hrest hseen hlt hv =>
        obtain ⟨-, rfl⟩ := enterPop_eq_some hv
        rfl
    | consumer left v hv =>
        rw [Clients.receive_world]
        exact (consumerStep_frame hv).1
  have hnone' : ∀ p, ¬ s'.world.OwnsFront p := by
    intro p
    simp only [World.OwnsFront, hprod, hdelivered]
    exact hnone p
  rw [Clients.distance, Clients.distance, helpful_of_front hnone hfront,
    helpful_of_front hnone' (by rw [hclaims, hdelivered]; exact hfront)]
  cases hs with
  | pop left v hrest hseen hlt hv =>
      obtain ⟨hp, rfl⟩ := enterPop_eq_some hv
      obtain hp | ⟨ret, hp⟩ := hp <;> simp only [hp] <;> exact Nat.lt_succ_self _
  | consumer left v hv =>
      simp only [Clients.receive_world] at hdelivered ⊢
      exact hc.distance_consumerStep hfront
        (fun tail hcons => h.mapped.ready_of_not_ownsFront hlt hfront hnone hcons) hv hdelivered

omit [Fintype ι] in
/-- On an empty queue a producer goes on to its claim. -/
theorem Honest.nearer_producer (h : Honest f d cap s) (hcap : 0 < cap)
    (hclaims : s'.world.claims = s.world.claims)
    (hdelivered : s'.world.delivered = s.world.delivered)
    (hempty : s.world.claims.length = s.world.delivered.length) {p : ι}
    (hhelp : s.helpful f = .producer p) (hs : ClientMove f d s (.producer p false) s') :
    s'.distance f < s.distance f := by
  obtain ⟨hsize, hc, -⟩ := id h.mapped
  have hnone := h.mapped.not_owned_of_empty hempty
  have hkept := keptBy_of_move hs hclaims
  have howns : ∀ q, ¬ s.world.OwnsFront q := by
    rintro q ⟨v, hv⟩
    rw [hnone q] at hv
    cases hv
  have howns' : ∀ q, ¬ s'.world.OwnsFront q := by
    rintro q ⟨v, hv⟩
    by_cases hq : q = p
    · subst hq
      have hold := hkept.owned _ hv
      rw [hnone q] at hold
      cases hold
    · rw [(hkept.others q hq).1, hnone q] at hv
      cases hv
  have hhelp' : s'.helpful f = .producer p := by
    rw [← hhelp]
    exact helpful_congr (fun q => iff_of_false (howns' q) (howns q)) hclaims hdelivered
      (Or.inr (hkept.sent hnone))
  rw [Clients.distance, Clients.distance, hhelp, hhelp']
  cases hs with
  | push p spurious v hrest hlt hv =>
      obtain ⟨hp, rfl⟩ := enterPush_eq_some hv
      simp only [World.setProducer, Function.update_self]
      obtain hp | ⟨u, ret, hp⟩ := hp <;> rw [hp] <;> exact Nat.lt_succ_self _
  | producer p spurious v hv =>
      exact hc.distance_producerStep (hsize ▸ hcap) hempty (hnone p) hv hclaims

/-- On an empty queue somebody has more to push, unless all is done. -/
theorem Honest.exists_more (h : Honest f d cap s) (hagree : Agree f d)
    (hitems : d.items = Fintype.card ι * f.items) (hgoal : ¬ Finished f d s)
    (hempty : s.world.claims.length = s.world.delivered.length) : ∃ p, s.sent p < f.items := by
  by_contra hall
  push Not at hall
  have hclaims := h.length_claims_of_sent hall
  refine hgoal (h.finished hagree hitems (fun p => ?_) ?_)
  · have hle := h.sending.claimed_le p
    have hge := hall p
    simp only [Clients.claimed] at hle
    omega
  · rw [h.receiving.total (h.seen_isSome hagree)]
    omega

omit [DecidableEq ι] [Fintype ι] in
theorem eq_producer_of_party {p : ι} (ht : ∀ q, t ≠ .producer q true)
    (hturn : t.party = .producer p) : t = .producer p false := by
  cases t with
  | consumer left => cases hturn
  | producer q spurious =>
      obtain rfl : q = p := Party.producer.inj hturn
      cases spurious with
      | false => rfl
      | true => exact absurd rfl (ht q)

/-- The steps of the helpful thread lower the rank, and it is not blocked. -/
theorem Honest.rank_own (h : Honest f d cap s) (hcap : 0 < cap) (hagree : Agree f d)
    (hitems : d.items = Fintype.card ι * f.items) (hfit : d.items < 2 ^ w)
    (hgoal : ¬ Finished f d s) (ht : ∀ p, t ≠ .producer p true) (hturn : t.party = s.helpful f) :
    ∃ s', clientStep f d s t = some s' ∧ s'.rank f d < s.rank f d := by
  have hlt : s.world.claims.length < 2 ^ w := (h.counts_le hitems).1.trans_lt hfit
  have hfit' : Fintype.card ι * f.items < 2 ^ w := by rwa [← hitems]
  obtain ⟨-, hc, -⟩ := id h.mapped
  have hseen := h.seen_isSome hagree
  -- a step that is enabled and brings nearer what it does not reach
  have hdone : (clientStep f d s t).isSome →
      (∀ s', clientStep f d s t = some s' → s'.world.claims = s.world.claims →
        s'.world.delivered = s.world.delivered → s'.distance f < s.distance f) →
      ∃ s', clientStep f d s t = some s' ∧ s'.rank f d < s.rank f d := by
    intro hsome hnearer
    obtain ⟨s', hs'⟩ := Option.isSome_iff_exists.mp hsome
    have h' := honest_step hfit' h hs'
    obtain ⟨hclaims_le, hdelivered_le⟩ := h'.counts_le hitems
    refine ⟨s', hs', ?_⟩
    rcases progress_cases hs' with hmore | ⟨hclaims, hdelivered⟩
    · exact Clients.rank_lt_of_more hmore hclaims_le hdelivered_le
    · exact Clients.rank_lt_of_nearer hclaims hdelivered (hnearer s' hs' hclaims hdelivered)
  by_cases hown : ∃ p, s.world.OwnsFront p
  · obtain ⟨p, hp⟩ := hown
    rw [helpful_of_ownsFront h.mapped hlt hp] at hturn
    obtain rfl := eq_producer_of_party ht hturn
    obtain ⟨v, hv⟩ := id hp
    -- the owner of an index is in the call that has claimed it
    have hcurrent : ∃ u, u ∈ (s.world.producers p).current? := by
      cases hprod : s.world.producers p <;> rw [hprod] at hv <;>
        first | exact ⟨_, rfl⟩ | cases hv
    obtain ⟨u, hu⟩ := hcurrent
    refine hdone (producerTurn_isSome (h.sending.pushing p u hu).2) ?_
    intro s' hs' hclaims hdelivered
    exact h.nearer_owner (honest_step hfit' h hs') hlt hclaims hdelivered hp
      (clientMove_of_step hs')
  · have hnone : ∀ p, ¬ s.world.OwnsFront p := not_exists.mp hown
    by_cases hfront : s.world.delivered.length < s.world.claims.length
    · rw [helpful_of_front hnone hfront] at hturn
      cases t with
      | producer q spurious => cases hturn
      | consumer left =>
          have htotal := h.receiving.total hseen
          have hle := (h.counts_le hitems).1
          refine hdone (consumerTurn_isSome hseen (by omega) left) ?_
          intro s' hs' hclaims hdelivered
          exact h.nearer_consumer hlt hclaims hdelivered hnone hfront (clientMove_of_step hs')
    · have hempty : s.world.claims.length = s.world.delivered.length := by
        have := hc.le
        omega
      obtain ⟨p, hp, hhelp⟩ :=
        helpful_of_empty hnone hfront (h.exists_more hagree hitems hgoal hempty)
      rw [hhelp] at hturn
      obtain rfl := eq_producer_of_party ht hturn
      refine hdone (producerTurn_isSome hp) ?_
      intro s' hs' hclaims hdelivered
      exact h.nearer_producer hcap hclaims hdelivered hempty hhelp (clientMove_of_step hs')

end Rank

/-! ### Fair schedules -/

section Fairness

variable [DecidableEq ι] [Fintype ι] {f : Feeders ι T} {d : Drainer σ T} {cap : ℕ}

theorem helpful_clients (hcap : 0 < cap) (hagree : Agree f d)
    (hitems : d.items = Fintype.card ι * f.items) (hfit : d.items < 2 ^ w) :
    Helpful (clientStep (w := w) f d) Turn.party (fun t => ∀ p, t ≠ .producer p true)
      (Honest f d cap) (Finished f d) (Clients.rank f d) (Clients.helpful f) where
  inv _ _ _ _ h hs _ := honest_step (hitems ▸ hfit) h hs
  own _ _ ht h hgoal hturn :=
    (h.rank_own hcap hagree hitems hfit hgoal ht hturn).imp fun _ hs => ⟨hs.1, fun _ => hs.2⟩
  other _ _ _ _ h _ _ hother hs :=
    h.rank_other (honest_step (hitems ▸ hfit) h hs) hitems hfit hother hs

/-- Threads that push and pop as many values as they agree on have all finished at some
instant of every fair schedule in which a compare-exchange fails for no reason only finitely
often. -/
theorem clients_finish {capacity : BitVec w} {data : ℕ → T} {sched : ℕ → Turn ι T}
    (hcap : capacity ≠ 0) (hagree : Agree f d) (hitems : d.items = Fintype.card ι * f.items)
    (hfit : d.items < 2 ^ w) (hfair : Fair Turn.party sched) {k : ℕ}
    (hspurious : ∀ n, k ≤ n → ∀ p, sched n ≠ .producer p true) :
    ∃ n, Finished f d
      (stateAt (clientStep f d) (.start ι (.create capacity data) d) sched n) := by
  have hpos : 0 < capacity.toNat := by
    refine Nat.pos_of_ne_zero fun hzero => hcap ?_
    exact BitVec.eq_of_toNat_eq hzero
  have hk : Honest f d capacity.toNat
      (stateAt (clientStep f d) (.start ι (.create capacity data) d) sched k) :=
    stateAt_invariant (A := fun _ => True)
      (fun _ _ _ _ h hs => honest_step (hitems ▸ hfit) h hs) (fun _ => trivial)
      (honest_start f d capacity data) k
  obtain ⟨n, hn⟩ := (helpful_clients hpos hagree hitems hfit).eventually
    (fun s => hfair.drop k (s.helpful f)) (fun n => hspurious (k + n) (Nat.le_add_right k n)) hk
  exact ⟨k + n, by rwa [stateAt_add]⟩

end Fairness

/-- **The concurrent tests come to an end.** On a queue of any capacity but 0, in every
schedule that gives all threads turns again and again and in which a compare-exchange fails
for no reason only finitely often, the threads of the single-producer test and of
`test_concurrent_mpsc` finish: every value has been pushed and popped and the queue is
empty. -/
theorem concurrent_tests_finish {capacity : BitVec 64} (hcap : capacity ≠ 0) {k : ℕ} :
    (∀ (items : ℕ) (data : ℕ → BitVec 32) (sched : ℕ → Turn Unit (BitVec 32)),
      items < 2 ^ 32 → Fair Turn.party sched →
      (∀ n, k ≤ n → ∀ p, sched n ≠ .producer p true) →
      ∃ n, Finished (spscProducer items) (spscConsumer items)
        (stateAt (clientStep (spscProducer items) (spscConsumer items))
          (.start Unit (.create capacity data) (spscConsumer items)) sched n)) ∧
    ∀ (producers perProd : ℕ) (data : ℕ → BitVec 64)
      (sched : ℕ → Turn (Fin producers) (BitVec 64)),
      producers < 2 ^ 32 → producers * perProd < 2 ^ 32 → Fair Turn.party sched →
      (∀ n, k ≤ n → ∀ p, sched n ≠ .producer p true) →
      ∃ n, Finished (mpscProducers producers perProd) (mpscConsumer producers perProd)
        (stateAt (clientStep (mpscProducers producers perProd) (mpscConsumer producers perProd))
          (.start (Fin producers) (.create capacity data) (mpscConsumer producers perProd))
          sched n) := by
  constructor
  · intro items data sched hitems hfair hspurious
    refine clients_finish hcap (agree_spscProducer items) ?_ (hitems.trans (by norm_num)) hfair
      hspurious
    rw [Fintype.card_unit, Nat.one_mul]
    rfl
  · intro producers perProd data sched hproducers hbound hfair hspurious
    refine clients_finish hcap (agree_mpscProducers hproducers perProd) ?_
      (hbound.trans (by norm_num)) hfair hspurious
    rw [Fintype.card_fin]
    rfl

def inTurns (n : ℕ) : Turn (Fin 2) (BitVec 64) :=
  if n % 3 = 0 then .producer slow false
  else if n % 3 = 1 then .producer fast false
  else .consumer 0

theorem fair_inTurns : Fair Turn.party inTurns := by
  intro i n
  cases i with
  | producer p =>
      refine ⟨3 * n + p, by omega, ?_⟩
      obtain rfl | rfl : p = slow ∨ p = fast := by
        rw [Fin.ext_iff, Fin.ext_iff]
        exact (by omega : (p : ℕ) = 0 ∨ (p : ℕ) = 1)
      · simp [inTurns, Turn.party, slow]
      · simp [inTurns, Turn.party, fast]
  | consumer => exact ⟨3 * n + 2, by omega, by simp [inTurns, Turn.party]⟩

theorem concurrent_tests_finish_inTurns :
    ∃ n, Finished (mpscProducers 2 3) (mpscConsumer 2 3)
      (stateAt (clientStep (mpscProducers 2 3) (mpscConsumer 2 3))
        (.start (Fin 2) (.create (1 : BitVec 64) fun _ => 0) (mpscConsumer 2 3)) inTurns n) :=
  (@concurrent_tests_finish 1 (by decide) 0).2 2 3 (fun _ => 0) inTurns (by decide) (by decide)
    fair_inTurns fun n _ p => by
      unfold inTurns
      split
      · simp
      · split <;> simp

end SystemsPrep.Mpsc
