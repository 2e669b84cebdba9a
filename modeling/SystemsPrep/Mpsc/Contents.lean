import SystemsPrep.Base.Window
import SystemsPrep.Mpsc.Counters

/-!
What the cells of a multi-producer queue hold.

A claimed index belongs to its producer until the ready flag is up, and to the
consumer from then until the tail has moved past it. A flag that is up therefore
always announces the claim of the current lap. This needs the indices not to wrap:
the capacity need not divide `2 ^ w`, so fewer than `2 ^ w` claims are assumed.
-/

namespace SystemsPrep.Mpsc

open Base

variable {ι : Type*} {w : ℕ} {T : Type*}

def Producer.owned : Producer w T → Option (BitVec w × T)
  | .write value head | .storeReady value head => some (head, value)
  | _ => none

def Consumer.clearing : Consumer w T → Bool
  | .clearReady _ _ => true
  | _ => false

namespace World

def isReady (s : World ι w T) (k : ℕ) : Bool := (s.queue.items (k % s.queue.cap)).isReady

def data (s : World ι w T) (k : ℕ) : T := (s.queue.items (k % s.queue.cap)).data

end World

/-- What the consumer knows about the cell at the tail. -/
def ConsumerCell (s : World ι w T) : Consumer w T → Prop
  | .moveOut _ => s.isReady s.delivered.length = true
  | .clearReady _ value =>
      s.isReady s.delivered.length = true ∧
        (s.claims.map Prod.snd)[s.delivered.length]? = some value
  | .storeTail tail value =>
      s.isReady s.delivered.length = false ∧
        (s.claims.map Prod.snd)[s.delivered.length]? = some value ∧
        ∀ p head v, (s.producers p).owned = some (head, v) → head ≠ tail
  | _ => True

structure Contents (s : World ι w T) : Prop where
  /-- Deliveries follow the claims. -/
  fifo : s.delivered <+: s.claims.map Prod.snd
  /-- A flag that is up announces the claim of this lap. -/
  ready : ∀ k a, s.claims[k]? = some a → s.delivered.length ≤ k → s.isReady k = true →
    (k = s.delivered.length → s.consumer.clearing = false) → s.data k = a.2
  /-- The free cells are not ready. -/
  unready : ∀ k, s.claims.length ≤ k → k < s.delivered.length + s.queue.cap →
    s.isReady k = false
  /-- A producer past its claim owns a cell that is not ready. -/
  owner : ∀ p head value, (s.producers p).owned = some (head, value) →
    ∃ k, head = BitVec.ofNat w k ∧ s.delivered.length ≤ k ∧ s.claims[k]? = some (p, value) ∧
      s.isReady k = false
  written : ∀ p head value k, s.producers p = .storeReady value head →
    head = BitVec.ofNat w k → k < 2 ^ w → s.data k = value
  consumer : ConsumerCell s s.consumer

theorem element_ofNat {q : MpscQueue w T} {k : ℕ} (hk : k < 2 ^ w) :
    q.element (BitVec.ofNat w k) = k % q.cap := by
  rw [MpscQueue.element, BitVec.toNat_umod, BitVec.toNat_ofNat, Nat.mod_eq_of_lt hk]
  rfl

section Cells

variable {s : World ι w T}

/-- Two claimed and undelivered indices never share a cell. -/
theorem Counters.slot_inj (h : Counters s) {k m : ℕ} (hk : s.delivered.length ≤ k)
    (hk' : k < s.claims.length) (hm : s.delivered.length ≤ m)
    (hm' : m < s.delivered.length + s.queue.cap) (heq : k % s.queue.cap = m % s.queue.cap) :
    k = m := by
  have := h.room
  exact eq_of_mod_eq_of_near hk (by omega) hm hm' heq

theorem index_inj {k m : ℕ} (hk : k < 2 ^ w) (hm : m < 2 ^ w)
    (heq : BitVec.ofNat w k = BitVec.ofNat w m) : k = m := by
  have := congrArg BitVec.toNat heq
  rwa [BitVec.toNat_ofNat, BitVec.toNat_ofNat, Nat.mod_eq_of_lt hk, Nat.mod_eq_of_lt hm] at this

theorem lt_of_getElem?_claims {k : ℕ} {a : ι × T} (h : s.claims[k]? = some a) :
    k < s.claims.length :=
  (List.getElem?_eq_some_iff.mp h).1

theorem Counters.claimant_eq (h : Counters s) {k m : ℕ} {p q : ι} {u v : T}
    (hk : s.delivered.length ≤ k) (hp : s.claims[k]? = some (p, u))
    (hm : s.delivered.length ≤ m) (hq : s.claims[m]? = some (q, v))
    (heq : k % s.queue.cap = m % s.queue.cap) : p = q := by
  have hroom := h.room
  have hlt := lt_of_getElem?_claims hq
  obtain rfl := h.slot_inj hk (lt_of_getElem?_claims hp) hm (by omega) heq
  rw [hp, Option.some.injEq, Prod.mk.injEq] at hq
  exact hq.1

end Cells

theorem ConsumerCell.congr {s t : World ι w T} {x : Consumer w T} (h : ConsumerCell s x)
    (hdel : t.delivered = s.delivered) (hclaims : s.claims <+: t.claims)
    (hready : t.isReady s.delivered.length = s.isReady s.delivered.length)
    (howned : ∀ p head v, (t.producers p).owned = some (head, v) →
      (s.producers p).owned = some (head, v) ∨ ∀ tail v', x = .storeTail tail v' → head ≠ tail) :
    ConsumerCell t x := by
  have hmono : ∀ v, (s.claims.map Prod.snd)[s.delivered.length]? = some v →
      (t.claims.map Prod.snd)[s.delivered.length]? = some v := by
    intro v hv
    obtain ⟨cs, hcs⟩ := hclaims
    rw [← hcs, List.map_append, List.getElem?_append_left (List.getElem?_eq_some_iff.mp hv).1, hv]
  cases x with
  | moveOut => rw [ConsumerCell, hdel, hready]; exact h
  | clearReady =>
      rw [ConsumerCell, hdel, hready]
      exact ⟨h.1, hmono _ h.2⟩
  | storeTail tail v =>
      rw [ConsumerCell, hdel, hready]
      refine ⟨h.1, hmono _ h.2.1, fun p head v' hp => ?_⟩
      rcases howned p head v' hp with hold | hne
      · exact h.2.2 p head v' hold
      · exact hne tail v rfl
  | _ => trivial

/-! ### The producers' steps -/

section ProducerSteps

variable [DecidableEq ι] {s s' : World ι w T}

theorem update_cases {f : ι → Producer w T} {p q : ι} {x y : Producer w T}
    (h : Function.update f p x q = y) : q = p ∧ x = y ∨ q ≠ p ∧ f q = y := by
  by_cases hq : q = p
  · subst hq
    rw [Function.update_self] at h
    exact Or.inl ⟨rfl, h⟩
  · rw [Function.update_of_ne hq] at h
    exact Or.inr ⟨hq, h⟩

theorem owned_cases {f : ι → Producer w T} {p q : ι} {x : Producer w T} {a : BitVec w × T}
    (h : (Function.update f p x q).owned = some a) :
    q = p ∧ x.owned = some a ∨ q ≠ p ∧ (f q).owned = some a := by
  rcases update_cases (f := f) (p := p) (q := q) (x := x) rfl with ⟨hq, hx⟩ | ⟨hq, hf⟩
  · exact Or.inl ⟨hq, hx ▸ h⟩
  · exact Or.inr ⟨hq, hf ▸ h⟩

theorem owned_update {f : ι → Producer w T} {p q : ι} {x : Producer w T} {a : BitVec w × T}
    (hx : x.owned = none) (h : (Function.update f p x q).owned = some a) :
    q ≠ p ∧ (f q).owned = some a := by
  rcases owned_cases h with ⟨-, hq⟩ | hq
  · rw [hx] at hq
    cases hq
  · exact hq

theorem Contents.setProducer (h : Contents s) (p : ι) {x : Producer w T} (hx : x.owned = none) :
    Contents (s.setProducer p x) := by
  have howned : ∀ q a, ((s.setProducer p x).producers q).owned = some a →
      (s.producers q).owned = some a := fun q a hq => (owned_update hx hq).2
  exact
    { h with
      owner := fun q head value hq => h.owner q head value (howned q _ hq)
      written := fun q head value k hq => by
        rcases update_cases hq with ⟨-, rfl⟩ | ⟨-, hq⟩
        · cases hx
        · exact h.written q head value k hq
      consumer := ConsumerCell.congr h.consumer rfl (List.prefix_refl _) rfl
        fun q head v hq => Or.inl (howned q (head, v) hq) }

theorem Contents.reloadHead (h : Contents s) (p : ι) (value : T) :
    Contents (s.reloadHead p value) :=
  { h.setProducer p (x := .loadTail value s.queue.head) rfl with }

theorem Contents.claim (h : Contents s) (hc : Counters s) {p : ι} {value : T} {head tail : BitVec w}
    (hp : s.producers p = .compareExchange value head tail) (heq : s.queue.head = head)
    (hroom : s.claims.length < s.delivered.length + s.queue.cap)
    (hlt : s.claims.length < 2 ^ w) :
    Contents { s.setProducer p (.write value head) with
      queue := { s.queue with head := head + 1 }
      claims := s.claims ++ [(p, value)] } := by
  have hfree : s.isReady s.claims.length = false := h.unready _ le_rfl hroom
  have hmono : ∀ {k a}, s.claims[k]? = some a → (s.claims ++ [(p, value)])[k]? = some a :=
    fun hk => by rw [List.getElem?_append_left (List.getElem?_eq_some_iff.mp hk).1, hk]
  have hlen : (s.claims ++ [(p, value)]).length = s.claims.length + 1 := by simp
  refine
    { fifo := h.fifo.trans (by rw [List.map_append]; exact List.prefix_append _ _)
      ready := ?_
      unready := fun k hk hk' => h.unready k (by rw [hlen] at hk; omega) hk'
      owner := ?_
      written := ?_
      consumer := ?_ }
  · intro k a hk hdel hready
    rcases Nat.lt_or_ge k s.claims.length with hold | hnew
    · rw [List.getElem?_append_left hold] at hk
      exact h.ready k a hk hdel hready
    · -- the cell just claimed is not ready
      have hk' := lt_of_getElem?_claims (s := { s with claims := s.claims ++ [(p, value)] }) hk
      have : k = s.claims.length := by
        rw [hlen] at hk'
        omega
      subst this
      exact absurd (hfree.symm.trans hready) Bool.false_ne_true
  · intro q hd v hq
    rcases owned_cases (f := s.producers) (p := p) (x := .write value head) hq with
       ⟨rfl, hx⟩ | ⟨hqp, hq⟩
    · cases hx
      exact ⟨s.claims.length, heq.symm.trans hc.head, hc.le, by simp, hfree⟩
    · obtain ⟨k, hk, hdel, hclaim, hready⟩ := h.owner q hd v hq
      exact ⟨k, hk, hdel, hmono hclaim, hready⟩
  · intro q hd v k hq
    rcases update_cases (f := s.producers) (p := p) (x := .write value head) hq with
       ⟨rfl, hx⟩ | ⟨hqp, hq⟩
    · cases hx
    · exact h.written q hd v k hq
  · refine ConsumerCell.congr h.consumer rfl (List.prefix_append _ _) rfl fun q hd v hq => ?_
    rcases owned_cases (f := s.producers) (p := p) (x := .write value head) hq with
      ⟨-, hnew⟩ | ⟨-, hold⟩
    · cases hnew
      right
      rintro tail' v' hstore hsame
      -- the consumer is at an index claimed before
      have hcount := hc.consumer
      change s.consumer = _ at hstore
      rw [hstore] at hcount
      rw [← heq, hc.head, hcount.1] at hsame
      have := index_inj hlt (hcount.2.trans hlt) hsame
      have := hcount.2
      omega
    · exact Or.inl hold

/-- The producer's write is to its own cell, which no other owner shares and
whose flag is down. -/
theorem Contents.write (h : Contents s) (hc : Counters s) (hlt : s.claims.length < 2 ^ w)
    {p : ι} {value : T} {head : BitVec w} (hp : s.producers p = .write value head) :
    Contents { s.setProducer p (.storeReady value head) with
      queue := s.queue.setData (s.queue.element head) value } := by
  obtain ⟨k, rfl, hdel, hclaim, hfree⟩ := h.owner p head value (by rw [hp]; rfl)
  have hk : k < s.claims.length := lt_of_getElem?_claims hclaim
  rw [element_ofNat (hk.trans hlt)]
  -- other cells keep their data, and every cell its flag
  have hdata : ∀ m, m % s.queue.cap ≠ k % s.queue.cap →
      ((s.queue.setData (k % s.queue.cap) value).items (m % s.queue.cap)).data = s.data m :=
    fun m hm => MpscQueue.setData_data_of_ne s.queue value hm
  have hflag : ∀ m, ((s.queue.setData (k % s.queue.cap) value).items (m % s.queue.cap)).isReady =
      s.isReady m := fun m => MpscQueue.setData_isReady ..
  have howned : ∀ q a,
      (Function.update s.producers p (.storeReady value (BitVec.ofNat w k)) q).owned = some a →
        (s.producers q).owned = some a := by
    intro q a hq
    by_cases hqp : q = p
    · subst hqp
      rw [Function.update_self] at hq
      rw [hp]
      exact hq
    · rwa [Function.update_of_ne hqp] at hq
  refine
    { fifo := h.fifo
      ready := ?_
      unready := fun m hm hm' => (hflag m).trans (h.unready m hm hm')
      owner := fun q hd v hq => ?_
      written := ?_
      consumer := ?_ }
  · intro m a hm hdelm hready hclear
    have hready : s.isReady m = true := (hflag m).symm.trans hready
    have hne : m % s.queue.cap ≠ k % s.queue.cap := by
      intro heq
      rw [World.isReady, heq] at hready
      exact Bool.false_ne_true (hfree.symm.trans hready)
    exact (hdata m hne).trans (h.ready m a hm hdelm hready hclear)
  · obtain ⟨m, hm, hdelm, hclaimm, hreadym⟩ := h.owner q hd v (howned q _ hq)
    exact ⟨m, hm, hdelm, hclaimm, (hflag m).trans hreadym⟩
  · intro q hd v m hq hm hm'
    rcases update_cases (f := s.producers) (p := p)
        (x := .storeReady value (BitVec.ofNat w k)) hq with
       ⟨rfl, hx⟩ | ⟨hqp, hq⟩
    · cases hx
      obtain rfl := index_inj (hk.trans hlt) hm' hm
      exact MpscQueue.setData_data ..
    · obtain ⟨n, hn, hdeln, hclaimn, -⟩ := h.owner q hd v (by rw [hq]; rfl)
      have hnlt := lt_of_getElem?_claims hclaimn
      obtain rfl := index_inj (hnlt.trans hlt) hm' (hn.symm.trans hm)
      refine (hdata n fun heq => ?_).trans (h.written q hd v n hq hm hm')
      exact hqp (hc.claimant_eq hdeln hclaimn hdel hclaim heq)
  · exact ConsumerCell.congr h.consumer rfl (List.prefix_refl _) (hflag _)
      fun q hd v hq => Or.inl (howned q (hd, v) hq)

/-- Raising the flag publishes the value just written. -/
theorem Contents.storeReady (h : Contents s) (hc : Counters s) (hlt : s.claims.length < 2 ^ w)
    {p : ι} {value : T} {head : BitVec w} (hp : s.producers p = .storeReady value head) :
    Contents { s.setProducer p (.returned value true) with
      queue := s.queue.setReady (s.queue.element head) true } := by
  obtain ⟨k, rfl, hdel, hclaim, hfree⟩ := h.owner p head value (by rw [hp]; rfl)
  have hk : k < s.claims.length := lt_of_getElem?_claims hclaim
  have hroom := hc.room
  have hvalue : s.data k = value := h.written p _ value k hp rfl (hk.trans hlt)
  rw [element_ofNat (hk.trans hlt)]
  have hflag : ∀ m, m % s.queue.cap ≠ k % s.queue.cap →
      ((s.queue.setReady (k % s.queue.cap) true).items (m % s.queue.cap)).isReady =
        s.isReady m := fun m hm => MpscQueue.setReady_isReady_of_ne s.queue true hm
  have hdata : ∀ m, ((s.queue.setReady (k % s.queue.cap) true).items (m % s.queue.cap)).data =
      s.data m := fun m => MpscQueue.setReady_data ..
  have howned : ∀ q a, (Function.update s.producers p (.returned value true) q).owned = some a →
      q ≠ p ∧ (s.producers q).owned = some a := fun q a hq => owned_update rfl hq
  refine
    { fifo := h.fifo
      ready := ?_
      unready := fun m hm hm' => ?_
      owner := fun q hd v hq => ?_
      written := ?_
      consumer := ?_ }
  · intro m a hm hdelm hready hclear
    refine (hdata m).trans ?_
    by_cases heq : m % s.queue.cap = k % s.queue.cap
    · obtain rfl := hc.slot_inj hdelm (lt_of_getElem?_claims hm) hdel (by omega) heq
      change s.claims[m]? = some a at hm
      rw [hclaim, Option.some.injEq] at hm
      rw [hvalue, ← hm]
    · exact h.ready m a hm hdelm ((hflag m heq).symm.trans hready) hclear
  · change s.claims.length ≤ m at hm
    change m < s.delivered.length + s.queue.cap at hm'
    refine (hflag m fun heq => ?_).trans (h.unready m hm hm')
    have := hc.slot_inj hdel hk (by omega) hm' heq.symm
    omega
  · obtain ⟨hqp, hq⟩ := howned q _ hq
    obtain ⟨m, hm, hdelm, hclaimm, hreadym⟩ := h.owner q hd v hq
    refine ⟨m, hm, hdelm, hclaimm, (hflag m fun heq => ?_).trans hreadym⟩
    exact hqp (hc.claimant_eq hdelm hclaimm hdel hclaim heq)
  · intro q hd v m hq hm hm'
    rcases update_cases (f := s.producers) (p := p) (x := .returned value true) hq with
       ⟨rfl, hx⟩ | ⟨hqp, hq⟩
    · cases hx
    · exact (hdata m).trans (h.written q hd v m hq hm hm')
  · have hcell := h.consumer
    have hcount := hc.consumer
    by_cases heq : s.delivered.length % s.queue.cap = k % s.queue.cap
    · -- the cell at the tail is the one published, so the consumer was not in it
      have hkd : k = s.delivered.length := (hc.slot_inj le_rfl (by omega) hdel (by omega) heq).symm
      change ConsumerCell _ s.consumer
      cases hcons : s.consumer with
      | moveOut =>
          rw [hcons] at hcell
          exact absurd (hfree.symm.trans (hkd ▸ hcell)) Bool.false_ne_true
      | clearReady =>
          rw [hcons] at hcell
          exact absurd (hfree.symm.trans (hkd ▸ hcell.1)) Bool.false_ne_true
      | storeTail tail v =>
          rw [hcons] at hcell hcount
          have := hcell.2.2 p (BitVec.ofNat w k) value (by rw [hp]; rfl)
          exact absurd (by rw [hkd, hcount.1]) this
      | _ => trivial
    · exact ConsumerCell.congr hcell rfl (List.prefix_refl _) (hflag _ heq)
        fun q hd v hq => Or.inl (howned q (hd, v) hq).2

theorem contents_producerStep {p : ι} {spurious : Bool} (h : Contents s) (hc : Counters s)
    (hlt : s'.claims.length < 2 ^ w) (hs : producerStep s p spurious = some s') :
    Contents s' := by
  cases producerMove_of_step hs with
  | loadHead value hp => exact h.reloadHead p value
  | loadTail value head hp => exact h.setProducer p rfl
  | full value head tail hp hfull => exact h.setProducer p rfl
  | notFull value head tail hp hfull => exact h.setProducer p rfl
  | claim value head tail hp heq hspurious =>
      have hlt' : s.claims.length < 2 ^ w :=
        (claims_isPrefix (a := .producer p spurious) hs).length_le.trans_lt hlt
      have hlen : (s.claims ++ [(p, value)]).length = s.claims.length + 1 := by simp
      have hroom := (hc.claim hp heq (by omega)).room
      change (s.claims ++ [(p, value)]).length ≤ s.delivered.length + s.queue.cap at hroom
      exact h.claim hc hp heq (by omega) hlt'
  | retry value head tail hp hfail => exact h.reloadHead p value
  | write value head hp => exact h.write hc hlt hp
  | storeReady value head hp => exact h.storeReady hc hlt hp

end ProducerSteps

/-! ### The consumer's steps -/

section ConsumerSteps

variable {s s' : World ι w T}

theorem Contents.setConsumer (h : Contents s) {x : Consumer w T}
    (hclear : s.consumer.clearing = false) (hx : ConsumerCell s x) :
    Contents { s with consumer := x } :=
  { h with
    ready := fun k a hk hdel hready _ => h.ready k a hk hdel hready fun _ => hclear
    consumer := hx.congr rfl (List.prefix_refl _) rfl fun _ _ _ hp => Or.inl hp }

/-- The value that the consumer moves out is that of the claim at the tail. What
it leaves behind is in a cell nobody else looks at. -/
theorem Contents.moveOut (h : Contents s) (hc : Counters s) (hlt : s.claims.length < 2 ^ w)
    {tail : BitVec w} {left : T} (hp : s.consumer = .moveOut tail) :
    Contents { s with
      queue := s.queue.setData (s.queue.element tail) left
      consumer := .clearReady tail (s.queue.items (s.queue.element tail)).data } := by
  have hcount := hc.consumer
  have hready := h.consumer
  rw [hp] at hcount hready
  obtain ⟨rfl, hdel⟩ := hcount
  have hroom := hc.room
  rw [element_ofNat (hdel.trans hlt)]
  have hdata : ∀ m, m % s.queue.cap ≠ s.delivered.length % s.queue.cap →
      ((s.queue.setData (s.delivered.length % s.queue.cap) left).items
        (m % s.queue.cap)).data = s.data m :=
    fun m hm => MpscQueue.setData_data_of_ne s.queue left hm
  have hflag : ∀ m, ((s.queue.setData (s.delivered.length % s.queue.cap) left).items
      (m % s.queue.cap)).isReady = s.isReady m := fun m => MpscQueue.setData_isReady ..
  refine
    { fifo := h.fifo
      ready := ?_
      unready := fun m hm hm' => (hflag m).trans (h.unready m hm hm')
      owner := fun q hd v hq => ?_
      written := ?_
      consumer := ⟨(hflag _).trans hready, ?_⟩ }
  · intro m a hm hdelm hreadym hclear
    have hne : m ≠ s.delivered.length := fun heq => Bool.false_ne_true (hclear heq).symm
    refine (hdata m fun heq => hne ?_).trans
      (h.ready m a hm hdelm ((hflag m).symm.trans hreadym) fun heq => absurd heq hne)
    have := lt_of_getElem?_claims hm
    exact hc.slot_inj hdelm (lt_of_getElem?_claims hm) le_rfl (by omega) heq
  · obtain ⟨m, hm, hdelm, hclaimm, hreadym⟩ := h.owner q hd v hq
    exact ⟨m, hm, hdelm, hclaimm, (hflag m).trans hreadym⟩
  · intro q hd v m hq hm hm'
    obtain ⟨n, hn, hdeln, hclaimn, hreadyn⟩ := h.owner q hd v (by rw [hq]; rfl)
    have hnlt := lt_of_getElem?_claims hclaimn
    obtain rfl := index_inj (hnlt.trans hlt) hm' (hn.symm.trans hm)
    refine (hdata n fun heq => ?_).trans (h.written q hd v n hq hm hm')
    obtain rfl := hc.slot_inj hdeln hnlt le_rfl (by omega) heq
    exact Bool.false_ne_true (hreadyn.symm.trans hready)
  · obtain ⟨a, ha⟩ : ∃ a, s.claims[s.delivered.length]? = some a :=
      ⟨_, List.getElem?_eq_getElem hdel⟩
    rw [List.getElem?_map, ha, Option.map_some]
    exact congrArg some (h.ready _ a ha le_rfl hready fun _ => by rw [hp]; rfl).symm

/-- Clearing the flag frees no cell of a producer. -/
theorem Contents.clearReady (h : Contents s) (hc : Counters s) (hlt : s.claims.length < 2 ^ w)
    {tail : BitVec w} {value : T} (hp : s.consumer = .clearReady tail value) :
    Contents { s with
      queue := s.queue.setReady (s.queue.element tail) false
      consumer := .storeTail tail value } := by
  have hcount := hc.consumer
  have hcell := h.consumer
  rw [hp] at hcount hcell
  obtain ⟨rfl, hdel⟩ := hcount
  obtain ⟨hready, hvalue⟩ := hcell
  rw [element_ofNat (hdel.trans hlt)]
  have hflag : ∀ m, m % s.queue.cap ≠ s.delivered.length % s.queue.cap →
      ((s.queue.setReady (s.delivered.length % s.queue.cap) false).items
        (m % s.queue.cap)).isReady = s.isReady m :=
    fun m hm => MpscQueue.setReady_isReady_of_ne s.queue false hm
  have hclear : ∀ m, m % s.queue.cap = s.delivered.length % s.queue.cap →
      ((s.queue.setReady (s.delivered.length % s.queue.cap) false).items
        (m % s.queue.cap)).isReady = false := by
    intro m hm
    rw [hm]
    exact MpscQueue.setReady_isReady ..
  have hdata : ∀ m, ((s.queue.setReady (s.delivered.length % s.queue.cap) false).items
      (m % s.queue.cap)).data = s.data m := fun m => MpscQueue.setReady_data ..
  have hdown : ∀ m, s.isReady m = false →
      ((s.queue.setReady (s.delivered.length % s.queue.cap) false).items
        (m % s.queue.cap)).isReady = false := by
    intro m hm
    by_cases heq : m % s.queue.cap = s.delivered.length % s.queue.cap
    · exact hclear m heq
    · exact (hflag m heq).trans hm
  refine
    { fifo := h.fifo
      ready := ?_
      unready := fun m hm hm' => hdown m (h.unready m hm hm')
      owner := fun q hd v hq => ?_
      written := fun q v hd m hq hm hm' => (hdata m).trans (h.written q v hd m hq hm hm')
      consumer := ⟨hclear _ rfl, hvalue, ?_⟩ }
  · intro m a hm hdelm hreadym _
    by_cases heq : m % s.queue.cap = s.delivered.length % s.queue.cap
    · exact absurd ((hclear m heq).symm.trans hreadym) Bool.false_ne_true
    · have hold := (hflag m heq).symm.trans hreadym
      exact (hdata m).trans (h.ready m a hm hdelm hold fun h => absurd (by rw [h]) heq)
  · obtain ⟨m, hm, hdelm, hclaimm, hreadym⟩ := h.owner q hd v hq
    exact ⟨m, hm, hdelm, hclaimm, hdown m hreadym⟩
  · -- an owner's cell was not ready, the one at the tail was
    rintro q hd v hq rfl
    obtain ⟨m, hm, hdelm, hclaimm, hreadym⟩ := h.owner q _ v hq
    obtain rfl := index_inj (hdel.trans hlt) ((lt_of_getElem?_claims hclaimm).trans hlt) hm
    exact Bool.false_ne_true (hreadym.symm.trans hready)

/-- The tail moves past a cell that is free again. -/
theorem Contents.storeTail (h : Contents s) (hc : Counters s) {tail : BitVec w} {value : T}
    (hp : s.consumer = .storeTail tail value) :
    Contents { s with
      queue := { s.queue with tail := tail + 1 }
      delivered := s.delivered ++ [value]
      consumer := .returned (some value) } := by
  have hcount := hc.consumer
  have hcell := h.consumer
  rw [hp] at hcount hcell
  obtain ⟨rfl, hdel⟩ := hcount
  obtain ⟨hready, hvalue, hother⟩ := hcell
  have hlen : (s.delivered ++ [value]).length = s.delivered.length + 1 := by simp
  refine
    { fifo := ?_
      ready := fun k a hk hdelk hreadyk _ => ?_
      unready := fun k hk hk' => ?_
      owner := fun p hd v hq => ?_
      written := h.written
      consumer := trivial }
  · exact isPrefix_concat h.fifo hvalue
  · rw [hlen] at hdelk
    exact h.ready k a hk (by omega) hreadyk fun heq => by omega
  · rw [hlen] at hk'
    change s.claims.length ≤ k at hk
    change k < s.delivered.length + 1 + s.queue.cap at hk'
    rcases Nat.lt_or_ge k (s.delivered.length + s.queue.cap) with hold | hnew
    · exact h.unready k hk hold
    · obtain rfl : k = s.delivered.length + s.queue.cap := by omega
      change (s.queue.items ((s.delivered.length + s.queue.cap) % s.queue.cap)).isReady = false
      rw [Nat.add_mod_right]
      exact hready
  · obtain ⟨k, rfl, hdelk, hclaimk, hreadyk⟩ := h.owner p hd v hq
    refine ⟨k, rfl, ?_, hclaimk, hreadyk⟩
    have hne : k ≠ s.delivered.length := fun heq => hother p _ v hq (by rw [heq])
    rw [hlen]
    omega

theorem contents_consumerStep {left : T} (h : Contents s) (hc : Counters s)
    (hlt : s.claims.length < 2 ^ w) (hs : consumerStep s left = some s') : Contents s' := by
  have hcount := hc.consumer
  cases consumerMove_of_step hs with
  | loadTail hp => exact h.setConsumer (by rw [hp]; rfl) trivial
  | loadHead tail hp => exact h.setConsumer (by rw [hp]; rfl) trivial
  | empty tail head hp hempty => exact h.setConsumer (by rw [hp]; rfl) trivial
  | notEmpty tail head hp hempty => exact h.setConsumer (by rw [hp]; rfl) trivial
  | ready tail hp hready =>
      rw [hp] at hcount
      obtain ⟨rfl, hdel⟩ := hcount
      rw [element_ofNat (hdel.trans hlt)] at hready
      exact h.setConsumer (by rw [hp]; rfl) hready
  | notReady tail hp hready => exact h.setConsumer (by rw [hp]; rfl) trivial
  | moveOut tail hp => exact h.moveOut hc hlt hp
  | clearReady tail value hp => exact h.clearReady hc hlt hp
  | storeTail tail value hp => exact h.storeTail hc hp

end ConsumerSteps

/-! ### Whole runs -/

theorem contents_start (capacity : BitVec w) (data : ℕ → T) :
    Contents (World.start ι (.create capacity data)) where
  fifo := List.prefix_refl _
  ready k a hk := by simp [World.start] at hk
  unready _ _ _ := rfl
  owner p head value hp := by simp [World.start, Producer.owned] at hp
  written p head value k hp := by simp [World.start] at hp
  consumer := trivial

variable [DecidableEq ι]

/-- Both invariants, as long as the indices have not wrapped. -/
theorem contents_step (s : World ι w T) (a : Action ι T) (s' : World ι w T)
    (h : s.claims.length < 2 ^ w → Counters s ∧ Contents s) (hs : step s a = some s')
    (hlt' : s'.claims.length < 2 ^ w) : Counters s' ∧ Contents s' := by
  have hlt : s.claims.length < 2 ^ w := (claims_isPrefix hs).length_le.trans_lt hlt'
  obtain ⟨hc, h⟩ := h hlt
  refine ⟨counters_step s a s' (noLap_of_claims_lt hlt a) hc hs, ?_⟩
  cases a with
  | push p value =>
      obtain ⟨-, rfl⟩ := enterPush_eq_some hs
      have hset := h.setProducer p (x := .loadHead value) rfl
      exact { hset with }
  | producer p spurious => exact contents_producerStep h hc hlt' hs
  | pop =>
      obtain ⟨hp | ⟨ret, hp⟩, rfl⟩ := enterPop_eq_some hs <;>
        exact h.setConsumer (by rw [hp]; rfl) trivial
  | consumer left => exact contents_consumerStep h hc hlt hs

theorem contents_exec {capacity : BitVec w} {data : ℕ → T} {as : List (Action ι T)}
    {s : World ι w T} (hs : exec step (World.start ι (.create capacity data)) as = some s)
    (hlt : s.claims.length < 2 ^ w) : Counters s ∧ Contents s :=
  exec_invariant (I := fun s => s.claims.length < 2 ^ w → Counters s ∧ Contents s)
    contents_step hs (fun _ => ⟨counters_start capacity data, contents_start capacity data⟩) hlt

end SystemsPrep.Mpsc
