import SystemsPrep.Base.Family
import SystemsPrep.Mpsc.Contents

/-!
Who may touch a cell of a multi-producer queue.

The ready flag is a single bit and carries no lap number. It is up exactly on the
cells of the claimed indices whose producer has raised it and whose flag the consumer
has not taken down. So the producers between their claim and their flag are on
different cells, and the consumer is on none of them.
-/

namespace SystemsPrep.Mpsc

open Base

variable {ι : Type*} {w : ℕ} {T : Type*}

/-- A write to a ready flag, with the index it was made for. -/
inductive FlagWrite (w : ℕ)
  | up (idx : BitVec w)
  | down (idx : BitVec w)
  deriving DecidableEq

/-- The flag that an action writes. -/
def flagWrites (s : World ι w T) : Action ι T → World ι w T → List (FlagWrite w)
  | .producer p _, _ =>
      match s.producers p with
      | .storeReady _ head => [.up head]
      | _ => []
  | .consumer _, _ =>
      match s.consumer with
      | .clearReady tail _ => [.down tail]
      | _ => []
  | .push _ _, _ | .pop, _ => []

def World.Claimed (s : World ι w T) (idx : BitVec w) : Prop :=
  s.queue.tail ≤ idx ∧ idx < s.queue.head

def World.Owned (s : World ι w T) (idx : BitVec w) : Prop :=
  ∃ p v, (s.producers p).owned = some (idx, v)

def Consumer.inCell : Consumer w T → Option (BitVec w)
  | .moveOut tail | .clearReady tail _ => some tail
  | _ => none

def Consumer.storing : Consumer w T → Bool
  | .storeTail _ _ => true
  | _ => false

/-- The flag writes so far, next to the state. -/
structure Flags (s : World ι w T) (l : List (FlagWrite w)) : Prop where
  up_claimed : ∀ i, .up i ∈ l → ∃ k < s.claims.length, i = BitVec.ofNat w k
  up_iff : ∀ k, s.delivered.length ≤ k → k < s.claims.length →
    (.up (BitVec.ofNat w k) ∈ l ↔ ¬ s.Owned (BitVec.ofNat w k))
  down_passed : ∀ i, .down i ∈ l → ∃ k, i = BitVec.ofNat w k ∧
    (k < s.delivered.length ∨ k = s.delivered.length ∧ s.consumer.storing = true)
  down_last : s.consumer.storing = true → .down (BitVec.ofNat w s.delivered.length) ∈ l
  /-- A flag that is down belongs to a producer, or the consumer has just taken it down. -/
  published : ∀ k, s.delivered.length ≤ k → k < s.claims.length → s.isReady k = false →
    s.Owned (BitVec.ofNat w k) ∨ k = s.delivered.length ∧ s.consumer.storing = true

theorem flags_start (q : MpscQueue w T) : Flags (World.start ι q) [] where
  up_claimed _ h := absurd h List.not_mem_nil
  up_iff _ _ h := absurd h (Nat.not_lt_zero _)
  down_passed _ h := absurd h List.not_mem_nil
  down_last h := nomatch h
  published _ _ h := absurd h (Nat.not_lt_zero _)

section Steps

variable {s s' : World ι w T} {l : List (FlagWrite w)}

theorem Flags.congr (h : Flags s l) (hclaims : s'.claims = s.claims)
    (hdel : s'.delivered = s.delivered) (hready : ∀ k, s'.isReady k = s.isReady k)
    (howned : ∀ i, s'.Owned i ↔ s.Owned i) (hstoring : s'.consumer.storing = s.consumer.storing) :
    Flags s' l := by
  refine ⟨?_, fun k hlo hhi => ?_, ?_, ?_, fun k hlo hhi hk => ?_⟩
  · rw [hclaims]
    exact h.up_claimed
  · rw [howned]
    exact h.up_iff k (hdel ▸ hlo) (hclaims ▸ hhi)
  · rw [hdel, hstoring]
    exact h.down_passed
  · rw [hdel, hstoring]
    exact h.down_last
  · rw [howned, hdel, hstoring]
    exact h.published k (hdel ▸ hlo) (hclaims ▸ hhi) (hready k ▸ hk)

variable [DecidableEq ι]

theorem owned_of_update {p : ι} {x : Producer w T}
    (hprod : s'.producers = Function.update s.producers p x)
    (hx : x.owned = (s.producers p).owned) (i : BitVec w) : s'.Owned i ↔ s.Owned i := by
  unfold World.Owned
  rw [hprod]
  simp only [apply_update_eq Producer.owned hx]

theorem Flags.setProducer (h : Flags s l) {p : ι} {x : Producer w T}
    (hprod : s'.producers = Function.update s.producers p x)
    (hx : x.owned = (s.producers p).owned) (hclaims : s'.claims = s.claims)
    (hdel : s'.delivered = s.delivered) (hready : ∀ k, s'.isReady k = s.isReady k)
    (hcons : s'.consumer = s.consumer) : Flags s' l :=
  h.congr hclaims hdel hready (owned_of_update hprod hx) (congrArg _ hcons)

theorem owned_of_claim {p : ι} {x : Producer w T} {head : BitVec w} {value : T}
    (hprod : s'.producers = Function.update s.producers p x)
    (hp : (s.producers p).owned = none) (hx : x.owned = some (head, value)) (i : BitVec w) :
    s'.Owned i ↔ s.Owned i ∨ i = head := by
  unfold World.Owned
  rw [hprod]
  constructor
  · rintro ⟨q, v, hq⟩
    rcases owned_cases hq with ⟨-, hq⟩ | ⟨-, hq⟩
    · rw [hx] at hq
      cases hq
      exact Or.inr rfl
    · exact Or.inl ⟨q, v, hq⟩
  · rintro (⟨q, v, hq⟩ | rfl)
    · refine ⟨q, v, ?_⟩
      rw [Function.update_of_ne, hq]
      rintro rfl
      rw [hp] at hq
      cases hq
    · exact ⟨p, value, by rw [Function.update_self, hx]⟩

/-- The new claim has an owner. -/
theorem Flags.claim (h : Flags s l) (hc : Counters s) (hlt : s.claims.length < 2 ^ w) {p : ι}
    {x : Producer w T} {head : BitVec w} {value : T}
    (hprod : s'.producers = Function.update s.producers p x)
    (hp : (s.producers p).owned = none) (hx : x.owned = some (head, value))
    (heq : s.queue.head = head) (hclaims : s'.claims = s.claims ++ [(p, value)])
    (hdel : s'.delivered = s.delivered) (hready : ∀ k, s'.isReady k = s.isReady k)
    (hcons : s'.consumer = s.consumer) : Flags s' l := by
  have hhead : BitVec.ofNat w s.claims.length = head := hc.head.symm.trans heq
  have howned := owned_of_claim hprod hp hx
  have hlen : s'.claims.length = s.claims.length + 1 := by simp [hclaims]
  have hnew : ∀ k < s.claims.length, BitVec.ofNat w k ≠ head := by
    intro k hk he
    have := index_inj (hk.trans hlt) hlt (he.trans hhead.symm)
    omega
  refine ⟨fun i hi => ?_, fun k hlo hhi => ?_, ?_, ?_, fun k hlo hhi hk => ?_⟩
  · obtain ⟨k, hk, rfl⟩ := h.up_claimed i hi
    exact ⟨k, by omega, rfl⟩
  · rw [howned]
    rw [hlen] at hhi
    rw [hdel] at hlo
    rcases Nat.lt_succ_iff_lt_or_eq.mp hhi with hold | rfl
    · rw [h.up_iff k hlo hold]
      simp [hnew k hold]
    · -- no flag has been written for the new index
      refine ⟨fun hup => ?_, fun hno => absurd (Or.inr hhead) hno⟩
      obtain ⟨k, hk, he⟩ := h.up_claimed _ hup
      exact absurd (he.symm.trans hhead) (hnew k hk)
  · rw [hdel, hcons]
    exact h.down_passed
  · rw [hdel, hcons]
    exact h.down_last
  · rw [howned, hdel, hcons]
    rw [hlen] at hhi
    rw [hdel] at hlo
    rcases Nat.lt_succ_iff_lt_or_eq.mp hhi with hold | rfl
    · rcases h.published k hlo hold (hready k ▸ hk) with ho | hlast
      · exact Or.inl (Or.inl ho)
      · exact Or.inr hlast
    · exact Or.inl (Or.inr hhead)

omit [DecidableEq ι] in
theorem owner_unique (hk : Contents s) (hlt : s.claims.length < 2 ^ w) {p q : ι}
    {i : BitVec w} {v v' : T} (hp : (s.producers p).owned = some (i, v))
    (hq : (s.producers q).owned = some (i, v')) : p = q := by
  obtain ⟨k, rfl, -, hclaim, -⟩ := hk.owner p i v hp
  obtain ⟨m, hm, -, hclaim', -⟩ := hk.owner q _ v' hq
  obtain rfl := index_inj ((lt_of_getElem?_claims hclaim).trans hlt)
    ((lt_of_getElem?_claims hclaim').trans hlt) hm
  rw [hclaim, Option.some.injEq, Prod.mk.injEq] at hclaim'
  exact hclaim'.1

theorem owned_of_return (hk : Contents s) (hlt : s.claims.length < 2 ^ w) {p : ι}
    {x : Producer w T} {head : BitVec w} {value : T} {z : World ι w T}
    (hprod : z.producers = Function.update s.producers p x) (hx : x.owned = none)
    (hp : (s.producers p).owned = some (head, value)) (i : BitVec w) :
    z.Owned i ↔ s.Owned i ∧ i ≠ head := by
  unfold World.Owned
  rw [hprod]
  constructor
  · rintro ⟨q, v, hq⟩
    obtain ⟨hqp, hq⟩ := owned_update hx hq
    refine ⟨⟨q, v, hq⟩, ?_⟩
    rintro rfl
    exact hqp (owner_unique hk hlt hq hp)
  · rintro ⟨⟨q, v, hq⟩, hne⟩
    refine ⟨q, v, ?_⟩
    rw [Function.update_of_ne, hq]
    rintro rfl
    rw [hp, Option.some.injEq, Prod.mk.injEq] at hq
    exact hne hq.1.symm

omit [DecidableEq ι] in
theorem isReady_setReady_of_ne {k m : ℕ} {b : Bool} (hk : k < 2 ^ w)
    (hne : m % s.queue.cap ≠ k % s.queue.cap) :
    World.isReady { s with queue := s.queue.setReady (s.queue.element (BitVec.ofNat w k)) b } m =
      s.isReady m := by
  rw [World.isReady, element_ofNat hk]
  exact MpscQueue.setReady_isReady_of_ne s.queue b hne

/-- The owner raises the flag and owns nothing any more. -/
theorem Flags.raise (h : Flags s l) (hk : Contents s) (hlt : s.claims.length < 2 ^ w) {p : ι}
    {value : T} {head : BitVec w} (hp : s.producers p = .storeReady value head) :
    Flags { s.setProducer p (.returned value true) with
      queue := s.queue.setReady (s.queue.element head) true } (l ++ [.up head]) := by
  have hpo : (s.producers p).owned = some (head, value) := by
    rw [hp]
    rfl
  have howned := owned_of_return (z := { s.setProducer p (.returned value true) with
    queue := s.queue.setReady (s.queue.element head) true }) hk hlt rfl rfl hpo
  obtain ⟨k, rfl, hdel, hclaim, hfree⟩ := hk.owner p head value hpo
  have hklt := lt_of_getElem?_claims hclaim
  refine ⟨fun i hi => ?_, fun m hlo hhi => ?_, fun i hi => ?_, fun hst => ?_,
    fun m hlo hhi hm => ?_⟩
  · rcases List.mem_append.mp hi with hi | hi
    · exact h.up_claimed i hi
    · obtain rfl := FlagWrite.up.inj (List.mem_singleton.mp hi)
      exact ⟨k, hklt, rfl⟩
  · rw [howned, List.mem_append, h.up_iff m hlo hhi, List.mem_singleton, FlagWrite.up.injEq]
    tauto
  · rcases List.mem_append.mp hi with hi | hi
    · exact h.down_passed i hi
    · cases List.mem_singleton.mp hi
  · exact List.mem_append_left _ (h.down_last hst)
  · rw [howned]
    by_cases hmk : m % s.queue.cap = k % s.queue.cap
    · -- the flag just raised
      rw [World.isReady] at hm
      change ((s.queue.setReady _ true).items (m % s.queue.cap)).isReady = false at hm
      rw [element_ofNat (hklt.trans hlt), hmk, MpscQueue.setReady_isReady] at hm
      cases hm
    · have hold : s.isReady m = false :=
        (isReady_setReady_of_ne (hklt.trans hlt) hmk).symm.trans hm
      rcases h.published m hlo hhi hold with ho | hlast
      · refine Or.inl ⟨ho, fun he => hmk ?_⟩
        rw [index_inj (LT.lt.trans hhi hlt) (hklt.trans hlt) he]
      · exact Or.inr hlast

omit [DecidableEq ι] in
/-- The consumer takes down the flag at the tail. -/
theorem Flags.lower (h : Flags s l) (hc : Counters s) (hlt : s.claims.length < 2 ^ w)
    {tail : BitVec w} {value : T} (hp : s.consumer = .clearReady tail value) :
    Flags { s with
      queue := s.queue.setReady (s.queue.element tail) false
      consumer := .storeTail tail value } (l ++ [.down tail]) := by
  have hcount := hc.consumer
  rw [hp] at hcount
  obtain ⟨rfl, hD⟩ := hcount
  have hroom := hc.room
  refine ⟨fun i hi => ?_, fun m hlo hhi => ?_, fun i hi => ?_, fun _ => ?_,
    fun m hlo hhi hm => ?_⟩
  · rcases List.mem_append.mp hi with hi | hi
    · exact h.up_claimed i hi
    · cases List.mem_singleton.mp hi
  · rw [List.mem_append, List.mem_singleton]
    refine ⟨fun hup => (h.up_iff m hlo hhi).mp (hup.resolve_right (by simp)),
      fun hno => Or.inl ((h.up_iff m hlo hhi).mpr hno)⟩
  · rcases List.mem_append.mp hi with hi | hi
    · obtain ⟨k, rfl, hk⟩ := h.down_passed i hi
      rw [hp] at hk
      exact ⟨k, rfl, Or.inl (hk.resolve_right fun hst => Bool.false_ne_true hst.2)⟩
    · obtain rfl := FlagWrite.down.inj (List.mem_singleton.mp hi)
      exact ⟨s.delivered.length, rfl, Or.inr ⟨rfl, rfl⟩⟩
  · exact List.mem_append_right _ (List.mem_singleton.mpr rfl)
  · by_cases hmD : m % s.queue.cap = s.delivered.length % s.queue.cap
    · change s.delivered.length ≤ m at hlo
      change m < s.claims.length at hhi
      have hm : m = s.delivered.length := hc.slot_inj hlo hhi le_rfl (by omega) hmD
      exact Or.inr ⟨hm, rfl⟩
    · have hold : s.isReady m = false :=
        (isReady_setReady_of_ne (hD.trans hlt) hmD).symm.trans hm
      refine Or.inl ((h.published m hlo hhi hold).resolve_right fun hst => ?_)
      rw [hp] at hst
      cases hst.2

omit [DecidableEq ι] in
theorem Flags.advance (h : Flags s l) {tail : BitVec w} {value : T} :
    Flags { s with
      queue := { s.queue with tail := tail + 1 }
      delivered := s.delivered ++ [value]
      consumer := .returned (some value) } l := by
  have hlen : (s.delivered ++ [value]).length = s.delivered.length + 1 := by simp
  refine ⟨h.up_claimed, fun m hlo hhi => ?_, fun i hi => ?_, (fun hst => nomatch hst),
    fun m hlo hhi hm => ?_⟩
  · rw [hlen] at hlo
    exact h.up_iff m (by omega) hhi
  · obtain ⟨k, rfl, hk⟩ := h.down_passed i hi
    rw [hlen]
    exact ⟨k, rfl, by omega⟩
  · rw [hlen] at hlo
    rcases h.published m (by omega) hhi hm with ho | hlast
    · exact Or.inl ho
    · omega

theorem flags_producerStep {p : ι} {spurious : Bool} (h : Flags s l) (hk : Contents s)
    (hc : Counters s) (hlt : s'.claims.length < 2 ^ w)
    (hs : producerStep s p spurious = some s') :
    Flags s' (l ++ flagWrites s (.producer p spurious) s') := by
  cases producerMove_of_step hs with
  | loadHead value hp | loadTail value head hp | full value head tail hp hfull
  | notFull value head tail hp hfull | retry value head tail hp hfail =>
      simp only [flagWrites, hp, List.append_nil]
      exact h.setProducer (p := p) rfl (by rw [hp]; rfl) rfl rfl (fun _ => rfl) rfl
  | claim value head tail hp heq hspurious =>
      simp only [flagWrites, hp, List.append_nil]
      have hlt' : s.claims.length < 2 ^ w :=
        (claims_isPrefix (a := .producer p spurious) hs).length_le.trans_lt hlt
      exact h.claim hc hlt' (p := p) (x := .write value head) rfl (by rw [hp]; rfl) rfl
        heq rfl rfl (fun _ => rfl) rfl
  | write value head hp =>
      simp only [flagWrites, hp, List.append_nil]
      refine h.setProducer (p := p) rfl (by rw [hp]; rfl) rfl rfl (fun _ => ?_) rfl
      exact MpscQueue.setData_isReady ..
  | storeReady value head hp =>
      simp only [flagWrites, hp]
      exact h.raise hk hlt hp

omit [DecidableEq ι] in
theorem flags_consumerStep {left : T} (h : Flags s l) (hc : Counters s)
    (hlt : s.claims.length < 2 ^ w) (hs : consumerStep s left = some s') :
    Flags s' (l ++ flagWrites s (.consumer left) s') := by
  cases consumerMove_of_step hs with
  | loadTail hp | loadHead tail hp | empty tail head hp hempty | notEmpty tail head hp hempty
  | ready tail hp hready | notReady tail hp hready =>
      simp only [flagWrites, hp, List.append_nil]
      exact h.congr rfl rfl (fun _ => rfl) (fun _ => Iff.rfl) (by rw [hp]; rfl)
  | moveOut tail hp =>
      simp only [flagWrites, hp, List.append_nil]
      refine h.congr rfl rfl (fun _ => ?_) (fun _ => Iff.rfl) (by rw [hp]; rfl)
      exact MpscQueue.setData_isReady ..
  | clearReady tail value hp =>
      simp only [flagWrites, hp]
      exact h.lower hc hlt hp
  | storeTail tail value hp =>
      simp only [flagWrites, hp, List.append_nil]
      exact h.advance

theorem flags_step (s : World ι w T) (l : List (FlagWrite w)) (a : Action ι T) (s' : World ι w T)
    (h : s.claims.length < 2 ^ w → Counters s ∧ Contents s ∧ Flags s l)
    (hs : step s a = some s') (hlt' : s'.claims.length < 2 ^ w) :
    Counters s' ∧ Contents s' ∧ Flags s' (l ++ flagWrites s a s') := by
  have hlt : s.claims.length < 2 ^ w := (claims_isPrefix hs).length_le.trans_lt hlt'
  obtain ⟨hc, hk, hf⟩ := h hlt
  obtain ⟨hc', hk'⟩ := contents_step s a s' (fun _ => ⟨hc, hk⟩) hs hlt'
  refine ⟨hc', hk', ?_⟩
  cases a with
  | push p value =>
      obtain ⟨hp | ⟨v, ret, hp⟩, rfl⟩ := enterPush_eq_some hs <;>
        rw [flagWrites, List.append_nil] <;>
        exact hf.setProducer (p := p) rfl (by rw [hp]; rfl) rfl rfl (fun _ => rfl) rfl
  | producer p spurious => exact flags_producerStep hf hk hc hlt' hs
  | pop =>
      obtain ⟨hp | ⟨ret, hp⟩, rfl⟩ := enterPop_eq_some hs <;>
        rw [flagWrites, List.append_nil] <;>
        exact hf.congr rfl rfl (fun _ => rfl) (fun _ => Iff.rfl) (by rw [hp]; rfl)
  | consumer left => exact flags_consumerStep hf hc hlt hs

theorem flags_exec {capacity : BitVec w} {data : ℕ → T} {as : List (Action ι T)}
    {s : World ι w T} (hs : exec step (World.start ι (.create capacity data)) as = some s)
    (hlt : s.claims.length < 2 ^ w) :
    Counters s ∧ Contents s ∧
      Flags s (record step flagWrites (World.start ι (.create capacity data)) as) :=
  record_invariant (I := fun s l => s.claims.length < 2 ^ w → Counters s ∧ Contents s ∧ Flags s l)
    flags_step hs
    (fun _ => ⟨counters_start capacity data, contents_start capacity data, flags_start _⟩) hlt

end Steps

/-! ### Cells -/

section Cells

variable {s : World ι w T} {l : List (FlagWrite w)}

theorem toNat_head (hc : Counters s) (hlt : s.claims.length < 2 ^ w) :
    s.queue.head.toNat = s.claims.length := by
  rw [hc.head, BitVec.toNat_ofNat, Nat.mod_eq_of_lt hlt]

theorem toNat_tail (hc : Counters s) (hlt : s.claims.length < 2 ^ w) :
    s.queue.tail.toNat = s.delivered.length := by
  rw [hc.tail, BitVec.toNat_ofNat, Nat.mod_eq_of_lt (hc.le.trans_lt hlt)]

theorem claimed_iff (hc : Counters s) (hlt : s.claims.length < 2 ^ w) {i : BitVec w} :
    s.Claimed i ↔ ∃ k, i = BitVec.ofNat w k ∧ s.delivered.length ≤ k ∧ k < s.claims.length := by
  rw [World.Claimed, BitVec.le_def, BitVec.lt_def, toNat_head hc hlt, toNat_tail hc hlt]
  constructor
  · intro h
    exact ⟨i.toNat, by simp, h⟩
  · rintro ⟨k, rfl, h⟩
    rwa [BitVec.toNat_ofNat, Nat.mod_eq_of_lt (h.2.trans hlt)]

theorem claimed_inj (hc : Counters s) (hlt : s.claims.length < 2 ^ w) {i j : BitVec w}
    (hi : s.Claimed i) (hj : s.Claimed j) (hij : s.queue.element i = s.queue.element j) :
    i = j := by
  obtain ⟨k, rfl, hk, hk'⟩ := (claimed_iff hc hlt).mp hi
  obtain ⟨m, rfl, hm, hm'⟩ := (claimed_iff hc hlt).mp hj
  have hroom := hc.room
  rw [element_ofNat (hk'.trans hlt), element_ofNat (hm'.trans hlt)] at hij
  rw [hc.slot_inj hk hk' hm (by omega) hij]

theorem claimed_of_owned (hk : Contents s) (hc : Counters s) (hlt : s.claims.length < 2 ^ w)
    {p : ι} {i : BitVec w} {v : T} (hp : (s.producers p).owned = some (i, v)) :
    s.Claimed i ∧ (s.queue.items (s.queue.element i)).isReady = false := by
  obtain ⟨k, rfl, hdel, hclaim, hfree⟩ := hk.owner p i v hp
  have hklt := lt_of_getElem?_claims hclaim
  refine ⟨(claimed_iff hc hlt).mpr ⟨k, rfl, hdel, hklt⟩, ?_⟩
  rw [element_ofNat (hklt.trans hlt)]
  exact hfree

/-- The consumer is in the cell at the tail, whose flag is up. -/
theorem isReady_of_inCell (hk : Contents s) (hc : Counters s) (hlt : s.claims.length < 2 ^ w)
    {t : BitVec w} (ht : s.consumer.inCell = some t) :
    (s.queue.items (s.queue.element t)).isReady = true := by
  have hcell := hk.consumer
  have hcount := hc.consumer
  cases hcons : s.consumer with
  | moveOut tail =>
      rw [hcons] at ht hcell hcount
      obtain rfl := Option.some.inj ht
      obtain ⟨rfl, hD⟩ := hcount
      rw [element_ofNat (hD.trans hlt)]
      exact hcell
  | clearReady tail value =>
      rw [hcons] at ht hcell hcount
      obtain rfl := Option.some.inj ht
      obtain ⟨rfl, hD⟩ := hcount
      rw [element_ofNat (hD.trans hlt)]
      exact hcell.1
  | _ => rw [hcons] at ht; cases ht

theorem isReady_of_storing (hk : Contents s) (hst : s.consumer.storing = true) :
    s.isReady s.delivered.length = false := by
  have hcell := hk.consumer
  cases hcons : s.consumer with
  | storeTail tail value =>
      rw [hcons] at hcell
      exact hcell.1
  | _ => rw [hcons] at hst; cases hst

/-- The flag of a cell is up exactly if it has been raised for a claimed index on this
cell and not taken down since. -/
theorem isReady_iff (hk : Contents s) (hc : Counters s) (hf : Flags s l)
    (hlt : s.claims.length < 2 ^ w) {c : ℕ} (hcap : c < s.queue.cap) :
    (s.queue.items c).isReady = true ↔
      ∃ i, s.Claimed i ∧ s.queue.element i = c ∧ .up i ∈ l ∧ .down i ∉ l := by
  constructor
  · intro hready
    obtain ⟨k, hlo, hhi, rfl⟩ := exists_mod_eq s.delivered.length hcap
    have hclaimed : k < s.claims.length := by
      by_contra hge
      exact Bool.false_ne_true ((hk.unready k (by omega) hhi).symm.trans hready)
    have hkw := hclaimed.trans hlt
    refine ⟨BitVec.ofNat w k, (claimed_iff hc hlt).mpr ⟨k, rfl, hlo, hclaimed⟩,
      element_ofNat hkw, (hf.up_iff k hlo hclaimed).mpr ?_, fun hdown => ?_⟩
    · rintro ⟨p, v, hp⟩
      have := (claimed_of_owned hk hc hlt hp).2
      rw [element_ofNat hkw] at this
      exact Bool.false_ne_true (this.symm.trans hready)
    · obtain ⟨m, hm, hpassed⟩ := hf.down_passed _ hdown
      obtain rfl := index_inj hkw (by omega) hm
      obtain ⟨rfl, hst⟩ := hpassed.resolve_left (by omega)
      exact Bool.false_ne_true ((isReady_of_storing hk hst).symm.trans hready)
  · rintro ⟨i, hi, rfl, hup, hdown⟩
    obtain ⟨k, rfl, hlo, hhi⟩ := (claimed_iff hc hlt).mp hi
    rw [element_ofNat (hhi.trans hlt)]
    by_contra hready
    rw [Bool.not_eq_true] at hready
    rcases hf.published k hlo hhi hready with ho | ⟨rfl, hst⟩
    · exact (hf.up_iff k hlo hhi).mp hup ho
    · exact hdown (hf.down_last hst)

end Cells

variable [DecidableEq ι]

/-- **Cell ownership.** In every state of every run with fewer than `2 ^ w` claims:
the tail is at most the head, which is at most `capacity` past it;
claimed and undelivered indices have different cells;
a ready flag is up exactly if its cell is that of such an index, whose producer has
raised the flag and the consumer has not taken it down;
producers between their claim and their ready store are on different cells;
and the consumer does not read or clear a cell that one of them is on. -/
theorem mpsc_cell_ownership {capacity : BitVec w} {data : ℕ → T} {as : List (Action ι T)}
    {s : World ι w T} (hs : exec step (World.start ι (.create capacity data)) as = some s)
    (hlt : s.claims.length < 2 ^ w) :
    (s.queue.tail ≤ s.queue.head ∧
        s.queue.head.toNat ≤ s.queue.tail.toNat + s.queue.capacity.toNat) ∧
      (∀ i j, s.Claimed i → s.Claimed j → s.queue.element i = s.queue.element j → i = j) ∧
      (∀ c < s.queue.capacity.toNat, (s.queue.items c).isReady = true ↔
        ∃ i, s.Claimed i ∧ s.queue.element i = c ∧
          .up i ∈ record step flagWrites (World.start ι (.create capacity data)) as ∧
          .down i ∉ record step flagWrites (World.start ι (.create capacity data)) as) ∧
      (∀ p p' i j v v', (s.producers p).owned = some (i, v) →
        (s.producers p').owned = some (j, v') → s.queue.element i = s.queue.element j → p = p') ∧
      ∀ p i v t, (s.producers p).owned = some (i, v) → s.consumer.inCell = some t →
        s.queue.element i ≠ s.queue.element t := by
  obtain ⟨hc, hk, hf⟩ := flags_exec hs hlt
  have hle := hc.le
  have hroom := hc.room
  refine ⟨⟨?_, ?_⟩, fun i j => claimed_inj hc hlt, fun c hcap => isReady_iff hk hc hf hlt hcap,
    fun p p' i j v v' hp hp' hij => ?_, fun p i v t hp ht hit => ?_⟩
  · rw [BitVec.le_def, toNat_head hc hlt, toNat_tail hc hlt]
    exact hle
  · rw [toNat_head hc hlt, toNat_tail hc hlt]
    exact hroom
  · obtain rfl := claimed_inj hc hlt (claimed_of_owned hk hc hlt hp).1
      (claimed_of_owned hk hc hlt hp').1 hij
    exact owner_unique hk hlt hp hp'
  · have hdown := (claimed_of_owned hk hc hlt hp).2
    rw [hit, isReady_of_inCell hk hc hlt ht] at hdown
    cases hdown

/-- Two producers in the middle of their writes, and the consumer about to clear the flag
of a third one. -/
def threeInFlight : List (Action (Fin 3) ℕ) :=
  .push 0 1 :: List.replicate 6 (.producer 0 false) ++
    .push 1 2 :: List.replicate 4 (.producer 1 false) ++
    .push 2 3 :: List.replicate 5 (.producer 2 false) ++
    .pop :: List.replicate 5 (.consumer 0)

theorem mpsc_cell_ownership_threeInFlight :
    ∃ s, exec step (World.start (Fin 3) (.create (3 : BitVec 64) fun _ => 0)) threeInFlight =
        some s ∧
      s.consumer.inCell = some 0 ∧ (s.producers 1).owned = some (1, 2) ∧
      s.queue.element 1 ≠ s.queue.element 0 := by
  have hs : exec step (World.start (Fin 3) (.create (3 : BitVec 64) fun _ => 0)) threeInFlight =
    some _ := rfl
  exact ⟨_, hs, rfl, rfl,
    (mpsc_cell_ownership hs (by decide)).2.2.2.2 1 1 2 0 rfl rfl⟩

end SystemsPrep.Mpsc
