import SystemsPrep.Mpsc.Calls
import SystemsPrep.Mpsc.Ownership

/-!
A multi-producer queue used by one call at a time.

The cells in use follow each other modulo the capacity, power of two or not, until
the index type wraps. Up to there a sequence of calls has the results of a bounded
queue. The functions that describe single calls are what a call does that runs alone
among the steps of all producers and the consumer; so a pop that runs alone after
any concurrent run is exact once every claim has been published.
-/

namespace SystemsPrep.Mpsc

open Base

variable {ι : Type*} {w : ℕ} {T : Type*}

/-! ### Calls before the indices wrap -/

def NoPushThrows (q : MpscQueue w T) : SoloCall T → Prop
  | .push _ thrown => q.full q.head q.tail = true ∨ thrown = none
  | .pop _ _ => True

instance (q : MpscQueue w T) : (c : SoloCall T) → Decidable (NoPushThrows q c)
  | .push _ thrown => inferInstanceAs (Decidable (q.full q.head q.tail = true ∨ thrown = none))
  | .pop _ _ => .isTrue trivial

theorem Holds.isReady_next {q : MpscQueue w T} {lo : ℕ} {xs : List T} (h : Holds q lo xs)
    (hroom : xs.length < q.cap) (hcell : ∀ k ≤ lo + xs.length, q.cell k = k % q.cap) :
    (q.items (q.element q.head)).isReady = false := by
  rw [h.head]
  refine h.free _ fun k hk => ?_
  change q.cell (lo + xs.length) ≠ q.cell (lo + k)
  rw [hcell _ le_rfl, hcell _ (by omega)]
  exact (mod_ne_mod_of_near (by omega) (by omega)).symm

theorem cell_eq_mod {q : MpscQueue w T} {n : ℕ} (h : n < 2 ^ w ∨ q.cap ∣ 2 ^ w) :
    ∀ k ≤ n, q.cell k = k % q.cap := by
  intro k hk
  rw [MpscQueue.cell, MpscQueue.element, BitVec.toNat_umod, BitVec.toNat_ofNat]
  change k % 2 ^ w % q.cap = k % q.cap
  rcases h with hlt | hdvd
  · rw [Nat.mod_eq_of_lt (show k < 2 ^ w by omega)]
  · rw [Nat.mod_mod_of_dvd _ hdvd]

theorem Holds.sound {q : MpscQueue w T} {lo : ℕ} {xs : List T} (h : Holds q lo xs)
    {c : SoloCall T} (hc : NoPushThrows q c) (hlt : lo + xs.length < 2 ^ w ∨ q.cap ∣ 2 ^ w) :
    Sound q c := by
  cases c with
  | push v thrown =>
      have hroom := h.room
      by_cases hfull : q.full q.head q.tail = true
      · exact Or.inl hfull
      · have := mt h.full_iff.mpr hfull
        exact Or.inr ⟨hc.resolve_left hfull, h.isReady_next (by omega) (cell_eq_mod hlt)⟩
  | pop left throws => trivial

theorem length_accepted_append (es es' : List (FifoEvent T)) :
    ((es ++ es').flatMap FifoEvent.accepted).length =
      (es.flatMap FifoEvent.accepted).length + (es'.flatMap FifoEvent.accepted).length := by
  rw [List.flatMap_append, List.length_append]

theorem exec_callStep (q : MpscQueue w T) (cs : List (SoloCall T)) :
    ∃ q', exec callStep q cs = some q' := by
  induction cs generalizing q with
  | nil => exact ⟨q, rfl⟩
  | cons c cs ih =>
      obtain ⟨q', hq'⟩ := ih (q.call c).1
      exact ⟨q', exec_cons_eq_some.mpr ⟨_, rfl, hq'⟩⟩

/-- As long as no push throws, every call is sound before the indices wrap, and also
after that if the capacity divides `2 ^ w`. -/
theorem sound_of_noPushThrows {capacity : BitVec w} {data : ℕ → T} {cs : List (SoloCall T)}
    (hc : Steps callStep (fun q c _ => NoPushThrows q c) (.create capacity data) cs)
    (hlt : ((results (.create capacity data) cs).flatMap FifoEvent.accepted).length < 2 ^ w ∨
      capacity.toNat ∣ 2 ^ w) :
    Steps callStep (fun q c _ => Sound q c) (.create capacity data) cs := by
  induction cs using List.reverseRecOn with
  | nil => exact steps_nil
  | append_singleton cs c ih =>
      obtain ⟨q, hq⟩ := exec_callStep (.create capacity data) cs
      have hres : results (.create capacity data) (cs ++ [c]) =
          results (.create capacity data) cs ++ [(q.call c).2] := record_concat _ hq rfl
      rw [hres, length_accepted_append] at hlt
      have hlt' : ((results (.create capacity data) cs).flatMap FifoEvent.accepted).length <
          2 ^ w ∨ capacity.toNat ∣ 2 ^ w := hlt.imp (fun h => by omega) id
      have hsound := ih hc.of_append hlt'
      refine hsound.concat fun t t' ht hstep => ?_
      obtain ⟨rfl, lo, xs, -, hholds, hcount⟩ := refines_exec hsound ht
      exact hholds.sound (hc.last ht hstep) (hcount ▸ hlt')

/-! ### A pop that runs alone -/

section Pop

variable [DecidableEq ι]

/-- Where the consumer is in a pop that started on the queue `q` and has met nobody;
`now` is the queue as the pop has changed it. -/
def PopAlone (q now : MpscQueue w T) : Consumer w T → Prop
  | .idle => False
  | .loadTail => now = q
  | .loadHead tail => now = q ∧ tail = q.tail
  | .testEmpty tail head => now = q ∧ tail = q.tail ∧ head = q.head
  | .loadReady tail => now = q ∧ tail = q.tail ∧ q.empty q.head q.tail = false
  | .moveOut tail => now = q ∧ tail = q.tail ∧ q.empty q.head q.tail = false ∧
      (q.items (q.element q.tail)).isReady = true
  | .clearReady tail value => tail = q.tail ∧ q.empty q.head q.tail = false ∧
      (q.items (q.element q.tail)).isReady = true ∧
      value = (q.items (q.element q.tail)).data ∧
      ∃ left, now = q.setData (q.element q.tail) left
  | .storeTail tail value => tail = q.tail ∧ q.empty q.head q.tail = false ∧
      (q.items (q.element q.tail)).isReady = true ∧
      value = (q.items (q.element q.tail)).data ∧
      ∃ left, now = (q.setData (q.element q.tail) left).setReady (q.element q.tail) false
  | .returned ret => ∃ left, q.pop left false = (now, .popped ret)

theorem popAlone_step {q : MpscQueue w T} {s s' : World ι w T} {left : T}
    (h : PopAlone q s.queue s.consumer) (hs : step s (.consumer left) = some s') :
    PopAlone q s'.queue s'.consumer := by
  cases consumerMove_of_step hs with
  | loadTail hp =>
      rw [hp] at h
      exact ⟨h, congrArg MpscQueue.tail h⟩
  | loadHead tail hp =>
      rw [hp] at h
      exact ⟨h.1, h.2, congrArg MpscQueue.head h.1⟩
  | empty tail head hp hempty =>
      rw [hp] at h
      obtain ⟨hq, rfl, rfl⟩ := h
      rw [hq] at hempty
      exact ⟨left, by simp [MpscQueue.pop, hempty, hq]⟩
  | notEmpty tail head hp hempty =>
      rw [hp] at h
      obtain ⟨hq, rfl, rfl⟩ := h
      rw [hq] at hempty
      exact ⟨hq, rfl, hempty⟩
  | ready tail hp hready =>
      rw [hp] at h
      obtain ⟨hq, rfl, hempty⟩ := h
      rw [hq] at hready
      exact ⟨hq, rfl, hempty, hready⟩
  | notReady tail hp hready =>
      rw [hp] at h
      obtain ⟨hq, rfl, hempty⟩ := h
      rw [hq] at hready
      exact ⟨left, by simp [MpscQueue.pop, hempty, hready, hq]⟩
  | moveOut tail hp =>
      rw [hp] at h
      obtain ⟨hq, rfl, hempty, hready⟩ := h
      dsimp only
      rw [hq]
      exact ⟨rfl, hempty, hready, rfl, left, rfl⟩
  | clearReady tail value hp =>
      rw [hp] at h
      obtain ⟨rfl, hempty, hready, rfl, l, hq⟩ := h
      dsimp only
      rw [hq]
      exact ⟨rfl, hempty, hready, rfl, l, rfl⟩
  | storeTail tail value hp =>
      rw [hp] at h
      obtain ⟨rfl, hempty, hready, rfl, l, hq⟩ := h
      dsimp only
      rw [hq]
      exact ⟨l, by simp [MpscQueue.pop, hempty, hready]⟩

theorem exec_pop_alone {s s' : World ι w T} {lefts : List T} {ret : Option T}
    (h : exec step s (.pop :: lefts.map .consumer) = some s')
    (hret : s'.consumer = .returned ret) :
    ∃ left, s.queue.pop left false = (s'.queue, .popped ret) := by
  obtain ⟨t, ht, h⟩ := exec_cons_eq_some.mp h
  obtain ⟨-, rfl⟩ := enterPop_eq_some ht
  have halone : PopAlone s.queue s'.queue s'.consumer :=
    exec_invariant_on (A := fun a => ∃ left, a = .consumer left)
      (I := fun t => PopAlone s.queue t.queue t.consumer)
      (fun t a t' ha hi hstep => by
        obtain ⟨left, rfl⟩ := ha
        exact popAlone_step hi hstep)
      (fun a ha => by
        obtain ⟨left, -, rfl⟩ := List.mem_map.mp ha
        exact ⟨left, rfl⟩) h (show PopAlone s.queue s.queue .loadTail from rfl)
  rwa [hret] at halone

/-- How many steps the consumer's call has left, at most. -/
def Consumer.remaining : Consumer w T → ℕ
  | .idle | .returned _ => 0
  | .loadTail => 7
  | .loadHead _ => 6
  | .testEmpty _ _ => 5
  | .loadReady _ => 4
  | .moveOut _ => 3
  | .clearReady _ _ => 2
  | .storeTail _ _ => 1

theorem remaining_lt (s : World ι w T) (left : T) (hp : s.consumer.remaining ≠ 0) :
    ∃ s', step s (.consumer left) = some s' ∧ s'.consumer ≠ .idle ∧
      s'.consumer.remaining < s.consumer.remaining := by
  simp only [step, consumerStep]
  cases hcons : s.consumer with
  | idle => exact absurd (by rw [hcons]; rfl) hp
  | returned ret => exact absurd (by rw [hcons]; rfl) hp
  | testEmpty tail head =>
      refine ⟨_, rfl, ?_⟩
      dsimp only
      split <;> simp [Consumer.remaining]
  | loadReady tail =>
      refine ⟨_, rfl, ?_⟩
      dsimp only
      split <;> simp [Consumer.remaining]
  | _ => exact ⟨_, rfl, by simp, by simp [Consumer.remaining]⟩

theorem exists_returned (left : T) (n : ℕ) {s : World ι w T} (hidle : s.consumer ≠ .idle)
    (hn : s.consumer.remaining ≤ n) :
    ∃ k s' ret, exec step s ((List.replicate k left).map .consumer) = some s' ∧
      s'.consumer = .returned ret := by
  induction n generalizing s with
  | zero =>
      cases hp : s.consumer with
      | returned ret => exact ⟨0, s, ret, rfl, hp⟩
      | idle => exact absurd hp hidle
      | _ => simp [hp, Consumer.remaining] at hn
  | succ n ih =>
      by_cases hzero : s.consumer.remaining = 0
      · exact ih hidle (hzero ▸ Nat.zero_le n)
      · obtain ⟨t, ht, hidle', hlt⟩ := remaining_lt s left hzero
        obtain ⟨k, s', ret, hs', hret⟩ := ih hidle' (by omega)
        exact ⟨k + 1, s', ret, exec_cons_eq_some.mpr ⟨t, ht, hs'⟩, hret⟩

omit [DecidableEq ι] in
/-- After a run in which every claim has been published, the pop function is exact. -/
theorem pop_of_published {s : World ι w T} {l : List (FlagWrite w)} (hc : Counters s)
    (hk : Contents s) (hf : Flags s l) (hlt : s.claims.length < 2 ^ w)
    (howned : ∀ i, ¬ s.Owned i) (hclear : s.consumer.clearing = false)
    (hstoring : s.consumer.storing = false) (left : T) :
    (s.queue.pop left false).2 = .popped (s.claims.map Prod.snd)[s.delivered.length]? := by
  have hle := hc.le
  rcases Nat.eq_or_lt_of_le hle with heq | hD
  · have hempty : s.queue.empty s.queue.head s.queue.tail = true := by
      rw [MpscQueue.empty, decide_eq_true_eq, hc.head, hc.tail, heq]
    rw [heq, List.getElem?_eq_none (by simp)]
    simp [MpscQueue.pop, hempty]
  · have hempty : s.queue.empty s.queue.head s.queue.tail = false := by
      rw [MpscQueue.empty, decide_eq_false_iff_not, hc.head, hc.tail]
      exact fun he => hD.ne (index_inj hlt (hD.trans hlt) he).symm
    have hcell : s.queue.element s.queue.tail = s.delivered.length % s.queue.cap := by
      rw [hc.tail, element_ofNat (hD.trans hlt)]
    have hready : s.isReady s.delivered.length = true := by
      by_contra hdown
      rw [Bool.not_eq_true] at hdown
      rcases hf.published _ le_rfl hD hdown with ho | ⟨-, hst⟩
      · exact howned _ ho
      · rw [hstoring] at hst
        cases hst
    have hclaim : s.claims[s.delivered.length]? = some s.claims[s.delivered.length] :=
      List.getElem?_eq_getElem hD
    have hdata := hk.ready _ _ hclaim le_rfl hready fun _ => hclear
    rw [List.getElem?_map, hclaim, Option.map_some, ← hdata]
    rw [World.isReady] at hready
    simp [MpscQueue.pop, hempty, hcell, hready, World.data]

end Pop

/-! ### A push that runs alone -/

section Push

variable [DecidableEq ι]

/-- Where a producer is in a push of `value` that started on the queue `q` and has met
nobody; `now` is the queue as the push has changed it. -/
def PushAlone (q now : MpscQueue w T) (value : T) : Producer w T → Prop
  | .idle => False
  | .loadHead v => v = value ∧ now = q
  | .loadTail v head => v = value ∧ now = q ∧ head = q.head
  | .testFull v head tail => v = value ∧ now = q ∧ head = q.head ∧ tail = q.tail
  | .compareExchange v head _ => v = value ∧ now = q ∧ head = q.head ∧
      q.full q.head q.tail = false
  | .write v head => v = value ∧ now = { q with head := q.head + 1 } ∧ head = q.head ∧
      q.full q.head q.tail = false
  | .storeReady v head => v = value ∧ head = q.head ∧ q.full q.head q.tail = false ∧
      now = ({ q with head := q.head + 1 }).setData (q.element q.head) value
  | .returned _ ret => q.push value none = (now, .pushed value ret)

theorem pushAlone_step {q : MpscQueue w T} {value : T} {s s' : World ι w T} {p : ι}
    {spurious : Bool} (h : PushAlone q s.queue value (s.producers p))
    (hs : step s (.producer p spurious) = some s') :
    PushAlone q s'.queue value (s'.producers p) := by
  have hself : ∀ x : Producer w T, Function.update s.producers p x p = x :=
    fun x => Function.update_self ..
  cases producerMove_of_step hs with
  | loadHead v hp =>
      rw [hp] at h
      obtain ⟨rfl, hq⟩ := h
      simp only [World.reloadHead, hself]
      exact ⟨rfl, hq, congrArg MpscQueue.head hq⟩
  | loadTail v head hp =>
      rw [hp] at h
      obtain ⟨rfl, hq, rfl⟩ := h
      simp only [World.setProducer, hself]
      exact ⟨rfl, hq, rfl, congrArg MpscQueue.tail hq⟩
  | full v head tail hp hfull =>
      rw [hp] at h
      obtain ⟨rfl, hq, rfl, rfl⟩ := h
      rw [hq] at hfull
      simp only [World.setProducer, hself, PushAlone]
      simp [MpscQueue.push, hfull, hq]
  | notFull v head tail hp hfull =>
      rw [hp] at h
      obtain ⟨rfl, hq, rfl, rfl⟩ := h
      rw [hq] at hfull
      simp only [World.setProducer, hself]
      exact ⟨rfl, hq, rfl, hfull⟩
  | claim v head tail hp heq hspurious =>
      rw [hp] at h
      obtain ⟨rfl, hq, rfl, hfull⟩ := h
      simp only [World.setProducer, hself]
      rw [hq]
      exact ⟨rfl, rfl, rfl, hfull⟩
  | retry v head tail hp hfail =>
      -- a failure leaves the same head in hand
      rw [hp] at h
      obtain ⟨rfl, hq, rfl, hfull⟩ := h
      simp only [World.reloadHead, hself]
      exact ⟨rfl, hq, congrArg MpscQueue.head hq⟩
  | write v head hp =>
      rw [hp] at h
      obtain ⟨rfl, hq, rfl, hfull⟩ := h
      simp only [World.setProducer, hself]
      rw [hq]
      exact ⟨rfl, rfl, hfull, rfl⟩
  | storeReady v head hp =>
      rw [hp] at h
      obtain ⟨rfl, rfl, hfull, hq⟩ := h
      simp only [World.setProducer, hself]
      rw [hq, PushAlone]
      simp only [MpscQueue.push, hfull]
      rfl

/-- A push that runs alone is the function of the queue that describes it, however often
its compare-exchange fails spuriously. -/
theorem exec_push_alone {s s' : World ι w T} {p : ι} {value v : T} {failures : List Bool}
    {ret : Bool}
    (h : exec step s (.push p value :: failures.map (.producer p)) = some s')
    (hret : s'.producers p = .returned v ret) :
    s.queue.push value none = (s'.queue, .pushed value ret) := by
  obtain ⟨t, ht, h⟩ := exec_cons_eq_some.mp h
  obtain ⟨-, rfl⟩ := enterPush_eq_some ht
  have hstart : PushAlone s.queue s.queue value
      ((s.setProducer p (.loadHead value)).producers p) := by
    simp only [World.setProducer, Function.update_self]
    exact ⟨rfl, rfl⟩
  have halone : PushAlone s.queue s'.queue value (s'.producers p) :=
    exec_invariant_on (A := fun a => ∃ b, a = .producer p b)
      (I := fun t => PushAlone s.queue t.queue value (t.producers p))
      (fun u a u' ha hi hstep => by
        obtain ⟨b, rfl⟩ := ha
        exact pushAlone_step hi hstep)
      (fun a ha => by
        obtain ⟨b, -, rfl⟩ := List.mem_map.mp ha
        exact ⟨b, rfl⟩) h hstart
  rwa [hret] at halone

end Push

/-! ### The refinement -/

def SoloCall.Returns : SoloCall T → Prop
  | .push _ thrown => thrown = none
  | .pop _ throws => throws = false

theorem SoloCall.Returns.noPushThrows {c : SoloCall T} (h : c.Returns) (q : MpscQueue w T) :
    NoPushThrows q c := by
  cases c with
  | push v thrown => exact Or.inr h
  | pop left throws => trivial

def Consumer.Between : Consumer w T → Prop
  | .idle | .returned _ => True
  | _ => False

theorem Consumer.Between.outside {c : Consumer w T} (h : c.Between) :
    c.clearing = false ∧ c.storing = false := by
  cases c with
  | idle => exact ⟨rfl, rfl⟩
  | returned ret => exact ⟨rfl, rfl⟩
  | _ => exact h.elim

theorem indexes_ne_nil {capacity : BitVec w} {q : MpscQueue w T} {es : List (FifoEvent T)}
    (h : Refines capacity q es) (c : SoloCall T) (hc : q.indexes c ≠ []) : capacity ≠ 0 := by
  obtain ⟨rfl, lo, xs, -, hholds, -⟩ := h
  intro hzero
  have hcap : q.cap = 0 := by
    rw [MpscQueue.cap, hzero]
    rfl
  have hroom := hholds.room
  have hlen : xs.length = 0 := by omega
  refine hc ?_
  cases c with
  | push v thrown => rw [MpscQueue.indexes, if_pos (hholds.full_iff.mpr (by omega))]
  | pop left throws =>
      rw [MpscQueue.indexes, if_pos (hholds.empty_iff.mpr (List.length_eq_zero_iff.mp hlen))]

variable [DecidableEq ι]

theorem Consumer.Between.enterPop {s : World ι w T} (h : s.consumer.Between) :
    step s .pop = some { s with consumer := .loadTail } := by
  simp only [step, Mpsc.enterPop]
  cases hp : s.consumer with
  | idle => rfl
  | returned ret => rfl
  | _ => rw [hp] at h; exact h.elim

/-- **Sequential refinement.** Any calls that do not overlap, on a queue of any capacity,
have the results of a bounded queue as long as fewer than `2 ^ w` pushes succeed;
`size()`, `empty()` and `full()` agree with it, and no index is taken modulo a
capacity of zero. And after any concurrent run in which every claim has been
published, a pop that runs alone returns, and it returns the oldest undelivered
claim, if the head differs from the tail. -/
theorem mpsc_refines_fifo (capacity : BitVec w) (data : ℕ → T) :
    (∀ (cs : List (SoloCall T)) (q : MpscQueue w T), (∀ c ∈ cs, c.Returns) →
      exec callStep (.create capacity data) cs = some q →
      ((results (.create capacity data) cs).flatMap FifoEvent.accepted).length < 2 ^ w →
      ∃ xs, FifoRun capacity.toNat (results (.create capacity data) cs) xs ∧
        q.size.toNat = xs.length ∧ (q.isEmpty = true ↔ xs = []) ∧
        (q.isFull = true ↔ xs.length = capacity.toNat) ∧
        ∀ c, q.indexes c ≠ [] → capacity ≠ 0) ∧
      ∀ (as : List (Action ι T)) (s : World ι w T),
        exec step (World.start ι (.create capacity data)) as = some s →
        s.claims.length < 2 ^ w → (∀ i, ¬ s.Owned i) → s.consumer.Between →
        (∀ left, ∃ k s' ret,
          exec step s (.pop :: (List.replicate k left).map .consumer) = some s' ∧
            s'.consumer = .returned ret) ∧
        ∀ (lefts : List T) s' ret, exec step s (.pop :: lefts.map .consumer) = some s' →
          s'.consumer = .returned ret →
          (ret.isSome ↔ s.queue.head ≠ s.queue.tail) ∧
            ret = (s.claims.map Prod.snd)[s.delivered.length]? := by
  refine ⟨fun cs q hcs hq hlt => ?_, fun as s hs hlt howned hbetween => ⟨fun left => ?_,
    fun lefts s' ret h hret => ?_⟩⟩
  · -- calls that do not overlap
    have hreturns : Steps callStep (fun q c _ => NoPushThrows q c) (.create capacity data) cs :=
      fun bs c t t' hbs _ _ => (hcs c (hbs.subset (by simp))).noPushThrows t
    have hrefines := refines_exec (sound_of_noPushThrows hreturns (Or.inl hlt)) hq
    have hindexes := indexes_ne_nil hrefines
    obtain ⟨rfl, lo, xs, hrun, hholds, -⟩ := hrefines
    exact ⟨xs, hrun, hholds.toNat_size, hholds.isEmpty_iff, hholds.isFull_iff, hindexes⟩
  · -- a pop that runs alone is over after at most seven more steps
    obtain ⟨k, s', ret, hs', hret⟩ := exists_returned (s := { s with consumer := .loadTail })
      left 7 (by simp) le_rfl
    exact ⟨k, s', ret, exec_cons_eq_some.mpr ⟨_, hbetween.enterPop, hs'⟩, hret⟩
  · -- and it is the function of the queue it finds, where every claim is published
    obtain ⟨hc, hk, hf⟩ := flags_exec hs hlt
    have hle := hc.le
    obtain ⟨hclear, hstoring⟩ := hbetween.outside
    obtain ⟨left, hpop⟩ := exec_pop_alone h hret
    have hexact := pop_of_published hc hk hf hlt howned hclear hstoring left
    rw [hpop, FifoEvent.popped.injEq] at hexact
    refine ⟨?_, hexact⟩
    have hne : s.queue.head ≠ s.queue.tail ↔ s.delivered.length < s.claims.length := by
      rw [hc.head, hc.tail, Ne, ofNat_inj_of_near hle (by omega)]
      omega
    rw [hne, hexact]
    simp

def threeSlots : List (SoloCall ℕ) :=
  [.push 1 none, .push 2 none, .push 3 none, .push 4 none,
    .pop 0 false, .push 5 none, .pop 0 false, .pop 0 false, .pop 0 false, .pop 0 false]

def onePublished : List (Action Bool ℕ) := .push true 7 :: List.replicate 6 (.producer true false)

theorem mpsc_refines_fifo_threeSlots :
    (∃ q, exec callStep (.create (3 : BitVec 64) fun _ => 0) threeSlots = some q ∧
      results (.create (3 : BitVec 64) fun _ => 0) threeSlots =
        [.pushed 1 true, .pushed 2 true, .pushed 3 true, .pushed 4 false, .popped (some 1),
          .pushed 5 true, .popped (some 2), .popped (some 3), .popped (some 5), .popped none] ∧
      ∃ xs, FifoRun 3 (results (.create (3 : BitVec 64) fun _ => 0) threeSlots) xs ∧
        q.size.toNat = xs.length) ∧
      ∃ s, exec step (World.start Bool (.create (3 : BitVec 64) fun _ => 0)) onePublished = some s ∧
        ∃ k s', exec step s (.pop :: (List.replicate k 0).map .consumer) = some s' ∧
          s'.consumer = .returned (some 7) := by
  have hexact := mpsc_refines_fifo (ι := Bool) (3 : BitVec 64) fun _ => 0
  constructor
  · have hq : exec callStep (.create (3 : BitVec 64) fun _ => 0) threeSlots = some _ := rfl
    have hreturns : ∀ c ∈ threeSlots, c.Returns := by
      simp [threeSlots, SoloCall.Returns]
    obtain ⟨xs, hrun, hsize, -⟩ := hexact.1 threeSlots _ hreturns hq (by decide +kernel)
    exact ⟨_, hq, by decide +kernel, xs, hrun, hsize⟩
  · have hs : exec step (World.start Bool (.create (3 : BitVec 64) fun _ => 0)) onePublished =
      some _ := rfl
    obtain ⟨hends, hpop⟩ := hexact.2 onePublished _ hs (by decide)
      (fun i ⟨p, v, hp⟩ => by cases p <;> cases hp) trivial
    obtain ⟨k, s', ret, hs', hret⟩ := hends 0
    obtain ⟨-, rfl⟩ := hpop _ s' ret hs' hret
    exact ⟨_, hs, k, s', hs', hret⟩

end SystemsPrep.Mpsc
