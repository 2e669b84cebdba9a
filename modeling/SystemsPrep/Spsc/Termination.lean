import SystemsPrep.Base.Fair
import SystemsPrep.Spsc.Clients
import Mathlib.Data.Prod.Lex

/-!
The loops of the two threads end.

A call that gives up is made again, so a thread may go round its loop for as long as the
other one is not scheduled. If both have turns again and again, and the loads of the
indices return current values, all items go through: while the ring holds something each
step of the consumer brings the end nearer, and while it is empty each step of the
producer. A refusal from an old view of the peer costs one more round and no more.
-/

namespace SystemsPrep.Spsc

open Base

/-! ### How far a thread is from its next transfer -/

/-- The steps to the next store of the head, if the ring is not full. A refusal that is
already decided leads to one more round. -/
def Producer.distance (r : SpscRing) (most : ℕ) : Producer → ℕ
  | .idle | .returned _ _ => most + 5
  | .loadHead _ => most + 4
  | .checkCached _ _ => most + 3
  | .refresh _ _ => most + 2
  | .checkFresh c head => if (r.pushCheckFresh c head).answer.isSome then most + 6 else most + 1
  | .copy _ _ _ ms => copyLeft ms

/-- The steps to the next store of the tail, if the ring is not empty. -/
def Consumer.distance (r : SpscRing) (most : ℕ) : Consumer → ℕ
  | .idle | .returned _ _ _ => most + 5
  | .loadTail _ => most + 4
  | .checkCached _ _ => most + 3
  | .refresh _ _ => most + 2
  | .checkFresh c tail => if (r.popCheckFresh c tail).answer.isSome then most + 6 else most + 1
  | .copy _ _ _ ms _ => copyLeft ms

theorem Producer.distance_of_rest {r : SpscRing} {most : ℕ} {p : Producer}
    (h : p.current? = none) : p.distance r most = most + 5 := by
  cases p with
  | idle | returned => rfl
  | _ => cases h

theorem Consumer.distance_of_rest {r : SpscRing} {most : ℕ} {p : Consumer}
    (h : p.current? = none) : p.distance r most = most + 5 := by
  cases p with
  | idle | returned => rfl
  | _ => cases h

theorem copyMost_mono {m n : ℕ} (h : m ≤ n) (esize : ℕ) : copyMost m esize ≤ copyMost n esize :=
  Nat.add_le_add_right (Nat.mul_le_mul_right esize h) 3

section Distance

variable {cap esize items : ℕ} {w w' : World}

/-- With room in the ring, every step of a push that does not store the head brings it
nearer to that. -/
theorem distance_producerStep (h : InOrder cap esize w)
    (hreq : ∀ c ∈ w.producer.current?, 0 < c.requested ∧ c.requested ≤ items)
    (hroom : w.contents.length < cap) (hs : producerStep w 0 = some w')
    (hkept : w'.accepted = w.accepted) :
    w'.producer.distance w'.ring (copyMost items esize) <
      w.producer.distance w.ring (copyMost items esize) := by
  have h' : InOrder cap esize w' := inOrder_step (a := .producer 0) h hs
  obtain ⟨ct, ch, hc⟩ := h.counters
  obtain ⟨ct', hc'⟩ := counters_producerStep hc hs
  have hprod := hc.producer
  cases producerMove_of_step hs with
  | loadHead c hp =>
      rw [hp]
      exact Nat.lt_succ_self _
  | checkCached c head hp =>
      obtain ⟨hpos, hle⟩ := hreq c (by rw [hp]; rfl)
      have hmost := copyMost_mono hle esize
      rw [hp]
      obtain hr | ⟨n, ms, -, hr⟩ | ⟨hzero, -⟩ := pushCheckCached_cases w.ring c head
      · rw [hr]
        exact Nat.lt_succ_self _
      · have hcopy := h'.producer_copyLeft_le hr
        rw [hr]
        simp only [Producer.distance]
        omega
      · omega
  | refresh c head tail hp htail =>
      obtain ⟨hpos, -⟩ := hreq c (by rw [hp]; rfl)
      rw [hp] at hprod
      obtain rfl : head = w.ring.head := hprod
      obtain ⟨n, -, -, rfl, hcur, -⟩ := hc.tailSince.load htail
      have hct : BitVec.ofNat 64 n = w.ring.tail := by rw [hcur rfl, hc.tail]
      rw [hp]
      -- the current tail shows that there is room
      obtain ⟨n', ms, -, hr⟩ | hr := pushCheckFresh_cases
        { w.ring with cachedTail := BitVec.ofNat 64 n } c w.ring.head
      · simp only [Producer.distance, hr, Producer.answer]
        exact Nat.lt_succ_self _
      · have hfull := hc'.full_of_refused hct hr
        have hcap : w.contents.length = w.ring.cap := hfull.resolve_left (by omega)
        rw [h.cap] at hcap
        omega
  | checkFresh c head hp =>
      obtain ⟨-, hle⟩ := hreq c (by rw [hp]; rfl)
      have hmost := copyMost_mono hle esize
      rw [hp]
      obtain ⟨n, ms, -, hr⟩ | hr := pushCheckFresh_cases w.ring c head
      · have hcopy := h'.producer_copyLeft_le hr
        rw [hr]
        simp only [Producer.distance, hr, Producer.answer]
        exact Nat.lt_succ_of_le (hcopy.trans hmost)
      · rw [hr]
        simp only [Producer.distance, hr, Producer.answer]
        exact Nat.lt_succ_self _
  | nextPiece c head n o u ms hp =>
      rw [hp]
      exact copyLeft_nextPiece o u ms
  | copyByte c head n o u l ms hp =>
      rw [hp]
      exact copyLeft_copyByte o u l ms
  | storeHead c head n hp =>
      rw [hp] at hprod
      have hlen := congrArg List.length hkept
      rw [List.length_append, length_elements] at hlen
      exact absurd (BitVec.eq_of_toNat_eq (show n.toNat = (0 : Size).toNat by
        simpa using hlen)) hprod.2.1

/-- With something in the ring, every step of a pop that does not store the tail brings it
nearer to that. -/
theorem distance_consumerStep (h : InOrder cap esize w)
    (hreq : ∀ c ∈ w.consumer.current?, 0 < c.requested ∧ c.requested ≤ items)
    (hsome : w.contents ≠ []) (hs : consumerStep w 0 = some w') (hkept : w'.handed = w.handed) :
    w'.consumer.distance w'.ring (copyMost items esize) <
      w.consumer.distance w.ring (copyMost items esize) := by
  have h' : InOrder cap esize w' := inOrder_step (a := .consumer 0) h hs
  obtain ⟨ct, ch, hc⟩ := h.counters
  obtain ⟨ch', hc'⟩ := counters_consumerStep hc hs
  have hcons := hc.consumer
  cases consumerMove_of_step hs with
  | loadTail c hp =>
      rw [hp]
      exact Nat.lt_succ_self _
  | checkCached c tail hp =>
      obtain ⟨hpos, hle⟩ := hreq c (by rw [hp]; rfl)
      have hmost := copyMost_mono hle esize
      rw [hp]
      obtain hr | ⟨n, ms, -, hr⟩ | ⟨hzero, -⟩ := popCheckCached_cases w.ring c tail
      · rw [hr]
        exact Nat.lt_succ_self _
      · have hcopy := h'.consumer_copyLeft_le hr
        rw [hr]
        simp only [Consumer.distance]
        omega
      · omega
  | refresh c tail head hp hhead =>
      obtain ⟨hpos, -⟩ := hreq c (by rw [hp]; rfl)
      rw [hp] at hcons
      obtain rfl : tail = w.ring.tail := hcons
      obtain ⟨n, -, -, rfl, hcur, -⟩ := hc.headSince.load hhead
      have hch : BitVec.ofNat 64 n = w.ring.head := by rw [hcur rfl, hc.head]
      rw [hp]
      -- the current head shows that there is something
      obtain ⟨n', ms, -, hr⟩ | hr := popCheckFresh_cases
        { w.ring with cachedHead := BitVec.ofNat 64 n } c w.ring.tail
      · simp only [Consumer.distance, hr, Consumer.answer]
        exact Nat.lt_succ_self _
      · have hempty := hc'.empty_of_refused hch hr
        exact absurd (hempty.resolve_left (by omega)) hsome
  | checkFresh c tail hp =>
      obtain ⟨-, hle⟩ := hreq c (by rw [hp]; rfl)
      have hmost := copyMost_mono hle esize
      rw [hp]
      obtain ⟨n, ms, -, hr⟩ | hr := popCheckFresh_cases w.ring c tail
      · have hcopy := h'.consumer_copyLeft_le hr
        rw [hr]
        simp only [Consumer.distance, hr, Consumer.answer]
        exact Nat.lt_succ_of_le (hcopy.trans hmost)
      · rw [hr]
        simp only [Consumer.distance, hr, Consumer.answer]
        exact Nat.lt_succ_self _
  | nextPiece c tail n o u ms out hp =>
      rw [hp]
      exact copyLeft_nextPiece o u ms
  | copyByte c tail n o u l ms out hp =>
      rw [hp]
      exact copyLeft_copyByte o u l ms
  | storeTail c tail n out hp =>
      rw [hp] at hcons
      have hlen := congrArg List.length hkept
      rw [List.length_append, length_elements] at hlen
      exact absurd (BitVec.eq_of_toNat_eq (show n.toNat = (0 : Size).toNat by
        simpa using hlen)) hcons.2.1

theorem Producer.distance_congr {r r' : SpscRing} (hcap : r'.capacity = r.capacity)
    (hct : r'.cachedTail = r.cachedTail) (most : ℕ) (p : Producer) :
    p.distance r' most = p.distance r most := by
  cases p with
  | checkFresh c head => simp only [distance, answer_pushCheckFresh_congr hcap hct]
  | _ => rfl

theorem Consumer.distance_congr {r r' : SpscRing} (hch : r'.cachedHead = r.cachedHead)
    (most : ℕ) (p : Consumer) : p.distance r' most = p.distance r most := by
  cases p with
  | checkFresh c tail => simp only [distance, answer_popCheckFresh_congr hch]
  | _ => rfl

end Distance

/-! ### The rank of a state -/

def Clients.helpful (s : Clients) : Side := if s.popped < s.pushed then .consumer else .producer

def Clients.distance (most : ℕ) (s : Clients) : ℕ :=
  match s.helpful with
  | .producer => s.world.producer.distance s.world.ring most
  | .consumer => s.world.consumer.distance s.world.ring most

def Clients.rank (items esize : ℕ) (s : Clients) : ℕ ×ₗ ℕ :=
  toLex (items + items - s.pushed - s.popped, s.distance (copyMost items esize))

section Rank

variable {f : Feeder} {d : Drainer} {cap esize : ℕ} {s s' : Clients}

theorem Clients.rank_lt_of_more {items : ℕ}
    (hmore : s.pushed + s.popped < s'.pushed + s'.popped)
    (hle : s'.pushed ≤ items) (hle' : s'.popped ≤ items) :
    s'.rank items esize < s.rank items esize := by
  refine Prod.Lex.toLex_lt_toLex.mpr (Or.inl ?_)
  change items + items - s'.pushed - s'.popped < items + items - s.pushed - s.popped
  omega

theorem Clients.rank_lt_of_nearer {items : ℕ} (hpushed : s'.pushed = s.pushed)
    (hpopped : s'.popped = s.popped)
    (hlt : s'.distance (copyMost items esize) < s.distance (copyMost items esize)) :
    s'.rank items esize < s.rank items esize := by
  refine Prod.Lex.toLex_lt_toLex.mpr (Or.inr ⟨?_, hlt⟩)
  simp only [hpushed, hpopped]

theorem Clients.helpful_congr (hpushed : s'.pushed = s.pushed) (hpopped : s'.popped = s.popped) :
    s'.helpful = s.helpful := by
  simp only [Clients.helpful, hpushed, hpopped]

/-- A step of the producer thread transfers something, or leaves the counts alone. -/
theorem Honest.pushed_step (h : Honest f d cap esize s) (h' : Honest f d cap esize s')
    {back : ℕ} (hs : ClientMove f d s ⟨.producer, back⟩ s') :
    s'.popped = s.popped ∧ s.pushed ≤ s'.pushed ∧
      (s'.pushed = s.pushed → s'.world.accepted = s.world.accepted) := by
  have hkept : s.world.accepted <+: s'.world.accepted → s'.popped = s.popped →
      s'.popped = s.popped ∧ s.pushed ≤ s'.pushed ∧
        (s'.pushed = s.pushed → s'.world.accepted = s.world.accepted) := by
    intro hpre hpopped
    refine ⟨hpopped, ?_, fun heq => ?_⟩
    · rw [h.pushed, h'.pushed]
      exact hpre.length_le
    · rw [h.pushed, h'.pushed] at heq
      exact (hpre.eq_of_length heq.symm).symm
  cases hs with
  | push back w hrest hlt hw =>
      refine hkept ?_ rfl
      rw [enterPush_eq_some hw]
  | producer back w hw =>
      refine hkept ?_ rfl
      cases producerMove_of_step hw with
      | storeHead => exact List.prefix_append ..
      | _ => exact List.prefix_refl _

theorem Honest.popped_step (h : Honest f d cap esize s) (h' : Honest f d cap esize s')
    {back : ℕ} (hs : ClientMove f d s ⟨.consumer, back⟩ s') :
    s'.pushed = s.pushed ∧ s.popped ≤ s'.popped ∧
      (s'.popped = s.popped → s'.world.handed = s.world.handed) := by
  have hkept : s.world.handed <+: s'.world.handed → s'.pushed = s.pushed →
      s'.pushed = s.pushed ∧ s.popped ≤ s'.popped ∧
        (s'.popped = s.popped → s'.world.handed = s.world.handed) := by
    intro hpre hpushed
    refine ⟨hpushed, ?_, fun heq => ?_⟩
    · rw [h.popped, h'.popped]
      exact hpre.length_le
    · rw [h.popped, h'.popped] at heq
      exact (hpre.eq_of_length heq.symm).symm
  cases hs with
  | pop back w hrest hlt hw =>
      refine hkept ?_ rfl
      rw [enterPop_eq_some hw]
  | consumer back w hw =>
      refine hkept ?_ (Clients.receive_pushed ..)
      rw [Clients.receive_world]
      cases consumerMove_of_step hw with
      | storeTail => exact List.prefix_append ..
      | _ => exact List.prefix_refl _

theorem Honest.length_contents (h : Honest f d cap esize s) :
    s.world.contents.length = s.pushed - s.popped := by
  rw [s.world.length_contents, World.held, h.pushed, h.popped]

/-- While the ring is empty, the producer's steps lower the rank. -/
theorem Honest.rank_producer (h : Honest f d cap esize s) (hf : f.Measured)
    (hempty : ¬ s.popped < s.pushed) (hs : ClientMove f d s ⟨.producer, 0⟩ s')
    (h' : Honest f d cap esize s') : s'.rank f.items esize < s.rank f.items esize := by
  obtain ⟨hpopped, hle, hsame⟩ := h.pushed_step h' hs
  have hmost := h'.pushed_le hf
  have hpop := h'.popped_le
  rcases hle.lt_or_eq with hlt | heq
  · exact Clients.rank_lt_of_more (by omega) hmost (by omega)
  · refine Clients.rank_lt_of_nearer heq.symm hpopped ?_
    have hhelp : s.helpful = .producer := if_neg hempty
    have hhelp' : s'.helpful = .producer := by rw [Clients.helpful_congr heq.symm hpopped, hhelp]
    rw [Clients.distance, Clients.distance, hhelp, hhelp']
    cases hs with
    | push back w hrest hlt hw =>
        simp only
        rw [Producer.distance_of_rest hrest, enterPush_eq_some hw]
        exact Nat.lt_succ_self _
    | producer back w hw =>
        refine distance_producerStep h.order (fun c hc => ?_) ?_ hw (hsame heq.symm)
        · obtain ⟨hlt, rfl⟩ := h.pushing c hc
          obtain ⟨hpos, hbound⟩ := hf s.pushed hlt
          exact ⟨hpos, by omega⟩
        · have hcap := h.order.contents.ring.cap_pos
          rw [h.order.cap] at hcap
          rw [h.length_contents]
          omega

/-- While it is not, the consumer's do. -/
theorem Honest.rank_consumer (h : Honest f d cap esize s) (hf : f.Measured) (hd : d.Measured)
    (hitems : f.items = d.items) (hsome : s.popped < s.pushed)
    (hs : ClientMove f d s ⟨.consumer, 0⟩ s') (h' : Honest f d cap esize s') :
    s'.rank f.items esize < s.rank f.items esize := by
  obtain ⟨hpushed, hle, hsame⟩ := h.popped_step h' hs
  have hmost := h'.pushed_le hf
  have hpop := h'.popped_le
  rcases hle.lt_or_eq with hlt | heq
  · exact Clients.rank_lt_of_more (by omega) hmost (by omega)
  · refine Clients.rank_lt_of_nearer hpushed heq.symm ?_
    have hhelp : s.helpful = .consumer := if_pos hsome
    have hhelp' : s'.helpful = .consumer := by rw [Clients.helpful_congr hpushed heq.symm, hhelp]
    rw [Clients.distance, Clients.distance, hhelp, hhelp']
    have hmiddle := hsame heq.symm
    cases hs with
    | pop back w hrest hlt hw =>
        simp only
        rw [Consumer.distance_of_rest hrest, enterPop_eq_some hw]
        exact Nat.lt_succ_self _
    | consumer back w hw =>
        simp only [Clients.receive_world] at hmiddle ⊢
        refine distance_consumerStep h.order (fun c hc => ?_) ?_ hw hmiddle
        · obtain ⟨hlt, rfl⟩ := h.popping c hc
          obtain ⟨hpos, hbound⟩ := hd s.popped hlt s.buffer
          exact ⟨hpos, by omega⟩
        · rw [← List.length_pos_iff, h.length_contents]
          omega

/-- The steps of the other thread lower the rank or change nothing that matters. -/
theorem Honest.rank_other (h : Honest f d cap esize s) (hf : f.Measured) {t : Turn}
    (hother : t.side ≠ s.helpful) (hs : ClientMove f d s t s') (h' : Honest f d cap esize s') :
    s'.rank f.items esize < s.rank f.items esize ∨
      (s'.rank f.items esize = s.rank f.items esize ∧ s'.helpful = s.helpful) := by
  obtain ⟨side, back⟩ := t
  have hmost := h'.pushed_le hf
  have hpop := h'.popped_le
  have hkept : s'.pushed = s.pushed → s'.popped = s.popped →
      s'.distance (copyMost f.items esize) = s.distance (copyMost f.items esize) →
      s'.rank f.items esize = s.rank f.items esize ∧ s'.helpful = s.helpful := by
    intro hpushed hpopped hdist
    refine ⟨?_, Clients.helpful_congr hpushed hpopped⟩
    rw [Clients.rank, Clients.rank, hpushed, hpopped, hdist]
  cases side with
  | producer =>
      obtain ⟨hpopped, hle, -⟩ := h.pushed_step h' hs
      rcases hle.lt_or_eq with hlt | heq
      · exact Or.inl (Clients.rank_lt_of_more (by omega) hmost (by omega))
      · refine Or.inr (hkept heq.symm hpopped ?_)
        have hhelp : s.helpful = .consumer := by
          cases hh : s.helpful with
          | producer => exact absurd hh.symm hother
          | consumer => rfl
        have hhelp' := (Clients.helpful_congr heq.symm hpopped).trans hhelp
        rw [Clients.distance, Clients.distance, hhelp, hhelp']
        cases hs with
        | push back w hrest hlt hw =>
            rw [enterPush_eq_some hw]
        | producer back w hw =>
            obtain ⟨hcons, -, hch, -⟩ := producerStep_frame hw
            simp only [hcons]
            exact Consumer.distance_congr hch _ _
  | consumer =>
      obtain ⟨hpushed, hle, -⟩ := h.popped_step h' hs
      rcases hle.lt_or_eq with hlt | heq
      · exact Or.inl (Clients.rank_lt_of_more (by omega) hmost (by omega))
      · refine Or.inr (hkept hpushed heq.symm ?_)
        have hhelp : s.helpful = .producer := by
          cases hh : s.helpful with
          | producer => rfl
          | consumer => exact absurd hh.symm hother
        have hhelp' := (Clients.helpful_congr hpushed heq.symm).trans hhelp
        rw [Clients.distance, Clients.distance, hhelp, hhelp']
        cases hs with
        | pop back w hrest hlt hw =>
            rw [enterPop_eq_some hw]
        | consumer back w hw =>
            obtain ⟨hprod, -, hct, -, hcap, -⟩ := consumerStep_frame hw
            simp only [Clients.receive_world, hprod]
            exact Producer.distance_congr hcap hct _ _

end Rank

/-! ### Fair schedules -/

/-- A thread that has work left is not blocked. -/
theorem helpful_clients {f : Feeder} {d : Drainer} {cap esize : ℕ} (hf : f.Measured)
    (hd : d.Measured) (hitems : f.items = d.items) (hagree : Agree f d esize) :
    Helpful (clientStep f d) Turn.side (fun t => t.back = 0) (Honest f d cap esize) (Finished f d)
      (Clients.rank f.items esize) Clients.helpful where
  inv s t s' _ h hs _ := honest_step h hs
  own s t hback h hgoal hside := by
    obtain ⟨side, back⟩ := t
    obtain rfl : back = 0 := hback
    have hdrift := h.sound hagree
    have hpop := h.popped_le
    have hmost := h.pushed_le hf
    by_cases hsome : s.popped < s.pushed
    · obtain rfl : side = .consumer := hside.trans (if_pos hsome)
      obtain ⟨s', hs'⟩ := Option.isSome_iff_exists.mp (h.drainerStep_isSome (by omega))
      have hs : clientStep f d s ⟨.consumer, 0⟩ = some s' := by simp [clientStep, hdrift, hs']
      obtain ⟨-, hmove⟩ := clientMove_of_step hs
      exact ⟨s', hs, fun _ => h.rank_consumer hf hd hitems hsome hmove (honest_step h hs)⟩
    · obtain rfl : side = .producer := hside.trans (if_neg hsome)
      have hleft : s.pushed < f.items := by
        rcases hmost.lt_or_eq with hlt | heq
        · exact hlt
        · exact absurd (h.finished hdrift heq (by omega) hitems) hgoal
      obtain ⟨s', hs'⟩ := Option.isSome_iff_exists.mp (h.feederStep_isSome hleft)
      have hs : clientStep f d s ⟨.producer, 0⟩ = some s' := by simp [clientStep, hdrift, hs']
      obtain ⟨-, hmove⟩ := clientMove_of_step hs
      exact ⟨s', hs, fun _ => h.rank_producer hf hsome hmove (honest_step h hs)⟩
  other s t s' _ h _ _ hside hs :=
    h.rank_other hf hside (clientMove_of_step hs).2 (honest_step h hs)

/-- Two threads that push and pop the same number of items, in calls of any size, have both
finished at some instant of every fair schedule. -/
theorem clients_finish {f : Feeder} {d : Drainer} {alignedAlloc : Bool}
    {malloc : Size → Option (ℕ → Byte)} {capacity elemSize : Size} {r : SpscRing}
    {buffer : ℕ → Byte} {sched : ℕ → Turn}
    (hr : spscRingCreate alignedAlloc malloc capacity elemSize = some r)
    (hfits : capacity.toNat * elemSize.toNat < 2 ^ 64) (hf : f.Measured) (hd : d.Measured)
    (hitems : f.items = d.items) (hagree : Agree f d elemSize.toNat)
    (hfair : Fair Turn.side sched) (hcur : ∀ n, (sched n).back = 0) :
    ∃ n, Finished f d (stateAt (clientStep f d) (.start r buffer) sched n) :=
  (helpful_clients hf hd hitems hagree).eventually (fun s => hfair s.helpful) hcur
    (honest_start f d buffer hr hfits)

/-- **The test and the benchmark come to an end.** On a ring of any capacity, in every
schedule that gives both threads turns again and again and whose loads return current
values, the threads of `test_concurrent_spsc`, of `bench_single` and of `bench_batch` with
any batch size finish, with every item gone through and the ring empty. -/
theorem test_and_bench_finish {alignedAlloc : Bool} {malloc : Size → Option (ℕ → Byte)}
    {capacity : Size} {r : SpscRing} {buffer : ℕ → Byte} {items batch : ℕ} {sched : ℕ → Turn}
    (hr : spscRingCreate alignedAlloc malloc capacity 4 = some r)
    (hfits : capacity.toNat * 4 < 2 ^ 64) (hitems : items < 2 ^ 32) (hpos : 0 < batch)
    (hbatch : batch < 2 ^ 32) (hfair : Fair Turn.side sched) (hcur : ∀ n, (sched n).back = 0) :
    (∃ n, Finished (producerFn items) (consumerFn items)
      (stateAt (clientStep (producerFn items) (consumerFn items)) (.start r buffer) sched n)) ∧
    (∃ n, Finished (producerSingle items) (consumerSingle items)
      (stateAt (clientStep (producerSingle items) (consumerSingle items)) (.start r buffer)
        sched n)) ∧
    ∃ n, Finished (producerBatch items batch) (consumerBatch items batch)
      (stateAt (clientStep (producerBatch items batch) (consumerBatch items batch))
        (.start r buffer) sched n) := by
  have hbatch' : batch < 2 ^ 64 := hbatch.trans (by norm_num)
  refine ⟨?_, ?_, ?_⟩
  · exact clients_finish hr hfits (measured_producerFn items) (measured_consumerFn items) rfl
      (agree_producerFn hitems) hfair hcur
  · exact clients_finish hr hfits (measured_producerSingle items) (measured_consumerSingle items)
      rfl (agree_of_accepts _ _ fun _ _ => rfl) hfair hcur
  · exact clients_finish hr hfits (measured_producerBatch hpos hbatch')
      (measured_consumerBatch hpos hbatch') rfl (agree_of_accepts _ _ fun _ _ => rfl) hfair hcur

def inTurns (n : ℕ) : Turn := ⟨if n % 2 = 0 then .producer else .consumer, 0⟩

theorem fair_inTurns : Fair Turn.side inTurns := by
  intro i n
  cases i with
  | producer => exact ⟨2 * n, by omega, by simp [inTurns]⟩
  | consumer => exact ⟨2 * n + 1, by omega, by simp [inTurns, Nat.add_mod]⟩

theorem test_and_bench_finish_inTurns :
    ∃ r, spscRingCreate true (fun _ => some fun _ => 0) 2 4 = some r ∧
      ∃ n, Finished (producerBatch 5 3) (consumerBatch 5 3)
        (stateAt (clientStep (producerBatch 5 3) (consumerBatch 5 3)) (.start r fun _ => 0)
          inTurns n) :=
  ⟨_, rfl, (@test_and_bench_finish true (fun _ => some fun _ => 0) 2 _ (fun _ => 0) 5 3 inTurns
    rfl (by decide) (by decide) (by decide) (by decide) fair_inTurns fun _ => rfl).2.2⟩

end SystemsPrep.Spsc
