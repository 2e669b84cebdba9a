import SystemsPrep.Spsc.Refusal

/-!
Refusals are justified, and refused calls leave no trace.

The span of a call runs from the state in which it has been entered to one in
which it has returned, with any steps of the other side in between. Its refresh
loads return current values.
-/

namespace SystemsPrep.Spsc

open Base

/-! ### Once decided, a call stays decided -/

theorem decided_producerStep {w w' : World} {back : ℕ} {d : PushCall × ℕ}
    (hs : producerStep w back = some w') (hd : w.producer.decided = some d) :
    w'.producer.decided = some d := by
  cases producerMove_of_step hs with
  | nextPiece c head n o u ms hp => rw [hp] at hd; exact hd
  | copyByte c head n o u l ms hp => rw [hp] at hd; exact hd
  | storeHead c head n hp => rw [hp] at hd; exact hd
  | loadHead _ hp | checkCached _ _ hp | refresh _ _ _ hp | checkFresh _ _ hp =>
      rw [hp] at hd
      cases hd

theorem decided_consumerStep {w w' : World} {back : ℕ} {d : PopCall × ℕ}
    (hs : consumerStep w back = some w') (hd : w.consumer.decided = some d) :
    w'.consumer.decided = some d := by
  cases consumerMove_of_step hs with
  | nextPiece c tail n o u ms out hp => rw [hp] at hd; exact hd
  | copyByte c tail n o u l ms out hp => rw [hp] at hd; exact hd
  | storeTail c tail n out hp => rw [hp] at hd; exact hd
  | loadTail _ hp | checkCached _ _ hp | refresh _ _ _ hp | checkFresh _ _ hp =>
      rw [hp] at hd
      cases hd

theorem exec_decided_push {w w' : World} {as : List Action} {d : PushCall × ℕ}
    (hA : ∀ a ∈ as, a.KeepsPush) (hs : exec step w as = some w')
    (hd : w.producer.decided = some d) : w'.producer.decided = some d := by
  refine exec_invariant_on (I := fun w => w.producer.decided = some d) ?_ hA hs hd
  intro u a u' ha hu hs
  cases a with
  | push c => exact ha.elim
  | producer back => exact decided_producerStep hs hu
  | pop c =>
      rw [enterPop_eq_some hs]
      exact hu
  | consumer back =>
      rw [(consumerStep_frame hs).1]
      exact hu

theorem exec_decided_pop {w w' : World} {as : List Action} {d : PopCall × ℕ}
    (hA : ∀ a ∈ as, a.KeepsPop) (hs : exec step w as = some w')
    (hd : w.consumer.decided = some d) : w'.consumer.decided = some d := by
  refine exec_invariant_on (I := fun w => w.consumer.decided = some d) ?_ hA hs hd
  intro u a u' ha hu hs
  cases a with
  | push c =>
      rw [enterPush_eq_some hs]
      exact hu
  | producer back =>
      rw [(producerStep_frame hs).1]
      exact hu
  | pop c => exact ha.elim
  | consumer back => exact decided_consumerStep hs hu

/-! ### A call that transfers nothing writes nothing -/

def SameRing (w w' : World) : Prop :=
  w'.ring.head = w.ring.head ∧ w'.ring.tail = w.ring.tail ∧ w'.ring.buf = w.ring.buf

/-- Every step of the run that is one of `mine` leaves the ring as it is. -/
def LeavesRing (w : World) (as : List Action) (mine : Action → Prop) : Prop :=
  Steps step (fun u a u' => mine a → SameRing u u') w as

def Action.OfProducer : Action → Prop
  | .push _ | .producer _ => True
  | _ => False

def Action.OfConsumer : Action → Prop
  | .pop _ | .consumer _ => True
  | _ => False

theorem PushCall.transferred_result_ne_zero (c : PushCall) {n : Size} (hn : n ≠ 0) :
    (c.result n).transferred ≠ 0 := by
  cases c with
  | push e => simp [PushCall.result, Return.transferred]
  | pushN e m => exact fun h => hn (BitVec.eq_of_toNat_eq h)

theorem PopCall.transferred_result_ne_zero (c : PopCall) {n : Size} (hn : n ≠ 0) :
    (c.result n).transferred ≠ 0 := by
  cases c with
  | pop e => simp [PopCall.result, Return.transferred]
  | popN e m => exact fun h => hn (BitVec.eq_of_toNat_eq h)

/-- The producer writes only once it is bound to transfer something. -/
theorem Counters.sameRing_producerStep {w w' : World} {ct ch back : ℕ} (h : Counters w ct ch)
    (hs : producerStep w back = some w') :
    SameRing w w' ∨ ∃ c k, w.producer.decided = some (c, k) ∧ k ≠ 0 := by
  have hprod := h.producer
  cases producerMove_of_step hs with
  | loadHead | checkCached | refresh | checkFresh => exact Or.inl ⟨rfl, rfl, rfl⟩
  | nextPiece _ _ _ _ _ _ hp | copyByte _ _ _ _ _ _ _ hp | storeHead _ _ _ hp =>
      rw [hp] at hprod ⊢
      exact Or.inr ⟨_, _, rfl, PushCall.transferred_result_ne_zero _ hprod.2.1⟩

/-- The consumer writes to the ring only once it is bound to transfer something. -/
theorem Counters.sameRing_consumerStep {w w' : World} {ct ch back : ℕ} (h : Counters w ct ch)
    (hs : consumerStep w back = some w') :
    SameRing w w' ∨ ∃ c k, w.consumer.decided = some (c, k) ∧ k ≠ 0 := by
  have hcons := h.consumer
  cases consumerMove_of_step hs with
  | loadTail | checkCached | refresh | checkFresh => exact Or.inl ⟨rfl, rfl, rfl⟩
  | nextPiece _ _ _ _ _ _ _ hp | copyByte _ _ _ _ _ _ _ _ hp | storeTail _ _ _ _ hp =>
      rw [hp] at hcons ⊢
      exact Or.inr ⟨_, _, rfl, PopCall.transferred_result_ne_zero _ hcons.2.1⟩

/-- The buffer of a pop is the caller's until something is bound to be copied. -/
def OutKept (w : World) : Prop :=
  match w.consumer with
  | .returned c ret out => ret.transferred = 0 → out = c.buffer
  | _ => True

theorem SpscRing.outKept_popNCopy {r : SpscRing} {w : World} (e : ℕ → Byte) (n k tail : Size) :
    OutKept { w with consumer := r.popNCopy e n k tail } := by
  unfold OutKept SpscRing.popNCopy
  by_cases hk : k = 0
  · simp only [hk, if_true, PopCall.buffer, implies_true]
  · simp only [hk, if_false]

theorem outKept_consumerStep {w w' : World} {ct ch back : ℕ} (h : Counters w ct ch)
    (hs : consumerStep w back = some w') : OutKept w' := by
  have hcons := h.consumer
  cases consumerMove_of_step hs with
  | loadTail | refresh | nextPiece | copyByte => trivial
  | checkCached c tail hp =>
      cases c with
      | pop e =>
          simp only [OutKept, SpscRing.popCheckCached]
          by_cases hempty : tail = w.ring.cachedHead
          · simp only [hempty, if_true]
          · simp only [hempty, if_false]
      | popN e n =>
          simp only [SpscRing.popCheckCached]
          split
          · trivial
          · exact SpscRing.outKept_popNCopy e n n tail
  | checkFresh c tail hp =>
      cases c with
      | pop e =>
          simp only [OutKept, SpscRing.popCheckFresh]
          by_cases hempty : tail = w.ring.cachedHead
          · simp only [hempty, if_true, PopCall.buffer, implies_true]
          · simp only [hempty, if_false]
      | popN e n => exact SpscRing.outKept_popNCopy e n _ tail
  | storeTail c tail n out hp =>
      rw [hp] at hcons
      exact fun hzero => absurd hzero (PopCall.transferred_result_ne_zero c hcons.2.1)

theorem outKept_step (w : World) (a : Action) (w' : World)
    (h : (∃ ct ch, Counters w ct ch) ∧ OutKept w) (hs : step w a = some w') :
    (∃ ct ch, Counters w' ct ch) ∧ OutKept w' := by
  refine ⟨counters_step w a w' h.1 hs, ?_⟩
  obtain ⟨⟨ct, ch, hc⟩, hk⟩ := h
  cases a with
  | push c =>
      rw [enterPush_eq_some hs]
      exact hk
  | producer back =>
      unfold OutKept
      rw [(producerStep_frame hs).1]
      exact hk
  | pop c =>
      rw [enterPop_eq_some hs]
      trivial
  | consumer back => exact outKept_consumerStep hc hs

/-! ### A call that runs alone -/

/-- A push that the consumer does not disturb, entered with `h₀` elements in the
ring. -/
def AlonePush (h₀ : ℕ) (w : World) : Prop :=
  match w.producer with
  | .loadHead _ | .checkCached _ _ | .refresh _ _ => w.held = h₀
  | .checkFresh _ _ => w.held = h₀ ∧ w.ring.cachedTail = w.ring.tail
  | p => ∃ c, p.decided = some (c, min c.requested (w.ring.cap - h₀))

/-- A pop that the producer does not disturb, entered with `h₀` elements in the
ring. -/
def AlonePop (h₀ : ℕ) (w : World) : Prop :=
  match w.consumer with
  | .loadTail _ | .checkCached _ _ | .refresh _ _ => w.held = h₀
  | .checkFresh _ _ => w.held = h₀ ∧ w.ring.cachedHead = w.ring.head
  | p => ∃ c, p.decided = some (c, min c.requested h₀)

theorem alonePush_of_decided {w : World} {c : PushCall} {h₀ k : ℕ}
    (hd : w.producer.decided = some (c, k)) (hk : k = min c.requested (w.ring.cap - h₀)) :
    AlonePush h₀ w := by
  unfold AlonePush
  split
  all_goals first
    | exact ⟨c, by rw [hd, hk]⟩
    | (rename_i hp
       rw [hp] at hd
       cases hd)

theorem alonePop_of_decided {w : World} {c : PopCall} {h₀ k : ℕ}
    (hd : w.consumer.decided = some (c, k)) (hk : k = min c.requested h₀) :
    AlonePop h₀ w := by
  unfold AlonePop
  split
  all_goals first
    | exact ⟨c, by rw [hd, hk]⟩
    | (rename_i hp
       rw [hp] at hd
       cases hd)

/-- The cached tail never promises more room than there is. -/
theorem Counters.remaining_le {w : World} {ct ch : ℕ} (h : Counters w ct ch) :
    (w.ring.remaining w.ring.head).toNat ≤ w.ring.cap - w.held := by
  have := h.ct_le
  rw [h.toNat_remaining, World.held]
  omega

theorem Counters.avail_le {w : World} {ct ch : ℕ} (h : Counters w ct ch) :
    (w.ring.avail w.ring.tail).toNat ≤ w.held := by
  have := h.ch_le
  rw [h.toNat_avail, World.held]
  omega

theorem alonePush_producerStep {w w' : World} {ct ch h₀ : ℕ} (h : Counters w ct ch)
    (ha : AlonePush h₀ w) (hs : producerStep w 0 = some w') : AlonePush h₀ w' := by
  have hprod := h.producer
  unfold AlonePush at ha
  cases producerMove_of_step hs with
  | loadHead c hp => rw [hp] at ha; exact ha
  | checkCached c head hp =>
      rw [hp] at ha hprod
      obtain rfl : head = w.ring.head := hprod
      have hle := h.remaining_le
      rcases SpscRing.decided_pushCheckCached h c with hr | ⟨hd, hreq⟩
      · rw [hr]
        exact ha
      · refine alonePush_of_decided hd ?_
        simp only at ha
        rw [← ha]
        exact (Nat.min_eq_left (hreq.trans hle)).symm
  | refresh c head tail hp htail =>
      rw [hp] at ha
      obtain ⟨n, -, -, rfl, hcur, -⟩ := h.tailSince.load htail
      refine ⟨ha, ?_⟩
      rw [hcur rfl]
      exact h.tail.symm
  | checkFresh c head hp =>
      rw [hp] at ha hprod
      obtain rfl : head = w.ring.head := hprod
      refine alonePush_of_decided (SpscRing.decided_pushCheckFresh h c) ?_
      have := h.held_add_remaining ha.2
      have := ha.1
      congr 1
      change _ = w.ring.cap - h₀
      omega
  | nextPiece _ _ _ _ _ _ hp | copyByte _ _ _ _ _ _ _ hp | storeHead _ _ _ hp =>
      rw [hp] at ha
      exact ha

theorem alonePop_consumerStep {w w' : World} {ct ch h₀ : ℕ} (h : Counters w ct ch)
    (ha : AlonePop h₀ w) (hs : consumerStep w 0 = some w') : AlonePop h₀ w' := by
  have hcons := h.consumer
  unfold AlonePop at ha
  cases consumerMove_of_step hs with
  | loadTail c hp => rw [hp] at ha; exact ha
  | checkCached c tail hp =>
      rw [hp] at ha hcons
      obtain rfl : tail = w.ring.tail := hcons
      have hle := h.avail_le
      rcases SpscRing.decided_popCheckCached h c with hr | ⟨hd, hreq⟩
      · rw [hr]
        exact ha
      · refine alonePop_of_decided hd ?_
        simp only at ha
        rw [← ha]
        exact (Nat.min_eq_left (hreq.trans hle)).symm
  | refresh c tail head hp hhead =>
      rw [hp] at ha
      obtain ⟨n, -, -, rfl, hcur, -⟩ := h.headSince.load hhead
      refine ⟨ha, ?_⟩
      rw [hcur rfl]
      exact h.head.symm
  | checkFresh c tail hp =>
      rw [hp] at ha hcons
      obtain rfl : tail = w.ring.tail := hcons
      refine alonePop_of_decided (SpscRing.decided_popCheckFresh h c) ?_
      rw [← h.held_eq_avail ha.2, ha.1]
  | nextPiece _ _ _ _ _ _ _ hp | copyByte _ _ _ _ _ _ _ _ hp | storeTail _ _ _ _ hp =>
      rw [hp] at ha
      exact ha

/-! ### The span of a call -/

/-- The call `c` was entered in `w₁`, in some state of some run on `r`, and it
has returned `ret` after the actions `during`. -/
structure PushSpan (r : SpscRing) (c : PushCall) (w₁ : World) (during : List Action)
    (ret : Return) : Prop where
  entered : ∃ before w₀, exec step (World.start r) before = some w₀ ∧ enterPush w₀ c = some w₁
  current : ∀ a ∈ during, a.Current
  keeps : ∀ a ∈ during, a.KeepsPush
  returned : ∃ w₂, exec step w₁ during = some w₂ ∧ w₂.producer = .returned c ret

/-- The same for a pop, whose buffer is `out` when it has returned. -/
structure PopSpan (r : SpscRing) (c : PopCall) (w₁ : World) (during : List Action)
    (ret : Return) (out : ℕ → Byte) : Prop where
  entered : ∃ before w₀, exec step (World.start r) before = some w₀ ∧ enterPop w₀ c = some w₁
  current : ∀ a ∈ during, a.Current
  keeps : ∀ a ∈ during, a.KeepsPop
  returned : ∃ w₂, exec step w₁ during = some w₂ ∧ w₂.consumer = .returned c ret out

section Span

variable {alignedAlloc : Bool} {malloc : Size → Option (ℕ → Byte)} {capacity elemSize : Size}
  {r : SpscRing} {w₁ : World} {during : List Action} {ret : Return}

theorem PushSpan.counters {c : PushCall} (h : PushSpan r c w₁ during ret)
    (hr : spscRingCreate alignedAlloc malloc capacity elemSize = some r) :
    ∃ ct ch, Counters w₁ ct ch := by
  obtain ⟨before, w₀, hw₀, hc⟩ := h.entered
  exact counters_step w₀ (.push c) w₁ (counters_exec hr hw₀) hc

theorem PopSpan.counters {c : PopCall} {out : ℕ → Byte} (h : PopSpan r c w₁ during ret out)
    (hr : spscRingCreate alignedAlloc malloc capacity elemSize = some r) :
    ∃ ct ch, Counters w₁ ct ch := by
  obtain ⟨before, w₀, hw₀, hc⟩ := h.entered
  exact counters_step w₀ (.pop c) w₁ (counters_exec hr hw₀) hc

/-- A push that transfers `k` elements, fewer than requested, saw a ring with no
more than `k` free slots. -/
theorem PushSpan.visits_of_short {c : PushCall} (h : PushSpan r c w₁ during ret)
    (hr : spscRingCreate alignedAlloc malloc capacity elemSize = some r)
    (hshort : ret.transferred < c.requested) :
    Visits step w₁ during fun u => u.held + ret.transferred = u.ring.cap := by
  obtain ⟨before, w₀, -, hc⟩ := h.entered
  obtain ⟨w₂, hw₂, hret⟩ := h.returned
  refine visits_of_entry (W := ShortPush ret.transferred) (fun u a u' _ => counters_step u a u')
    shortPush_entry (Steps.of_forall_mem h.current) hw₂ (h.counters hr) (fun hstart => ?_) ?_
  · rw [enterPush_eq_some hc] at hstart
    simp [ShortPush, Producer.decided] at hstart
  · exact (shortPush_iff_of_decided (by rw [hret]; rfl)).mpr ⟨rfl, hshort⟩

/-- A pop that takes `k` elements, fewer than requested, saw a ring with just
those in it. -/
theorem PopSpan.visits_of_short {c : PopCall} {out : ℕ → Byte}
    (h : PopSpan r c w₁ during ret out)
    (hr : spscRingCreate alignedAlloc malloc capacity elemSize = some r)
    (hshort : ret.transferred < c.requested) :
    Visits step w₁ during fun u => u.held = ret.transferred := by
  obtain ⟨before, w₀, -, hc⟩ := h.entered
  obtain ⟨w₂, hw₂, hret⟩ := h.returned
  refine visits_of_entry (W := ShortPop ret.transferred) (fun u a u' _ => counters_step u a u')
    shortPop_entry (Steps.of_forall_mem h.current) hw₂ (h.counters hr) (fun hstart => ?_) ?_
  · rw [enterPop_eq_some hc] at hstart
    simp [ShortPop, Consumer.decided] at hstart
  · exact (shortPop_iff_of_decided (by rw [hret]; rfl)).mpr ⟨rfl, hshort⟩

theorem PushSpan.leavesRing {c : PushCall} (h : PushSpan r c w₁ during ret)
    (hr : spscRingCreate alignedAlloc malloc capacity elemSize = some r)
    (hnone : ret.transferred = 0) : LeavesRing w₁ during Action.OfProducer := by
  intro bs a u u' hbs hu hs ha
  obtain ⟨w₂, hw₂, hret⟩ := h.returned
  obtain ⟨cs, rfl⟩ := hbs
  have hkeeps : ∀ b ∈ a :: cs, b.KeepsPush := fun b hb => h.keeps b (by
    rw [List.append_assoc]
    exact List.mem_append_right _ hb)
  rw [List.append_assoc] at hw₂
  have hrest := exec_after hu hw₂
  cases a with
  | push d => exact (hkeeps _ List.mem_cons_self).elim
  | pop d => exact ha.elim
  | consumer back => exact ha.elim
  | producer back =>
      obtain ⟨ct, ch, hc⟩ := counters_after (h.counters hr) hu
      rcases hc.sameRing_producerStep hs with hsame | ⟨d, k, hd, hk⟩
      · exact hsame
      · have hend := exec_decided_push hkeeps hrest hd
        rw [hret] at hend
        cases hend
        exact absurd hnone hk

theorem PopSpan.leavesRing {c : PopCall} {out : ℕ → Byte} (h : PopSpan r c w₁ during ret out)
    (hr : spscRingCreate alignedAlloc malloc capacity elemSize = some r)
    (hnone : ret.transferred = 0) : LeavesRing w₁ during Action.OfConsumer := by
  intro bs a u u' hbs hu hs ha
  obtain ⟨w₂, hw₂, hret⟩ := h.returned
  obtain ⟨cs, rfl⟩ := hbs
  have hkeeps : ∀ b ∈ a :: cs, b.KeepsPop := fun b hb => h.keeps b (by
    rw [List.append_assoc]
    exact List.mem_append_right _ hb)
  rw [List.append_assoc] at hw₂
  have hrest := exec_after hu hw₂
  cases a with
  | pop d => exact (hkeeps _ List.mem_cons_self).elim
  | push d => exact ha.elim
  | producer back => exact ha.elim
  | consumer back =>
      obtain ⟨ct, ch, hc⟩ := counters_after (h.counters hr) hu
      rcases hc.sameRing_consumerStep hs with hsame | ⟨d, k, hd, hk⟩
      · exact hsame
      · have hend := exec_decided_pop hkeeps hrest hd
        rw [hret] at hend
        cases hend
        exact absurd hnone hk

theorem PopSpan.out_eq {c : PopCall} {out : ℕ → Byte} (h : PopSpan r c w₁ during ret out)
    (hr : spscRingCreate alignedAlloc malloc capacity elemSize = some r)
    (hnone : ret.transferred = 0) : out = c.buffer := by
  obtain ⟨before, w₀, -, hc⟩ := h.entered
  obtain ⟨w₂, hw₂, hret⟩ := h.returned
  have hstart : OutKept w₁ := by
    rw [enterPop_eq_some hc]
    trivial
  have hkept := (exec_invariant outKept_step hw₂ ⟨h.counters hr, hstart⟩).2
  simp only [OutKept, hret] at hkept
  exact hkept hnone

theorem PushSpan.transferred_of_alone {c : PushCall} (h : PushSpan r c w₁ during ret)
    (hr : spscRingCreate alignedAlloc malloc capacity elemSize = some r)
    (halone : ∀ a ∈ during, a = .producer 0) :
    ret.transferred = min c.requested (w₁.ring.cap - w₁.held) := by
  obtain ⟨before, w₀, -, hc⟩ := h.entered
  obtain ⟨w₂, hw₂, hret⟩ := h.returned
  have hstart : AlonePush w₁.held w₁ := by
    rw [enterPush_eq_some hc]
    rfl
  have hend := exec_invariant_on
    (I := fun w => (∃ ct ch, Counters w ct ch) ∧ AlonePush w₁.held w) (fun u a u' ha hu hs => by
      obtain ⟨⟨ct, ch, hcount⟩, hu⟩ := hu
      rw [ha] at hs
      exact ⟨counters_step u _ u' ⟨ct, ch, hcount⟩ hs, alonePush_producerStep hcount hu hs⟩)
    halone hw₂ ⟨h.counters hr, hstart⟩
  have hcap : w₂.ring.cap = w₁.ring.cap := congrArg BitVec.toNat (exec_layout hw₂).capacity
  simp only [AlonePush, hret, hcap] at hend
  obtain ⟨-, d, hd⟩ := hend
  simp only [Producer.decided, Option.some.injEq, Prod.mk.injEq] at hd
  obtain ⟨rfl, hk⟩ := hd
  exact hk

theorem PopSpan.transferred_of_alone {c : PopCall} {out : ℕ → Byte}
    (h : PopSpan r c w₁ during ret out)
    (hr : spscRingCreate alignedAlloc malloc capacity elemSize = some r)
    (halone : ∀ a ∈ during, a = .consumer 0) :
    ret.transferred = min c.requested w₁.held := by
  obtain ⟨before, w₀, -, hc⟩ := h.entered
  obtain ⟨w₂, hw₂, hret⟩ := h.returned
  have hstart : AlonePop w₁.held w₁ := by
    rw [enterPop_eq_some hc]
    rfl
  have hend := exec_invariant_on
    (I := fun w => (∃ ct ch, Counters w ct ch) ∧ AlonePop w₁.held w) (fun u a u' ha hu hs => by
      obtain ⟨⟨ct, ch, hcount⟩, hu⟩ := hu
      rw [ha] at hs
      exact ⟨counters_step u _ u' ⟨ct, ch, hcount⟩ hs, alonePop_consumerStep hcount hu hs⟩)
    halone hw₂ ⟨h.counters hr, hstart⟩
  simp only [AlonePop, hret] at hend
  obtain ⟨-, d, hd⟩ := hend
  simp only [Consumer.decided, Option.some.injEq, Prod.mk.injEq] at hd
  obtain ⟨rfl, hk⟩ := hd
  exact hk

end Span

/-- **Refusals are justified.** A push that returns `-1` saw a full ring at some
instant of the call, one that accepts `k` of `n` elements saw exactly `k` free
slots; a pop that returns `-1` saw an empty ring, one that takes `k` of `n`
elements saw exactly those `k`. A call that transfers nothing writes neither the
ring nor the caller's buffer. A call that runs alone transfers as much as the
ring allows. -/
theorem spsc_refusals_justified {alignedAlloc : Bool} {malloc : Size → Option (ℕ → Byte)}
    {capacity elemSize : Size} {r : SpscRing}
    (hr : spscRingCreate alignedAlloc malloc capacity elemSize = some r) :
    (∀ c w₁ during ret, PushSpan r c w₁ during ret →
      (∀ e, c = .push e → ret = .int (-1) →
        Visits step w₁ during fun u => u.held = u.ring.cap) ∧
      (∀ e n k, c = .pushN e n → ret = .size k → k < n →
        Visits step w₁ during fun u => u.held + k.toNat = u.ring.cap) ∧
      (ret.transferred = 0 → LeavesRing w₁ during Action.OfProducer) ∧
      ((∀ a ∈ during, a = .producer 0) →
        ret.transferred = min c.requested (w₁.ring.cap - w₁.held))) ∧
    (∀ c w₁ during ret out, PopSpan r c w₁ during ret out →
      (∀ e, c = .pop e → ret = .int (-1) → Visits step w₁ during fun u => u.held = 0) ∧
      (∀ e n k, c = .popN e n → ret = .size k → k < n →
        Visits step w₁ during fun u => u.held = k.toNat) ∧
      (ret.transferred = 0 → LeavesRing w₁ during Action.OfConsumer ∧ out = c.buffer) ∧
      ((∀ a ∈ during, a = .consumer 0) → ret.transferred = min c.requested w₁.held)) := by
  constructor
  · intro c w₁ during ret h
    refine ⟨?_, ?_, h.leavesRing hr, h.transferred_of_alone hr⟩
    · rintro e rfl rfl
      exact h.visits_of_short hr Nat.zero_lt_one
    · rintro e n k rfl rfl hk
      exact h.visits_of_short hr hk
  · intro c w₁ during ret out h
    refine ⟨?_, ?_, fun hnone => ⟨h.leavesRing hr hnone, h.out_eq hr hnone⟩,
      h.transferred_of_alone hr⟩
    · rintro e rfl rfl
      exact h.visits_of_short hr Nat.zero_lt_one
    · rintro e n k rfl rfl hk
      exact h.visits_of_short hr hk

def fillTwo : List Action :=
  .push (.pushN (fun i => BitVec.ofNat 8 i) 5) :: List.replicate 8 (.producer 0)

/-- A push on the full ring, and a batch pop on the fresh one. -/
theorem spsc_refusals_justified_fillTwo :
    ∃ r w₁ v₁, spscRingCreate true (fun _ => some fun _ => 0) 2 1 = some r ∧
      exec step (World.start r) (fillTwo ++ [.push (.push fun _ => 7)]) = some w₁ ∧
      Visits step w₁ (List.replicate 4 (.producer 0)) (fun u => u.held = u.ring.cap) ∧
      exec step (World.start r) [.pop (.popN (fun _ => 9) 3)] = some v₁ ∧
      Visits step v₁ (List.replicate 4 (.consumer 0)) (fun u => u.held = 0) := by
  have hr : spscRingCreate true (fun _ => some fun _ => 0) 2 1 = some _ := rfl
  have hpush := ((spsc_refusals_justified hr).1 (.push fun _ => 7) _
    (List.replicate 4 (.producer 0)) (.int (-1))
    ⟨⟨fillTwo, _, rfl, rfl⟩, fun a ha => List.eq_of_mem_replicate ha ▸ rfl,
      fun a ha => List.eq_of_mem_replicate ha ▸ trivial, _, rfl, rfl⟩).1 _ rfl rfl
  have hpop := ((spsc_refusals_justified hr).2 (.popN (fun _ => 9) 3) _
    (List.replicate 4 (.consumer 0)) (.size 0) (fun _ => 9)
    ⟨⟨[], _, rfl, rfl⟩, fun a ha => List.eq_of_mem_replicate ha ▸ rfl,
      fun a ha => List.eq_of_mem_replicate ha ▸ trivial, _, rfl, rfl⟩).2.1 _ 3 0 rfl rfl (by decide)
  exact ⟨_, _, _, hr, rfl, hpush, rfl, hpop⟩

end SystemsPrep.Spsc
