import SystemsPrep.Base.Simulation
import SystemsPrep.Spsc.Admission

/-!
The calls of an SPSC ring are wait-free.

No step of a call waits for the other side: a call that finds no room or no element
gives up instead. So a call returns after a number of its own steps that depends only
on what it was asked to transfer, whatever the other side does meanwhile.
-/

namespace SystemsPrep.Spsc

open Base

/-! ### The steps a call has left -/

/-- The steps of a transfer that has these copies to make: one for each byte, one for
the end of each copy, and the store of the index. -/
def copyLeft (ms : List Memcpy) : ℕ := (moves ms).length + ms.length + 1

def copyMost (requested esize : ℕ) : ℕ := requested * esize + 3

/-- The most steps the producer's call may still take. -/
def Producer.left (esize : ℕ) : Producer → ℕ
  | .idle | .returned _ _ => 0
  | .loadHead c => copyMost c.requested esize + 4
  | .checkCached c _ => copyMost c.requested esize + 3
  | .refresh c _ => copyMost c.requested esize + 2
  | .checkFresh c _ => copyMost c.requested esize + 1
  | .copy _ _ _ ms => copyLeft ms

def Consumer.left (esize : ℕ) : Consumer → ℕ
  | .idle | .returned _ _ _ => 0
  | .loadTail c => copyMost c.requested esize + 4
  | .checkCached c _ => copyMost c.requested esize + 3
  | .refresh c _ => copyMost c.requested esize + 2
  | .checkFresh c _ => copyMost c.requested esize + 1
  | .copy _ _ _ ms _ => copyLeft ms

def Producer.call? : Producer → Option PushCall
  | .idle => none
  | .loadHead c | .checkCached c _ | .refresh c _ | .checkFresh c _ | .copy c _ _ _
  | .returned c _ => some c

def Consumer.call? : Consumer → Option PopCall
  | .idle => none
  | .loadTail c | .checkCached c _ | .refresh c _ | .checkFresh c _ | .copy c _ _ _ _
  | .returned c _ _ => some c

theorem copyLeft_nextPiece (o u : ℕ) (ms : List Memcpy) :
    copyLeft ms < copyLeft (⟨o, u, 0⟩ :: ms) := by
  simp only [copyLeft, moves_cons, bytes_zero, List.nil_append, List.length_cons]
  omega

theorem copyLeft_copyByte (o u l : ℕ) (ms : List Memcpy) :
    copyLeft (⟨o + 1, u + 1, l⟩ :: ms) < copyLeft (⟨o, u, l + 1⟩ :: ms) := by
  simp only [copyLeft, moves_cons, bytes_succ, List.cons_append, List.length_cons]
  omega

theorem Pending.length_moves {size base b total : ℕ} {ms : List Memcpy}
    (h : Pending size base b total ms) : (moves ms).length = total - b := by
  rw [h.moves_eq, List.length_map, List.length_range']

theorem Pending.copyLeft_le {size base b esize requested : ℕ} {n : Size} {ms : List Memcpy}
    (h : Pending size base b (n.toNat * esize) ms) (ha : Admitted requested n ms) :
    copyLeft ms ≤ copyMost requested esize := by
  have hbytes : n.toNat * esize ≤ requested * esize := Nat.mul_le_mul_right _ ha.le
  have hlen := h.length_moves
  have := ha.pieces
  rw [copyLeft, copyMost, hlen]
  omega

section Steps

variable {cap esize : ℕ} {w w' : World} {back : ℕ}

theorem InOrder.producer_copyLeft_le (h : InOrder cap esize w) {c : PushCall} {head n : Size}
    {ms : List Memcpy} (hp : w.producer = .copy c head n ms) :
    copyLeft ms ≤ copyMost c.requested esize := by
  have hbytes := h.contents.producer
  have hadm := h.producer
  rw [hp] at hbytes hadm
  obtain ⟨b, hpend, -⟩ := hbytes
  rw [h.esize] at hpend
  exact hpend.copyLeft_le hadm

theorem InOrder.consumer_copyLeft_le (h : InOrder cap esize w) {c : PopCall} {tail n : Size}
    {ms : List Memcpy} {out : ℕ → Byte} (hp : w.consumer = .copy c tail n ms out) :
    copyLeft ms ≤ copyMost c.requested esize := by
  have hbytes := h.contents.consumer
  have hadm := h.consumer
  rw [hp] at hbytes hadm
  obtain ⟨b, hpend, -⟩ := hbytes
  rw [h.esize] at hpend
  exact hpend.copyLeft_le hadm

/-- Every step of the producer brings its call nearer to its end. -/
theorem left_producerStep (h : InOrder cap esize w) (hs : producerStep w back = some w') :
    w'.producer.left esize < w.producer.left esize := by
  have h' : InOrder cap esize w' := inOrder_step (a := .producer back) h hs
  cases producerMove_of_step hs with
  | loadHead c hp | refresh c _ _ hp =>
      rw [hp]
      exact Nat.lt_succ_self _
  | checkCached c head hp =>
      rw [hp]
      obtain hr | ⟨n, ms, -, hr⟩ | ⟨-, hr⟩ := pushCheckCached_cases w.ring c head
      · rw [hr]
        exact Nat.lt_succ_self _
      · have hle := h'.producer_copyLeft_le hr
        rw [hr]
        simp only [Producer.left]
        omega
      · rw [hr]
        exact Nat.succ_pos _
  | checkFresh c head hp =>
      rw [hp]
      obtain ⟨n, ms, -, hr⟩ | hr := pushCheckFresh_cases w.ring c head
      · have hle := h'.producer_copyLeft_le hr
        rw [hr]
        exact Nat.lt_succ_of_le hle
      · rw [hr]
        exact Nat.succ_pos _
  | nextPiece c head n o u ms hp =>
      rw [hp]
      exact copyLeft_nextPiece o u ms
  | copyByte c head n o u l ms hp =>
      rw [hp]
      exact copyLeft_copyByte o u l ms
  | storeHead c head n hp =>
      rw [hp]
      exact Nat.succ_pos _

theorem left_consumerStep (h : InOrder cap esize w) (hs : consumerStep w back = some w') :
    w'.consumer.left esize < w.consumer.left esize := by
  have h' : InOrder cap esize w' := inOrder_step (a := .consumer back) h hs
  cases consumerMove_of_step hs with
  | loadTail c hp | refresh c _ _ hp =>
      rw [hp]
      exact Nat.lt_succ_self _
  | checkCached c tail hp =>
      rw [hp]
      obtain hr | ⟨n, ms, -, hr⟩ | ⟨-, hr⟩ := popCheckCached_cases w.ring c tail
      · rw [hr]
        exact Nat.lt_succ_self _
      · have hle := h'.consumer_copyLeft_le hr
        rw [hr]
        simp only [Consumer.left]
        omega
      · rw [hr]
        exact Nat.succ_pos _
  | checkFresh c tail hp =>
      rw [hp]
      obtain ⟨n, ms, -, hr⟩ | hr := popCheckFresh_cases w.ring c tail
      · have hle := h'.consumer_copyLeft_le hr
        rw [hr]
        exact Nat.lt_succ_of_le hle
      · rw [hr]
        exact Nat.succ_pos _
  | nextPiece c tail n o u ms out hp =>
      rw [hp]
      exact copyLeft_nextPiece o u ms
  | copyByte c tail n o u l ms out hp =>
      rw [hp]
      exact copyLeft_copyByte o u l ms
  | storeTail c tail n out hp =>
      rw [hp]
      exact Nat.succ_pos _

theorem call_producerStep (hs : producerStep w back = some w') :
    w'.producer.call? = w.producer.call? := by
  cases producerMove_of_step hs with
  | loadHead c hp | refresh c _ _ hp | nextPiece c _ _ _ _ _ hp | copyByte c _ _ _ _ _ _ hp
  | storeHead c _ _ hp =>
      rw [hp]
      rfl
  | checkCached c head hp =>
      rw [hp]
      obtain hr | ⟨n, ms, -, hr⟩ | ⟨-, hr⟩ := pushCheckCached_cases w.ring c head <;> rw [hr] <;>
        rfl
  | checkFresh c head hp =>
      rw [hp]
      obtain ⟨n, ms, -, hr⟩ | hr := pushCheckFresh_cases w.ring c head <;> rw [hr] <;> rfl

theorem call_consumerStep (hs : consumerStep w back = some w') :
    w'.consumer.call? = w.consumer.call? := by
  cases consumerMove_of_step hs with
  | loadTail c hp | refresh c _ _ hp | nextPiece c _ _ _ _ _ _ hp | copyByte c _ _ _ _ _ _ _ hp
  | storeTail c _ _ _ hp =>
      rw [hp]
      rfl
  | checkCached c tail hp =>
      rw [hp]
      obtain hr | ⟨n, ms, -, hr⟩ | ⟨-, hr⟩ := popCheckCached_cases w.ring c tail <;> rw [hr] <;>
        rfl
  | checkFresh c tail hp =>
      rw [hp]
      obtain ⟨n, ms, -, hr⟩ | hr := popCheckFresh_cases w.ring c tail <;> rw [hr] <;> rfl

/-- The producer's next step does not wait for the consumer: a call that has not
returned can always go on. -/
theorem InOrder.returned_or_producerStep (h : InOrder cap esize w) {c : PushCall}
    (hc : w.producer.call? = some c) :
    (∃ ret, w.producer = .returned c ret) ∨ (producerStep w 0).isSome := by
  obtain ⟨ct, ch, hcount⟩ := h.counters
  cases hp : w.producer with
  | idle =>
      rw [hp] at hc
      cases hc
  | returned d ret =>
      rw [hp] at hc
      cases hc
      exact Or.inl ⟨ret, rfl⟩
  | refresh d head =>
      obtain ⟨v, hv⟩ := hcount.tailSince.exists_current
      exact Or.inr (by simp only [producerStep, hp, hv, Option.map_some, Option.isSome_some])
  | copy d head n ms =>
      rcases ms with - | ⟨⟨o, u, - | l⟩, ms⟩ <;>
        exact Or.inr (by simp only [producerStep, hp, Option.isSome_some])
  | loadHead | checkCached | checkFresh =>
      exact Or.inr (by simp only [producerStep, hp, Option.isSome_some])

theorem InOrder.returned_or_consumerStep (h : InOrder cap esize w) {c : PopCall}
    (hc : w.consumer.call? = some c) :
    (∃ ret out, w.consumer = .returned c ret out) ∨ (consumerStep w 0).isSome := by
  obtain ⟨ct, ch, hcount⟩ := h.counters
  cases hp : w.consumer with
  | idle =>
      rw [hp] at hc
      cases hc
  | returned d ret out =>
      rw [hp] at hc
      cases hc
      exact Or.inl ⟨ret, out, rfl⟩
  | refresh d tail =>
      obtain ⟨v, hv⟩ := hcount.headSince.exists_current
      exact Or.inr (by simp only [consumerStep, hp, hv, Option.map_some, Option.isSome_some])
  | copy d tail n ms out =>
      rcases ms with - | ⟨⟨o, u, - | l⟩, ms⟩ <;>
        exact Or.inr (by simp only [consumerStep, hp, Option.isSome_some])
  | loadTail | checkCached | checkFresh =>
      exact Or.inr (by simp only [consumerStep, hp, Option.isSome_some])

end Steps

/-! ### Whole runs -/

def Action.isProducer : Action → Bool
  | .producer _ => true
  | _ => false

def Action.isConsumer : Action → Bool
  | .consumer _ => true
  | _ => false

section Runs

variable {cap esize : ℕ} {w w' : World} {as : List Action}

theorem producer_steps_le (h : InOrder cap esize w) (hkeeps : ∀ a ∈ as, a.KeepsPush)
    (hw : exec step w as = some w') :
    as.countP Action.isProducer + w'.producer.left esize ≤ w.producer.left esize := by
  refine countP_add_rank_le (A := Action.KeepsPush) (I := InOrder cap esize)
    (f := fun u => u.producer.left esize) (fun _ _ _ h hs => inOrder_step h hs) ?_ hkeeps h hw
  intro u a u' ha hu hs
  cases a with
  | push c => exact ha.elim
  | producer back =>
      have hlt := left_producerStep hu hs
      exact (Nat.add_comm ..).trans_le hlt
  | pop c =>
      rw [enterPop_eq_some hs]
      exact (Nat.zero_add _).le
  | consumer back =>
      rw [(consumerStep_frame hs).1]
      exact (Nat.zero_add _).le

theorem consumer_steps_le (h : InOrder cap esize w) (hkeeps : ∀ a ∈ as, a.KeepsPop)
    (hw : exec step w as = some w') :
    as.countP Action.isConsumer + w'.consumer.left esize ≤ w.consumer.left esize := by
  refine countP_add_rank_le (A := Action.KeepsPop) (I := InOrder cap esize)
    (f := fun u => u.consumer.left esize) (fun _ _ _ h hs => inOrder_step h hs) ?_ hkeeps h hw
  intro u a u' ha hu hs
  cases a with
  | pop c => exact ha.elim
  | consumer back =>
      have hlt := left_consumerStep hu hs
      exact (Nat.add_comm ..).trans_le hlt
  | push c =>
      rw [enterPush_eq_some hs]
      exact (Nat.zero_add _).le
  | producer back =>
      rw [(producerStep_frame hs).1]
      exact (Nat.zero_add _).le

theorem producer_call_after (hkeeps : ∀ a ∈ as, a.KeepsPush) (hw : exec step w as = some w') :
    w'.producer.call? = w.producer.call? := by
  refine exec_invariant_on (A := Action.KeepsPush)
    (I := fun u => u.producer.call? = w.producer.call?) ?_ hkeeps hw rfl
  intro u a u' ha hu hs
  rw [← hu]
  cases a with
  | push c => exact ha.elim
  | producer back => exact call_producerStep hs
  | pop c => rw [enterPop_eq_some hs]
  | consumer back => rw [(consumerStep_frame hs).1]

theorem consumer_call_after (hkeeps : ∀ a ∈ as, a.KeepsPop) (hw : exec step w as = some w') :
    w'.consumer.call? = w.consumer.call? := by
  refine exec_invariant_on (A := Action.KeepsPop)
    (I := fun u => u.consumer.call? = w.consumer.call?) ?_ hkeeps hw rfl
  intro u a u' ha hu hs
  rw [← hu]
  cases a with
  | pop c => exact ha.elim
  | consumer back => exact call_consumerStep hs
  | push c => rw [enterPush_eq_some hs]
  | producer back => rw [(producerStep_frame hs).1]

end Runs

/-- **Wait-freedom.** From any state that a run on a created ring reaches, a call takes at
most one step for each byte it was asked to transfer and seven more, however many steps
the other side takes in between and however old the values are that its loads return;
until it has returned its next step is possible. -/
theorem spsc_waitFree {alignedAlloc : Bool} {malloc : Size → Option (ℕ → Byte)}
    {capacity elemSize : Size} {r : SpscRing} {before during : List Action} {w₀ w₁ w₂ : World}
    (hr : spscRingCreate alignedAlloc malloc capacity elemSize = some r)
    (hfits : capacity.toNat * elemSize.toNat < 2 ^ 64)
    (hw₀ : exec step (World.start r) before = some w₀) (hw₂ : exec step w₁ during = some w₂) :
    (∀ c : PushCall, enterPush w₀ c = some w₁ → (∀ a ∈ during, a.KeepsPush) →
      during.countP Action.isProducer ≤ c.requested * elemSize.toNat + 7 ∧
        ((∃ ret, w₂.producer = .returned c ret) ∨ (producerStep w₂ 0).isSome)) ∧
    ∀ c : PopCall, enterPop w₀ c = some w₁ → (∀ a ∈ during, a.KeepsPop) →
      during.countP Action.isConsumer ≤ c.requested * elemSize.toNat + 7 ∧
        ((∃ ret out, w₂.consumer = .returned c ret out) ∨ (consumerStep w₂ 0).isSome) := by
  have h₀ : InOrder capacity.toNat elemSize.toNat w₀ := inOrder_after (inOrder_start hr hfits) hw₀
  refine ⟨fun c hc hkeeps => ?_, fun c hc hkeeps => ?_⟩
  · have h₁ := inOrder_step (a := .push c) h₀ hc
    have hsteps := producer_steps_le h₁ hkeeps hw₂
    have hcall := producer_call_after hkeeps hw₂
    rw [enterPush_eq_some hc] at hsteps hcall
    refine ⟨?_, (inOrder_after h₁ hw₂).returned_or_producerStep hcall⟩
    simp only [Producer.left, copyMost] at hsteps
    omega
  · have h₁ := inOrder_step (a := .pop c) h₀ hc
    have hsteps := consumer_steps_le h₁ hkeeps hw₂
    have hcall := consumer_call_after hkeeps hw₂
    rw [enterPop_eq_some hc] at hsteps hcall
    refine ⟨?_, (inOrder_after h₁ hw₂).returned_or_consumerStep hcall⟩
    simp only [Consumer.left, copyMost] at hsteps
    omega

def beforeWrappingPush : List Action :=
  [.push (.push fun _ => 5), .producer 0, .producer 0, .producer 0, .producer 0, .producer 0,
    .pop (.pop fun _ => 0), .consumer 0, .consumer 0, .consumer 0, .consumer 0, .consumer 0,
    .consumer 0, .consumer 0]

def wrappingPush : List Action :=
  [.producer 0, .producer 0, .pop (.pop fun _ => 0), .producer 0, .producer 0, .consumer 0,
    .producer 0, .producer 0, .producer 0, .producer 0, .producer 0]

theorem spsc_waitFree_wrappingPush :
    ∃ r w₀ w₁ w₂, spscRingCreate true (fun _ => some fun _ => 0) 2 1 = some r ∧
      exec step (World.start r) beforeWrappingPush = some w₀ ∧
      enterPush w₀ (.pushN (fun _ => 7) 2) = some w₁ ∧ exec step w₁ wrappingPush = some w₂ ∧
      wrappingPush.countP Action.isProducer = 2 * 1 + 7 ∧
      wrappingPush.countP Action.isProducer ≤ 2 * 1 + 7 :=
  ⟨_, _, _, _, rfl, rfl, rfl, rfl, rfl,
    ((@spsc_waitFree true (fun _ => some fun _ => 0) 2 1 _ beforeWrappingPush wrappingPush _ _ _
      rfl (by decide) rfl rfl).1 (.pushN (fun _ => 7) 2) rfl
        (by simp [wrappingPush, Action.KeepsPush])).1⟩

end SystemsPrep.Spsc
