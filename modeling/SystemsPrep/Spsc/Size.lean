import SystemsPrep.Base.Snapshot
import SystemsPrep.Spsc.Refusal

/-!
The size of an SPSC ring, as a thread reads it.

`spsc_ring_size` loads the head and then the tail. The other threads may publish and
take elements in between, and the subtraction is unsigned. The result is the number of
elements the ring held at some moment of the call, unless an element is taken after
another one has been published since the first load.
-/

namespace SystemsPrep.Spsc

open Base

/-- `spsc_ring_size`, with the ring at its first and at its second load. -/
def spscRingSize (first second : SpscRing) : Size := first.head - second.tail

/-- `spsc_ring_empty`. -/
def spscRingEmpty (first second : SpscRing) : Bool := spscRingSize first second = 0

/-- `spsc_ring_full`. -/
def spscRingFull (first second : SpscRing) : Bool :=
  spscRingSize first second = second.capacity

/-- The thread that calls `spsc_ring_size`. -/
inductive Caller
  | producer
  | consumer
  | other

def Caller.Meanwhile : Caller → Action → Prop
  | .producer, .push _ | .producer, .producer _ => False
  | .consumer, .pop _ | .consumer, .consumer _ => False
  | _, _ => True

/-- A call of `spsc_ring_size` that loads the head in `w₁` and, after the actions
`during`, the tail in `w₂` returns a size that the ring had. -/
structure PastSize (w₁ : World) (during : List Action) (w₂ : World) : Prop where
  held : Visits step w₁ during fun u => u.held = (spscRingSize w₁.ring w₂.ring).toNat
  le_capacity : (spscRingSize w₁.ring w₂.ring).toNat ≤ w₁.ring.cap
  empty : spscRingEmpty w₁.ring w₂.ring = true → Visits step w₁ during fun u => u.held = 0
  full : spscRingFull w₁.ring w₂.ring = true → Visits step w₁ during fun u => u.held = w₁.ring.cap

/-- No element is taken once an element has been published after the first load. -/
def TakesFirst (w₁ : World) (during : List Action) : Prop :=
  Steps step (fun u _ u' => u.handed.length < u'.handed.length →
    u.accepted.length = w₁.accepted.length) w₁ during

instance (w₁ : World) (during : List Action) : Decidable (TakesFirst w₁ during) :=
  decidableSteps _ w₁ during

/-! ### The two counters -/

theorem step_published_or_taken {w w' : World} {a : Action} (h : step w a = some w') :
    w.accepted.length ≤ w'.accepted.length ∧ w.handed.length ≤ w'.handed.length ∧
      (w'.accepted.length = w.accepted.length ∨ w'.handed.length = w.handed.length) := by
  cases a with
  | push c =>
      rw [enterPush_eq_some h]
      exact ⟨le_rfl, le_rfl, Or.inl rfl⟩
  | pop c =>
      rw [enterPop_eq_some h]
      exact ⟨le_rfl, le_rfl, Or.inl rfl⟩
  | producer back =>
      refine ⟨?_, ?_, Or.inr (by rw [(producerStep_frame h).2.2.2])⟩
      · cases producerMove_of_step h <;> simp
      · rw [(producerStep_frame h).2.2.2]
  | consumer back =>
      obtain ⟨-, -, -, -, -, haccepted⟩ := consumerStep_frame h
      refine ⟨?_, ?_, Or.inl (by rw [haccepted])⟩
      · rw [haccepted]
      · cases consumerMove_of_step h <;> simp

theorem exec_accepted_le {w w' : World} {as : List Action} (h : exec step w as = some w') :
    w.accepted.length ≤ w'.accepted.length :=
  exec_le (f := fun w : World => w.accepted.length)
    (fun _ _ _ hs => (step_published_or_taken hs).1) h

theorem exec_handed_le {w w' : World} {as : List Action} (h : exec step w as = some w') :
    w.handed.length ≤ w'.handed.length :=
  exec_le (f := fun w : World => w.handed.length)
    (fun _ _ _ hs => (step_published_or_taken hs).2.1) h

/-- The head as first loaded and the tail as loaded later were current together. -/
abbrev Coincide (w₁ : World) (during : List Action) (w₂ : World) : Prop :=
  Together step (fun u => u.accepted.length) (fun u => u.handed.length) w₁ during w₂

theorem coincide_iff_takesFirst {w₁ w₂ : World} {during : List Action}
    (h : exec step w₁ during = some w₂) : Coincide w₁ during w₂ ↔ TakesFirst w₁ during :=
  together_iff_steps (fun _ _ _ hs => (step_published_or_taken hs).1)
    (fun _ _ _ hs => (step_published_or_taken hs).2.1)
    (fun _ _ _ hs => (step_published_or_taken hs).2.2) h

/-- The producer publishes nothing while it asks, and the consumer takes nothing. -/
theorem takesFirst_of_meanwhile {c : Caller} {w₁ : World} {during : List Action}
    (hc : ∀ a ∈ during, c.Meanwhile a) (hne : c ≠ .other) : TakesFirst w₁ during := by
  cases c with
  | producer =>
      -- the number of published elements stays as it was
      intro bs a u u' hbs hu hs _
      refine exec_invariant_on (A := Caller.Meanwhile .producer)
        (I := fun u => u.accepted.length = w₁.accepted.length) ?_
        (fun b hb => hc b (hbs.subset (List.mem_append_left _ hb))) hu rfl
      intro v b v' hb hv hs
      cases b with
      | push | producer => exact hb.elim
      | pop c =>
          rw [enterPop_eq_some hs]
          exact hv
      | consumer back =>
          rw [(consumerStep_frame hs).2.2.2.2.2]
          exact hv
  | consumer =>
      intro bs a u u' hbs hu hs hlt
      have ha : Caller.Meanwhile .consumer a := hc a (hbs.subset (by simp))
      cases a with
      | pop | consumer => exact ha.elim
      | push c =>
          rw [enterPush_eq_some hs] at hlt
          exact absurd hlt (lt_irrefl _)
      | producer back =>
          rw [(producerStep_frame hs).2.2.2] at hlt
          exact absurd hlt (lt_irrefl _)
  | other => exact absurd rfl hne

/-! ### What the call returns -/

section Span

variable {w₁ w₂ : World} {during : List Action}

theorem Counters.visited {u : World} {bs : List Action} (h₁ : ∃ ct ch, Counters w₁ ct ch)
    (hu : exec step w₁ bs = some u) :
    u.handed.length ≤ u.accepted.length ∧ u.accepted.length ≤ u.handed.length + w₁.ring.cap := by
  obtain ⟨ct, ch, hcount⟩ := counters_after h₁ hu
  have hcap : u.ring.cap = w₁.ring.cap := congrArg BitVec.toNat (exec_layout hu).capacity
  have := hcount.room
  have := hcount.ct_le
  exact ⟨hcount.handed_le, by omega⟩

theorem toNat_size (h₁ : ∃ ct ch, Counters w₁ ct ch) (h : exec step w₁ during = some w₂)
    (hle : w₂.handed.length ≤ w₁.accepted.length) :
    (spscRingSize w₁.ring w₂.ring).toNat = w₁.accepted.length - w₂.handed.length := by
  obtain ⟨-, hroom⟩ := Counters.visited h₁ (exec_nil w₁)
  have hmono : w₁.handed.length ≤ w₂.handed.length := exec_handed_le h
  obtain ⟨_, _, hcount₂⟩ := counters_after h₁ h
  obtain ⟨_, _, hcount₁⟩ := h₁
  have := w₁.ring.cap_lt
  rw [spscRingSize, hcount₁.head, hcount₂.tail, toNat_ofNat_sub hle (by omega)]

theorem PastSize.of_coincide (h₁ : ∃ ct ch, Counters w₁ ct ch)
    (h : exec step w₁ during = some w₂) (hvisit : Coincide w₁ during w₂) :
    PastSize w₁ during w₂ := by
  obtain ⟨bs, hbs, u, hu, haccepted, hhanded⟩ := hvisit
  obtain ⟨hle, hroom⟩ := Counters.visited h₁ hu
  simp only at haccepted hhanded
  have hsize : u.held = (spscRingSize w₁.ring w₂.ring).toNat := by
    rw [toNat_size h₁ h (by omega), World.held, haccepted, hhanded]
  have hcap : u.held ≤ w₁.ring.cap := by
    unfold World.held
    omega
  have hlayout : w₂.ring.capacity = w₁.ring.capacity := (exec_layout h).capacity
  refine ⟨⟨bs, hbs, u, hu, hsize⟩, hsize ▸ hcap, fun hempty => ⟨bs, hbs, u, hu, ?_⟩,
    fun hfull => ⟨bs, hbs, u, hu, ?_⟩⟩
  · change u.held = 0
    rw [hsize, of_decide_eq_true hempty]
    rfl
  · change u.held = w₁.ring.cap
    rw [hsize, of_decide_eq_true hfull, hlayout]
    rfl

/-- A size that the ring had, is the difference of two values that were current
together. -/
theorem PastSize.coincide (h₁ : ∃ ct ch, Counters w₁ ct ch) (h : exec step w₁ during = some w₂)
    (hwrap : w₂.handed.length + w₁.ring.cap < w₁.accepted.length + 2 ^ 64)
    (hpast : PastSize w₁ during w₂) : Coincide w₁ during w₂ := by
  obtain ⟨bs, ⟨cs, rfl⟩, u, hu, hheld⟩ := hpast.held
  obtain ⟨hle, hroom⟩ := Counters.visited h₁ hu
  have hpublished : w₁.accepted.length ≤ u.accepted.length := exec_accepted_le hu
  have htaken : u.handed.length ≤ w₂.handed.length := exec_handed_le (exec_after hu h)
  rcases Nat.lt_or_ge w₁.accepted.length w₂.handed.length with hlt | hge
  · -- the subtraction has wrapped, to a size beyond the capacity
    obtain ⟨_, _, hcount₂⟩ := counters_after h₁ h
    obtain ⟨_, _, hcount₁⟩ := h₁
    have hle_cap := hpast.le_capacity
    rw [spscRingSize, hcount₁.head, hcount₂.tail, toNat_ofNat_sub_of_lt hlt (by omega)] at hle_cap
    omega
  · rw [toNat_size h₁ h hge, World.held] at hheld
    refine ⟨bs, List.prefix_append bs cs, u, hu, ?_, ?_⟩
    · change u.accepted.length = w₁.accepted.length
      omega
    · change u.handed.length = w₂.handed.length
      omega

end Span

/-! ### Every call -/

/-- **The size is one the ring had exactly when no element is taken once another has been
published since the first load**, which the producer and the consumer can rely on when
they ask themselves. The converse is about calls during which fewer than
`2 ^ 64 - capacity` elements are taken. -/
theorem pastSize_iff_takesFirst {alignedAlloc : Bool} {malloc : Size → Option (ℕ → Byte)}
    {capacity elemSize : Size} {r : SpscRing}
    (hr : spscRingCreate alignedAlloc malloc capacity elemSize = some r)
    {before during : List Action} {w₁ w₂ : World}
    (h₁ : exec step (World.start r) before = some w₁)
    {c : Caller} (hc : ∀ a ∈ during, c.Meanwhile a)
    (h₂ : exec step w₁ during = some w₂) :
    ((c = .other → TakesFirst w₁ during) → PastSize w₁ during w₂) ∧
      (w₂.handed.length + w₁.ring.cap < w₁.accepted.length + 2 ^ 64 →
        (PastSize w₁ during w₂ ↔ (c = .other → TakesFirst w₁ during))) := by
  have hcount : ∃ ct ch, Counters w₁ ct ch := counters_exec hr h₁
  have henough (hcond : c = .other → TakesFirst w₁ during) : PastSize w₁ during w₂ := by
    have htakes : TakesFirst w₁ during := by
      by_cases hother : c = .other
      · exact hcond hother
      · exact takesFirst_of_meanwhile hc hother
    exact PastSize.of_coincide hcount h₂ ((coincide_iff_takesFirst h₂).mpr htakes)
  refine ⟨henough, fun hwrap => ⟨fun hpast _ => ?_, henough⟩⟩
  exact (coincide_iff_takesFirst h₂).mp (hpast.coincide hcount h₂ hwrap)

def pushSeven : List Action := .push (.push fun _ => 7) :: List.replicate 5 (.producer 0)

/-- A third thread that sees one element published between its two loads. -/
theorem pastSize_iff_takesFirst_pushSeven :
    ∃ r w₂, spscRingCreate true (fun _ => some fun _ => 0) 2 1 = some r ∧
      exec step (World.start r) pushSeven = some w₂ ∧
      w₂.accepted = [[7]] ∧ PastSize (World.start r) pushSeven w₂ := by
  have hr : spscRingCreate true (fun _ => some fun _ => 0) 2 1 = some _ := rfl
  have hothers : ∀ a ∈ pushSeven, Caller.other.Meanwhile a := by
    simp [pushSeven, Caller.Meanwhile]
  have hpast := (pastSize_iff_takesFirst hr (exec_nil _) hothers rfl).1 fun _ => by decide
  exact ⟨_, _, hr, rfl, rfl, hpast⟩

/-- A third thread sees one element go through the ring between its two loads, and the
size it gets is beyond any capacity. -/
theorem spscRingSize_wraps :
    ¬ ∀ (r : SpscRing) (before during : List Action) (w₁ w₂ : World),
      (∃ malloc capacity elemSize, spscRingCreate true malloc capacity elemSize = some r) →
      exec step (World.start r) before = some w₁ → exec step w₁ during = some w₂ →
      PastSize w₁ during w₂ := by
  intro h
  have hr : spscRingCreate true (fun _ => some fun _ => 0) 2 1 = some _ := rfl
  have hpast := h _ [] (pushSeven ++ .pop (.pop fun _ => 0) :: List.replicate 7 (.consumer 0)) _ _
    ⟨_, _, _, hr⟩ rfl rfl
  exact absurd hpast.le_capacity (by decide)

end SystemsPrep.Spsc
