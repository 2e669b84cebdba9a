import SystemsPrep.Base.Snapshot
import SystemsPrep.Mpsc.Refusal

/-!
The size of a multi-producer queue, as one of its users reads it.

`size()` loads the head and then the tail, and both may move in between. A pop that
takes the tail up to the head that was loaded, after another push has claimed an index,
makes the two values agree although the queue was never empty, and the next pop makes
the unsigned difference wrap. The consumer is not exposed to this, since the tail is its
own.
-/

namespace SystemsPrep.Mpsc

open Base

variable {ι : Type*} {w : ℕ} {T : Type*}

namespace MpscQueue

/-- `size()`, with the queue at its first and at its second load. -/
def sizeAcross (first second : MpscQueue w T) : BitVec w := first.head - second.tail

def isEmptyAcross (first second : MpscQueue w T) : Bool := first.sizeAcross second = 0

def isFullAcross (first second : MpscQueue w T) : Bool :=
  first.sizeAcross second = second.capacity

end MpscQueue

/-- The user of the queue that calls `size()`. -/
inductive Caller (ι : Type*)
  | producer (p : ι)
  | consumer

/-- The actions that may fall between the two loads: those of the other users. -/
def Caller.Meanwhile : Caller ι → Action ι T → Prop
  | .producer p, .push q _ | .producer p, .producer q _ => q ≠ p
  | .consumer, .pop | .consumer, .consumer _ => False
  | _, _ => True

/-- No pop reaches the head that was loaded in `s₁` once another index has been
claimed. -/
def ReachesFirst [DecidableEq ι] (s₁ : World ι w T) (during : List (Action ι T)) : Prop :=
  Steps step (fun u _ u' => u.delivered.length < u'.delivered.length →
    s₁.claims.length ≤ u'.delivered.length → u.claims.length = s₁.claims.length) s₁ during

variable [DecidableEq ι]

instance (s₁ : World ι w T) (during : List (Action ι T)) : Decidable (ReachesFirst s₁ during) :=
  decidableSteps _ s₁ during

/-- A call of `size()` that loads the head in `s₁` and, after the actions `during`, the
tail in `s₂` stays within the capacity, and what `empty()` and `full()` say of its result
was true at some moment. -/
structure SizeWithin (s₁ : World ι w T) (during : List (Action ι T)) (s₂ : World ι w T) :
    Prop where
  le_capacity : (s₁.queue.sizeAcross s₂.queue).toNat ≤ s₁.queue.cap
  empty : s₁.queue.isEmptyAcross s₂.queue = true →
    Visits step s₁ during fun u => u.queue.head - u.queue.tail = 0
  full : s₁.queue.isFullAcross s₂.queue = true →
    Visits step s₁ during fun u => u.queue.head - u.queue.tail = u.queue.capacity

/-! ### The two counters -/

theorem step_claimed_or_delivered {s s' : World ι w T} {a : Action ι T}
    (hs : step s a = some s') :
    s.claims.length ≤ s'.claims.length ∧ s.delivered.length ≤ s'.delivered.length ∧
      (s'.claims.length = s.claims.length ∨ s'.delivered.length = s.delivered.length) := by
  refine ⟨(claims_isPrefix hs).length_le, ?_⟩
  cases a with
  | push p value =>
      obtain ⟨-, rfl⟩ := enterPush_eq_some hs
      exact ⟨le_rfl, Or.inl rfl⟩
  | pop =>
      obtain ⟨-, rfl⟩ := enterPop_eq_some hs
      exact ⟨le_rfl, Or.inl rfl⟩
  | producer p spurious =>
      obtain ⟨-, hdelivered, -⟩ := producerStep_frame hs
      rw [hdelivered]
      exact ⟨le_rfl, Or.inr rfl⟩
  | consumer left =>
      obtain ⟨-, -, hclaims, -⟩ := consumerStep_frame hs
      rw [hclaims]
      refine ⟨?_, Or.inl rfl⟩
      cases consumerMove_of_step hs <;> simp

theorem exec_claims_le {s s' : World ι w T} {as : List (Action ι T)}
    (h : exec step s as = some s') : s.claims.length ≤ s'.claims.length :=
  exec_le (f := fun s : World ι w T => s.claims.length)
    (fun _ _ _ hs => (step_claimed_or_delivered hs).1) h

theorem exec_delivered_le {s s' : World ι w T} {as : List (Action ι T)}
    (h : exec step s as = some s') : s.delivered.length ≤ s'.delivered.length :=
  exec_le (f := fun s : World ι w T => s.delivered.length)
    (fun _ _ _ hs => (step_claimed_or_delivered hs).2.1) h

/-- The head as first loaded and the tail as loaded later were current together. -/
abbrev Coincide (s₁ : World ι w T) (during : List (Action ι T)) (s₂ : World ι w T) : Prop :=
  Together step (fun u => u.claims.length) (fun u => u.delivered.length) s₁ during s₂

theorem reachesFirst_of_consumer {s₁ : World ι w T} {during : List (Action ι T)}
    (hc : ∀ a ∈ during, Caller.Meanwhile .consumer a) : ReachesFirst s₁ during := by
  intro bs a u u' hbs hu hs hlt
  have ha : Caller.Meanwhile .consumer a := hc a (hbs.subset (by simp))
  cases a with
  | pop | consumer => exact ha.elim
  | push p value =>
      obtain ⟨-, rfl⟩ := enterPush_eq_some hs
      exact absurd hlt (lt_irrefl _)
  | producer p spurious =>
      obtain ⟨-, hdelivered, -⟩ := producerStep_frame hs
      rw [hdelivered] at hlt
      exact absurd hlt (lt_irrefl _)

/-! ### What the call returns -/

section Span

variable {s₁ s₂ : World ι w T} {during : List (Action ι T)}

theorem counters_exec_noLap {s s' : World ι w T} {as : List (Action ι T)}
    (hlap : Steps step (fun s a _ => NoLap s a) s as) (h : exec step s as = some s')
    (hs : Counters s) : Counters s' := by
  refine hlap.invariant ?_ h hs
  exact fun _ _ _ => counters_step _ _ _

theorem queue_cap_eq {s s' : World ι w T} {as : List (Action ι T)}
    (h : exec step s as = some s') : s'.queue.capacity = s.queue.capacity := by
  refine exec_invariant (I := fun t => t.queue.capacity = s.queue.capacity) ?_ h rfl
  intro t a t' ht hs
  cases a with
  | push p value =>
      obtain ⟨-, rfl⟩ := enterPush_eq_some hs
      exact ht
  | pop =>
      obtain ⟨-, rfl⟩ := enterPop_eq_some hs
      exact ht
  | producer p spurious => rw [(producerStep_frame hs).2.2.1, ht]
  | consumer left => rw [(consumerStep_frame hs).2.2.2.2, ht]

/-- A tail that has reached the head loaded before has not passed it, and was there
when that head was current. -/
theorem ReachesFirst.coincide (hlap : Steps step (fun s a _ => NoLap s a) s₁ during)
    (h₁ : Counters s₁) (h : exec step s₁ during = some s₂) (hreach : ReachesFirst s₁ during)
    (hle : s₁.claims.length ≤ s₂.delivered.length) :
    s₂.delivered.length = s₁.claims.length ∧ Coincide s₁ during s₂ := by
  have hcoincide : Coincide s₁ during s₂ := by
    refine Together.of_last (fun _ _ _ hs => (step_claimed_or_delivered hs).2.1)
      (fun _ _ _ hs => (step_claimed_or_delivered hs).2.2) h ?_
    exact fun bs a u u' hbs hu hs hlt heq => hreach bs a u u' hbs hu hs hlt (heq ▸ hle)
  refine ⟨le_antisymm ?_ hle, hcoincide⟩
  obtain ⟨bs, ⟨cs, rfl⟩, u, hu, hclaims, hdelivered⟩ := hcoincide
  calc s₂.delivered.length = u.delivered.length := hdelivered.symm
    _ ≤ u.claims.length := (counters_exec_noLap hlap.of_append hu h₁).le
    _ = s₁.claims.length := hclaims

theorem SizeWithin.of_reachesFirst (hlap : Steps step (fun s a _ => NoLap s a) s₁ during)
    (h₁ : Counters s₁) (h : exec step s₁ during = some s₂) (hreach : ReachesFirst s₁ during) :
    SizeWithin s₁ during s₂ := by
  have hle : s₂.delivered.length ≤ s₁.claims.length := by
    rcases Nat.lt_or_ge s₂.delivered.length s₁.claims.length with hlt | hge
    · exact hlt.le
    · exact (hreach.coincide hlap h₁ h hge).1.le
  have hroom := h₁.room
  have hdelivered := exec_delivered_le h
  have := s₁.queue.cap_lt
  have hsize : (s₁.queue.sizeAcross s₂.queue).toNat =
      s₁.claims.length - s₂.delivered.length := by
    rw [MpscQueue.sizeAcross, h₁.head, (counters_exec_noLap hlap h h₁).tail,
      toNat_ofNat_sub hle (by omega)]
  refine ⟨by omega, fun hempty => ?_, fun hfull => ?_⟩
  · rw [of_decide_eq_true hempty, BitVec.ofNat_eq_ofNat, BitVec.toNat_zero] at hsize
    obtain ⟨-, bs, ⟨cs, rfl⟩, u, hu, hclaims, hlast⟩ := hreach.coincide hlap h₁ h (by omega)
    refine ⟨bs, List.prefix_append bs cs, u, hu, ?_⟩
    have hdiff := (counters_exec_noLap hlap.of_append hu h₁).toNat_head_sub_tail
    simp only at hclaims hlast
    apply BitVec.eq_of_toNat_eq
    rw [hdiff, hclaims, hlast, BitVec.ofNat_eq_ofNat, BitVec.toNat_zero]
    exact hsize.symm
  · -- then the tail has not moved
    rw [of_decide_eq_true hfull, queue_cap_eq h] at hsize
    change s₁.queue.cap = _ at hsize
    exact Visits.first (h₁.head_sub_tail_eq_capacity_iff.mpr (by omega))

theorem SizeWithin.reachesFirst (hlap : Steps step (fun s a _ => NoLap s a) s₁ during)
    (h₁ : Counters s₁) (h : exec step s₁ during = some s₂)
    (hwrap : s₂.delivered.length + s₁.queue.cap < s₁.claims.length + 2 ^ w)
    (hsize : SizeWithin s₁ during s₂) : ReachesFirst s₁ during := by
  have htail := (counters_exec_noLap hlap h h₁).tail
  rcases lt_trichotomy s₂.delivered.length s₁.claims.length with hlt | heq | hgt
  · -- the tail never reaches the head that was loaded
    rintro bs a u u' ⟨cs, rfl⟩ hu hs - hreached
    have hu' : exec step s₁ (bs ++ [a]) = some u' := exec_concat_eq_some.mpr ⟨u, hu, hs⟩
    have := exec_delivered_le (exec_after hu' h)
    omega
  · -- `empty()` is true
    have hempty : s₁.queue.isEmptyAcross s₂.queue = true := by
      apply decide_eq_true
      rw [MpscQueue.sizeAcross, h₁.head, htail, heq, BitVec.sub_self]
      rfl
    obtain ⟨bs, ⟨cs, rfl⟩, u, hu, hzero⟩ := hsize.empty hempty
    have hcount := counters_exec_noLap hlap.of_append hu h₁
    have hdiff := hcount.toNat_head_sub_tail
    rw [hzero, BitVec.ofNat_eq_ofNat, BitVec.toNat_zero] at hdiff
    have := hcount.le
    have := exec_claims_le hu
    have := exec_delivered_le (exec_after hu h)
    have hcoincide : Coincide s₁ (bs ++ cs) s₂ := by
      refine ⟨bs, List.prefix_append bs cs, u, hu, ?_, ?_⟩
      · change u.claims.length = s₁.claims.length
        omega
      · change u.delivered.length = s₂.delivered.length
        omega
    have hsteps := hcoincide.steps (fun _ _ _ hs => (step_claimed_or_delivered hs).1)
      (fun _ _ _ hs => (step_claimed_or_delivered hs).2.1) h
    exact fun cs a u u' hcs hu hs hlt _ => hsteps cs a u u' hcs hu hs hlt
  · -- the subtraction has wrapped
    have hbound := hsize.le_capacity
    rw [MpscQueue.sizeAcross, h₁.head, htail, toNat_ofNat_sub_of_lt hgt (by omega)] at hbound
    omega

end Span

/-! ### Every call -/

/-- **The size stays within the capacity, and empty and full are true reports, exactly
when no pop reaches the head that was loaded once another push has claimed an index**,
which the consumer can rely on. The converse is about calls during which fewer than
`2 ^ w - capacity` values are popped. -/
theorem sizeWithin_iff_reachesFirst {capacity : BitVec w} {data : ℕ → T}
    {before during : List (Action ι T)} {s₁ s₂ : World ι w T}
    (hlap : Steps step (fun s a _ => NoLap s a) (World.start ι (.create capacity data))
      (before ++ during))
    (h₁ : exec step (World.start ι (.create capacity data)) before = some s₁)
    {c : Caller ι} (hc : ∀ a ∈ during, c.Meanwhile a)
    (h₂ : exec step s₁ during = some s₂) :
    ((c ≠ .consumer → ReachesFirst s₁ during) → SizeWithin s₁ during s₂) ∧
      (s₂.delivered.length + s₁.queue.cap < s₁.claims.length + 2 ^ w →
        (SizeWithin s₁ during s₂ ↔ (c ≠ .consumer → ReachesFirst s₁ during))) := by
  have hcount := counters_exec_noLap hlap.of_append h₁ (counters_start capacity data)
  have hspan := hlap.after h₁
  have henough (hcond : c ≠ .consumer → ReachesFirst s₁ during) : SizeWithin s₁ during s₂ := by
    refine SizeWithin.of_reachesFirst hspan hcount h₂ ?_
    by_cases hconsumer : c = .consumer
    · subst hconsumer
      exact reachesFirst_of_consumer hc
    · exact hcond hconsumer
  exact ⟨henough, fun hwrap => ⟨fun hsize _ => hsize.reachesFirst hspan hcount h₂ hwrap, henough⟩⟩

def pushOne : List (Action Bool ℕ) := .push true 1 :: List.replicate 6 (.producer true false)

def popOne : List (Action Bool ℕ) := .pop :: List.replicate 7 (.consumer 0)

/-- Producer `false` sees one value pushed between its two loads. -/
theorem sizeWithin_iff_reachesFirst_pushOne :
    ∃ s₂, exec step (World.start Bool (.create (2 : BitVec 64) fun _ => 0)) pushOne = some s₂ ∧
      s₂.claims = [(true, 1)] ∧
      SizeWithin (World.start Bool (.create (2 : BitVec 64) fun _ => 0)) pushOne s₂ := by
  have hlap : Steps step (fun s a _ => NoLap s a)
      (World.start Bool (.create (2 : BitVec 64) fun _ => 0)) ([] ++ pushOne) := by decide
  have hothers : ∀ a ∈ pushOne, (Caller.producer false).Meanwhile a := by
    simp [pushOne, Caller.Meanwhile]
  have hrun : exec step (World.start Bool (.create (2 : BitVec 64) fun _ => 0)) pushOne =
      some _ := rfl
  exact ⟨_, hrun, rfl, (sizeWithin_iff_reachesFirst hlap rfl hothers hrun).1 fun _ => by decide⟩

/-- One value goes through the queue between the two loads of producer `false`. -/
theorem sizeAcross_wraps :
    ¬ ∀ (capacity : BitVec 64) (data : ℕ → ℕ) (before during : List (Action Bool ℕ))
      (s₁ s₂ : World Bool 64 ℕ) (c : Caller Bool), 1 ≤ capacity.toNat →
      (∀ a ∈ during, c.Meanwhile a) →
      exec step (World.start Bool (.create capacity data)) before = some s₁ →
      exec step s₁ during = some s₂ → SizeWithin s₁ during s₂ := by
  intro h
  have hsize := h 2 (fun _ => 0) [] (pushOne ++ popOne) _ _ (.producer false) (by decide)
    (by simp [pushOne, popOne, Caller.Meanwhile]) rfl rfl
  exact absurd hsize.le_capacity (by decide)

end SystemsPrep.Mpsc
