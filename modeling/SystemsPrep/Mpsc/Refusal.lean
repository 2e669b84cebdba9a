import SystemsPrep.Mpsc.Counters

/-!
Pushes that return false.

A push takes the queue for full when the head it has in hand, less the tail it
has loaded since, is at least the capacity. The subtraction is unsigned. A tail
that has meanwhile passed the head makes it wrap, and the push is refused by a
queue that was never full. Wherever the tail has not passed the head, or the
capacity is one, a refusal is right.
-/

namespace SystemsPrep.Mpsc

open Base

variable {ι : Type*} {w : ℕ} {T : Type*}

def World.Full (s : World ι w T) : Prop := s.claims.length = s.delivered.length + s.queue.cap

/-- A producer that loads the tail finds it not past the head in hand. -/
def NotPassed (s : World ι w T) : Action ι T → Prop
  | .producer p _ =>
      match s.producers p with
      | .loadTail _ _ => s.delivered.length ≤ s.seen p
      | _ => True
  | _ => True

instance (s : World ι w T) : (a : Action ι T) → Decidable (NotPassed s a)
  | .producer p _ =>
      match hp : s.producers p with
      | .loadTail _ _ =>
          decidable_of_iff (s.delivered.length ≤ s.seen p) (by simp only [NotPassed, hp])
      | .idle | .loadHead _ | .testFull _ _ _ | .compareExchange _ _ _ | .write _ _
      | .storeReady _ _ | .returned _ _ => .isTrue (by simp only [NotPassed, hp])
  | .push _ _ | .pop | .consumer _ => .isTrue trivial

def Action.KeepsPush (p : ι) : Action ι T → Prop
  | .push q _ => q ≠ p
  | _ => True

/-- Producer `p` is bound to return false. On a queue of one slot it is so as
soon as the head in hand has been claimed by another. -/
def Refusing (p : ι) (s : World ι w T) : Prop :=
  match s.producers p with
  | .loadTail _ _ => s.queue.cap = 1 ∧ s.seen p < s.claims.length
  | .testFull _ head tail => s.queue.full head tail = true
  | .returned _ ret => ret = false
  | _ => False

theorem Refusing.congr {p : ι} {s s' : World ι w T} (h : Refusing p s')
    (hcap : s'.queue.capacity = s.queue.capacity) (hp : s'.producers p = s.producers p)
    (hseen : s'.seen p = s.seen p) (hclaims : s'.claims = s.claims) : Refusing p s := by
  unfold Refusing MpscQueue.cap MpscQueue.full at *
  rw [hcap, hp, hseen, hclaims] at h
  exact h

variable [DecidableEq ι]

/-! ### What a step leaves alone -/

theorem enterPush_frame {s s' : World ι w T} {p : ι} {value : T}
    (hs : enterPush s p value = some s') :
    s'.producers p = .loadHead value ∧ (∀ q ≠ p, s'.producers q = s.producers q) ∧
      s'.seen = s.seen ∧ s'.claims = s.claims ∧ s'.delivered = s.delivered ∧
      s'.queue = s.queue := by
  obtain ⟨-, rfl⟩ := enterPush_eq_some hs
  exact ⟨Function.update_self .., fun q hq => Function.update_of_ne hq .., rfl, rfl, rfl, rfl⟩

omit [DecidableEq ι] in
theorem consumerStep_frame {s s' : World ι w T} {left : T} (hs : consumerStep s left = some s') :
    s'.producers = s.producers ∧ s'.seen = s.seen ∧ s'.claims = s.claims ∧
      s'.calls = s.calls ∧ s'.queue.capacity = s.queue.capacity := by
  cases consumerMove_of_step hs <;> exact ⟨rfl, rfl, rfl, rfl, rfl⟩

theorem producerStep_frame {s s' : World ι w T} {p : ι} {spurious : Bool}
    (hs : producerStep s p spurious = some s') :
    (∀ q ≠ p, s'.producers q = s.producers q ∧ s'.seen q = s.seen q) ∧
      s'.delivered = s.delivered ∧ s'.queue.capacity = s.queue.capacity ∧
      (s'.claims = s.claims ∨ ∃ x, s'.claims = s.claims ++ [x]) := by
  have hother : ∀ (x : Producer w T) (n : ℕ), ∀ q ≠ p,
      Function.update s.producers p x q = s.producers q ∧
        Function.update s.seen p n q = s.seen q :=
    fun x n q hq => ⟨Function.update_of_ne hq .., Function.update_of_ne hq ..⟩
  have hkept : ∀ x : Producer w T, ∀ q ≠ p,
      Function.update s.producers p x q = s.producers q ∧ s.seen q = s.seen q :=
    fun x q hq => ⟨Function.update_of_ne hq .., rfl⟩
  cases producerMove_of_step hs with
  | loadHead | retry => exact ⟨hother _ _, rfl, rfl, Or.inl rfl⟩
  | loadTail | full | notFull | write | storeReady => exact ⟨hkept _, rfl, rfl, Or.inl rfl⟩
  | claim => exact ⟨hkept _, rfl, rfl, Or.inr ⟨_, rfl⟩⟩

/-! ### How a producer becomes bound to fail -/

/-- The own steps of a producer: only a load of the tail binds it to fail. -/
theorem refusing_own {s s' : World ι w T} {p : ι} {spurious : Bool} (h : Counters s)
    (hcond : s.queue.cap = 1 ∨ NotPassed s (.producer p spurious))
    (hs : producerStep s p spurious = some s') (hW : Refusing p s') :
    Refusing p s ∨ s.Full := by
  have hprod := h.producer p
  have hself : ∀ x : Producer w T, Function.update s.producers p x p = x :=
    fun x => Function.update_self ..
  cases producerMove_of_step hs with
  | loadHead | retry =>
      simp only [Refusing, World.reloadHead, hself, Function.update_self, lt_irrefl,
        and_false] at hW
  | loadTail value head hp =>
      simp only [Refusing, World.setProducer, hself] at hW
      rw [hp] at hprod
      obtain ⟨rfl, hseen⟩ := hprod
      have hroom := h.room
      have hle := h.le
      rcases Nat.lt_or_ge (s.seen p) s.delivered.length with hlt | hge
      · -- passed: then the capacity is one, and the head in hand has been claimed
        have hone : s.queue.cap = 1 := by
          refine hcond.resolve_right fun hnot => ?_
          simp only [NotPassed, hp] at hnot
          omega
        left
        simp only [Refusing, hp]
        exact ⟨hone, hlt.trans_le hle⟩
      · right
        rw [h.tail] at hW
        have hfull := mt (not_full_iff_of_le hge (hseen.trans hroom)).mpr
          (by rw [hW]; exact Bool.true_eq_false_eq_False)
        unfold World.Full
        omega
  | full value head tail hp hfull =>
      left
      simp only [Refusing, hp]
      exact hfull
  | notFull | claim | write => simp only [Refusing, World.setProducer, hself] at hW
  | storeReady => simp only [Refusing, World.setProducer, hself, Bool.true_eq_false] at hW

/-- The steps of the others: on a queue of one slot, a claim of the head that
`p` has in hand fills it. -/
theorem refusing_other {s s' : World ι w T} {p q : ι} {spurious : Bool} (h : Counters s)
    (h' : Counters s') (hq : p ≠ q) (hs : producerStep s q spurious = some s')
    (hW : Refusing p s') : Refusing p s ∨ s'.Full := by
  obtain ⟨hother, hdel, hcap, hclaims⟩ := producerStep_frame hs
  obtain ⟨hp, hseen⟩ := hother p hq
  rcases hclaims with hsame | ⟨x, hclaim⟩
  · exact Or.inl (hW.congr hcap hp hseen hsame)
  · have hlen : s'.claims.length = s.claims.length + 1 := by simp [hclaim]
    have hle := h.le
    have hroom := h'.room
    have hprod := h.producer p
    cases hpc : s.producers p with
    | loadTail value head =>
        rw [hpc] at hprod hp
        simp only [Refusing, hp] at hW
        obtain ⟨hone, hlt⟩ := hW
        rcases Nat.lt_or_ge (s.seen p) s.claims.length with hlt | hge
        · -- another push had claimed that head before
          left
          simp only [Refusing, hpc]
          exact ⟨(congrArg BitVec.toNat hcap).symm.trans hone, hlt⟩
        · -- this claim takes it, and with it the only slot
          right
          unfold World.Full
          rw [hdel, hone] at hroom ⊢
          omega
    | testFull value head tail =>
        left
        simp only [Refusing, hpc.symm ▸ hp, hpc, MpscQueue.full, hcap] at hW ⊢
        exact hW
    | returned value ret =>
        left
        simp only [Refusing, hpc.symm ▸ hp, hpc] at hW ⊢
        exact hW
    | idle | loadHead | compareExchange | write | storeReady =>
        simp only [Refusing, hpc.symm ▸ hp] at hW

theorem refusing_entry {p : ι} (s : World ι w T) (a : Action ι T) (s' : World ι w T)
    (hcond : NoLap s a ∧ (s.queue.cap = 1 ∨ NotPassed s a)) (h : Counters s)
    (hs : step s a = some s') (hW : Refusing p s') : Refusing p s ∨ s.Full ∨ s'.Full := by
  have h' := counters_step s a s' hcond.1 h hs
  cases a with
  | push q value =>
      obtain ⟨hq, hother, hseen, hclaims, -, hqueue⟩ := enterPush_frame hs
      by_cases hpq : p = q
      · subst hpq
        simp only [Refusing, hq] at hW
      · exact Or.inl (hW.congr (by rw [hqueue]) (hother p hpq) (by rw [hseen]) hclaims)
  | producer q spurious =>
      by_cases hpq : p = q
      · subst hpq
        rcases refusing_own h hcond.2 hs hW with hW | hfull
        · exact Or.inl hW
        · exact Or.inr (Or.inl hfull)
      · rcases refusing_other h h' hpq hs hW with hW | hfull
        · exact Or.inl hW
        · exact Or.inr (Or.inr hfull)
  | pop =>
      obtain ⟨-, rfl⟩ := enterPop_eq_some hs
      exact Or.inl hW
  | consumer left =>
      obtain ⟨hprod, hseen, hclaims, -, hcap⟩ := consumerStep_frame hs
      exact Or.inl (hW.congr hcap (by rw [hprod]) (by rw [hseen]) hclaims)

/-! ### The span of a refused push -/

/-- Producer `p` called `push value` after the actions `before` of a run on the
fresh queue `q`, in `s₁`, and the call has returned false after `during`. -/
structure RefusedPush (q : MpscQueue w T) (before : List (Action ι T)) (p : ι) (value : T)
    (s₁ : World ι w T) (during : List (Action ι T)) : Prop where
  entered : ∃ s₀, exec step (World.start ι q) before = some s₀ ∧ enterPush s₀ p value = some s₁
  keeps : ∀ a ∈ during, a.KeepsPush p
  returned : ∃ s₂, exec step s₁ during = some s₂ ∧ s₂.producers p = .returned value false

/-- **Refusals are right when no tail has passed.** In a run in which every load
of the tail finds it not past the head in hand, or on a queue of one slot, a push
that returns false was called or waited on a queue that really was full. -/
theorem push_false_full {capacity : BitVec w} {data : ℕ → T} {before during : List (Action ι T)}
    {p : ι} {value : T} {s₁ : World ι w T}
    (hcond : Steps step (fun s a _ => NoLap s a ∧ (s.queue.cap = 1 ∨ NotPassed s a))
      (World.start ι (.create capacity data)) (before ++ .push p value :: during))
    (h : RefusedPush (.create capacity data) before p value s₁ during) :
    Visits step s₁ during fun u => u.queue.head - u.queue.tail = u.queue.capacity := by
  obtain ⟨s₀, hs₀, hpush⟩ := h.entered
  obtain ⟨s₂, hs₂, hret⟩ := h.returned
  have hkeep : ∀ (s : World ι w T) (a : Action ι T) (s' : World ι w T),
      NoLap s a ∧ (s.queue.cap = 1 ∨ NotPassed s a) → Counters s → step s a = some s' →
        Counters s' :=
    fun s a s' hc hI hs => counters_step s a s' hc.1 hI hs
  have hspan : Steps step (fun s a _ => NoLap s a ∧ (s.queue.cap = 1 ∨ NotPassed s a)) s₁
      during := by
    rw [← List.singleton_append, ← List.append_assoc] at hcond
    exact hcond.after (exec_concat_eq_some.mpr ⟨s₀, hs₀, hpush⟩)
  have hcount : Counters s₁ := by
    rw [← List.singleton_append, ← List.append_assoc] at hcond
    exact hcond.of_append.invariant hkeep (exec_concat_eq_some.mpr ⟨s₀, hs₀, hpush⟩)
      (counters_start capacity data)
  have hvisit : Visits step s₁ during World.Full := by
    refine visits_of_entry (W := Refusing p) hkeep refusing_entry hspan hs₂ hcount (fun hW => ?_) ?_
    · simp only [Refusing, (enterPush_frame hpush).1] at hW
    · simp only [Refusing, hret]
  obtain ⟨bs, hbs, t, ht, hfull⟩ := hvisit
  obtain ⟨cs, rfl⟩ := hbs
  have ht' : Counters t := hspan.of_append.invariant hkeep ht hcount
  exact ⟨bs, List.prefix_append bs cs, t, ht, ht'.head_sub_tail_eq_capacity_iff.mpr hfull⟩

def fillTwo : List (Action Bool ℕ) :=
  .push true 1 :: List.replicate 6 (.producer true false) ++
    .push true 2 :: List.replicate 6 (.producer true false)

theorem push_false_full_fillTwo :
    ∃ s₁, RefusedPush (.create (2 : BitVec 64) fun _ => 0) fillTwo false 7 s₁
        (List.replicate 3 (.producer false false)) ∧
      Visits step s₁ (List.replicate 3 (.producer false false)) fun u =>
        u.queue.head - u.queue.tail = u.queue.capacity := by
  have hspan : ∃ s₁, RefusedPush (.create (2 : BitVec 64) fun _ => 0) fillTwo false 7 s₁
      (List.replicate 3 (.producer false false)) :=
    ⟨_, ⟨_, rfl, rfl⟩, fun a ha => List.eq_of_mem_replicate ha ▸ trivial, _, rfl, rfl⟩
  obtain ⟨s₁, hspan⟩ := hspan
  exact ⟨s₁, hspan, push_false_full (by decide) hspan⟩

/-- Producer `false` has read the head when `true` pushes a value and the
consumer pops it, and only then loads the tail. -/
def passedTail : List (Action Bool ℕ) :=
  .producer false false :: .push true 1 :: List.replicate 6 (.producer true false) ++
    .pop :: List.replicate 7 (.consumer 0) ++ List.replicate 2 (.producer false false)

/-- A push on a queue of two slots is refused, although there never was more than
one value in the queue. -/
theorem push_false_not_full :
    ¬ ∀ (q : MpscQueue 64 ℕ) (before : List (Action Bool ℕ)) (p : Bool) (value : ℕ)
      (s₁ : World Bool 64 ℕ) (during : List (Action Bool ℕ)),
      1 ≤ q.cap → (∃ capacity data, q = .create capacity data) →
      RefusedPush q before p value s₁ during →
      Visits step s₁ during fun u => u.queue.head - u.queue.tail = u.queue.capacity := by
  intro h
  have hrun : ∃ s₁ s₂,
      enterPush (World.start Bool (.create (2 : BitVec 64) fun _ => 0)) false 7 = some s₁ ∧
      exec step s₁ passedTail = some s₂ ∧ s₂.producers false = .returned 7 false ∧
      ¬ Visits step s₁ passedTail fun u => u.queue.head - u.queue.tail = u.queue.capacity := by
    refine ⟨_, _, rfl, rfl, ?_, ?_⟩
    · rfl
    · decide
  obtain ⟨s₁, s₂, hpush, hs₂, hret, hnever⟩ := hrun
  have hspan : RefusedPush (.create 2 fun _ => 0) [] false 7 s₁ passedTail :=
    ⟨⟨_, rfl, hpush⟩, by simp [passedTail, Action.KeepsPush], s₂, hs₂, hret⟩
  exact hnever (h _ _ _ _ _ _ (by decide) ⟨2, _, rfl⟩ hspan)

end SystemsPrep.Mpsc
