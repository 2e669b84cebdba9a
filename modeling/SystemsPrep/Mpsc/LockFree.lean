import SystemsPrep.Base.Simulation
import SystemsPrep.Mpsc.Refusal

/-!
Pushes on a multi-producer queue are lock-free, and pops are wait-free.

The loop of a push goes round again only after a failed compare-exchange. It fails
because another producer has claimed an index since the head was read, or for no
reason at all, and then the current head is in hand again. So every round but the last
is paid for by the claim of another push or by a spurious failure. A pop has no loop.
Nothing here depends on how many claims have been made: a head that comes round to an
old word makes a compare-exchange succeed.
-/

namespace SystemsPrep.Mpsc

open Base

variable {ι : Type*} {w : ℕ} {T : Type*}

def Producer.head? : Producer w T → Option (BitVec w)
  | .loadTail _ head | .testFull _ head _ | .compareExchange _ head _ => some head
  | .idle | .loadHead _ | .write _ _ | .storeReady _ _ | .returned _ _ => none

def Producer.value? : Producer w T → Option T
  | .idle => none
  | .loadHead v | .loadTail v _ | .testFull v _ _ | .compareExchange v _ _ | .write v _
  | .storeReady v _ | .returned v _ => some v

/-! ### The head in hand -/

structure Heads (s : World ι w T) : Prop where
  head : s.queue.head = BitVec.ofNat w s.claims.length
  seen : ∀ p, s.seen p ≤ s.claims.length
  inHand : ∀ p, ∀ head ∈ (s.producers p).head?, head = BitVec.ofNat w (s.seen p)

theorem heads_start (capacity : BitVec w) (data : ℕ → T) :
    Heads (World.start ι (.create capacity data)) where
  head := rfl
  seen _ := Nat.zero_le _
  inHand p head hhead := by simp [World.start, Producer.head?] at hhead

section Steps

variable [DecidableEq ι] {s s' : World ι w T} {p : ι}

theorem Heads.setProducer (h : Heads s) (p : ι) {x : Producer w T}
    (hx : ∀ head ∈ x.head?, head = BitVec.ofNat w (s.seen p)) : Heads (s.setProducer p x) := by
  refine { h with inHand := fun q => ?_ }
  change ∀ head ∈ (Function.update s.producers p x q).head?, _
  by_cases hq : q = p
  · subst hq
    rw [Function.update_self]
    exact hx
  · rw [Function.update_of_ne hq]
    exact h.inHand q

theorem Heads.reloadHead (h : Heads s) (p : ι) (value : T) : Heads (s.reloadHead p value) := by
  refine ⟨h.head, fun q => ?_, fun q => ?_⟩
  · change Function.update s.seen p s.claims.length q ≤ s.claims.length
    by_cases hq : q = p
    · rw [hq, Function.update_self]
    · rw [Function.update_of_ne hq]
      exact h.seen q
  · change ∀ head ∈ (Function.update s.producers p (.loadTail value s.queue.head) q).head?,
      head = BitVec.ofNat w (Function.update s.seen p s.claims.length q)
    by_cases hq : q = p
    · rw [hq, Function.update_self, Function.update_self]
      rintro head ⟨⟩
      exact h.head
    · rw [Function.update_of_ne hq, Function.update_of_ne hq]
      exact h.inHand q

theorem Heads.claim (h : Heads s) (p : ι) (value : T) {head : BitVec w}
    (heq : s.queue.head = head) :
    Heads { s.setProducer p (.write value head) with
      queue := { s.queue with head := head + 1 }
      claims := s.claims ++ [(p, value)] } := by
  have hset := h.setProducer p (x := .write value head) (by simp [Producer.head?])
  have hlen : (s.claims ++ [(p, value)]).length = s.claims.length + 1 := by simp
  refine ⟨?_, fun q => (h.seen q).trans (by rw [hlen]; exact Nat.le_succ _), hset.inHand⟩
  change head + 1 = BitVec.ofNat w (s.claims ++ [(p, value)]).length
  rw [hlen, ofNat_succ, ← h.head, heq]

theorem heads_producerStep {spurious : Bool} (h : Heads s)
    (hs : producerStep s p spurious = some s') : Heads s' := by
  have hhand := h.inHand p
  cases producerMove_of_step hs with
  | loadHead value hp | retry value _ _ hp => exact h.reloadHead p value
  | loadTail value head hp | notFull value head _ hp =>
      rw [hp] at hhand
      exact h.setProducer p hhand
  | full value head tail hp => exact h.setProducer p (by simp [Producer.head?])
  | claim value head tail hp heq => exact h.claim p value heq
  | write value head hp | storeReady value head hp =>
      exact { h.setProducer p (by simp [Producer.head?]) with head := h.head }

theorem heads_step {a : Action ι T} (h : Heads s) (hs : step s a = some s') : Heads s' := by
  cases a with
  | push p value =>
      obtain ⟨-, rfl⟩ := enterPush_eq_some hs
      have hset := h.setProducer p (x := .loadHead value) (by simp [Producer.head?])
      exact { hset with }
  | producer p spurious => exact heads_producerStep h hs
  | pop =>
      obtain ⟨-, rfl⟩ := enterPop_eq_some hs
      exact { h with }
  | consumer left => cases consumerMove_of_step hs <;> exact { h with }

end Steps

/-! ### What a step costs -/

/-- The steps a push has left if it does not lose another compare-exchange, plus those of
the round it has lost already when `behind`. -/
def Producer.left (behind : Bool) : Producer w T → ℕ
  | .idle | .returned _ _ => 0
  | .loadHead _ => 6
  | .loadTail _ _ => 5 + 3 * behind.toNat
  | .testFull _ _ _ => 4 + 3 * behind.toNat
  | .compareExchange _ _ _ => 3 + 3 * behind.toNat
  | .write _ _ => 2
  | .storeReady _ _ => 1

/-- An index has been claimed since the producer last read the head. -/
def World.behind (s : World ι w T) (p : ι) : Bool := s.seen p < s.claims.length

def World.left (s : World ι w T) (p : ι) : ℕ := (s.producers p).left (s.behind p)

def Consumer.left : Consumer w T → ℕ
  | .idle | .returned _ => 0
  | .loadTail => 7
  | .loadHead _ => 6
  | .testEmpty _ _ => 5
  | .loadReady _ => 4
  | .moveOut _ => 3
  | .clearReady _ _ => 2
  | .storeTail _ _ => 1

variable [DecidableEq ι]

/-- The number of claims of the producers other than `p`. -/
def World.otherClaims (s : World ι w T) (p : ι) : ℕ := s.claims.countP fun c => c.1 ≠ p

/-- The action is a compare-exchange of `p` that fails although the head is the one in
hand. -/
def World.spurious (s : World ι w T) (p : ι) : Action ι T → Bool
  | .producer q true =>
      q = p && match s.producers p with
        | .compareExchange _ head _ => s.queue.head = head
        | _ => false
  | _ => false

/-- The steps of `p` inside its calls. -/
def Action.isProducer (p : ι) : Action ι T → Bool
  | .producer q _ => q = p
  | _ => false

omit [DecidableEq ι] in
def Action.isConsumer : Action ι T → Bool
  | .consumer _ => true
  | _ => false

section Costs

variable {s s' : World ι w T} {p : ι}

theorem left_le_true (x : Producer w T) (b : Bool) : x.left b ≤ x.left true := by
  cases x <;> cases b <;> simp [Producer.left]

theorem left_true_le (x : Producer w T) (b : Bool) : x.left true ≤ x.left b + 3 := by
  cases x <;> cases b <;> simp [Producer.left]

@[simp] theorem left_setProducer (s : World ι w T) (p : ι) (x : Producer w T) :
    (s.setProducer p x).left p = x.left (s.behind p) := by
  simp only [World.left, World.setProducer, Function.update_self]
  rfl

@[simp] theorem left_reloadHead (s : World ι w T) (p : ι) (value : T) :
    (s.reloadHead p value).left p = 5 := by
  simp [World.left, World.reloadHead, World.behind, Producer.left]

/-- Every step of a push but a spurious failure brings it nearer to its end. -/
theorem left_own_step {spurious : Bool} (h : Heads s) (hs : producerStep s p spurious = some s') :
    s'.left p + 1 ≤ s.left p + 3 * (s.spurious p (.producer p spurious)).toNat := by
  have hhand := h.inHand p
  have hbefore : s.left p = (s.producers p).left (s.behind p) := rfl
  rw [hbefore]
  cases producerMove_of_step hs with
  | loadHead value hp =>
      rw [hp, left_reloadHead]
      exact Nat.le_add_right ..
  | loadTail value head hp | notFull value head _ hp =>
      rw [hp, left_setProducer]
      simp only [Producer.left]
      omega
  | full value head tail hp =>
      rw [hp, left_setProducer]
      simp only [Producer.left]
      omega
  | claim value head tail hp =>
      have hafter : ({ s.setProducer p (.write value head) with
          queue := { s.queue with head := head + 1 }
          claims := s.claims ++ [(p, value)] } : World ι w T).left p = 2 := by
        simp [World.left, World.setProducer, Producer.left]
      rw [hafter, hp]
      simp only [Producer.left]
      omega
  | retry value head tail hp hfail =>
      rw [hp, left_reloadHead]
      rw [hp] at hhand
      by_cases heq : s.queue.head = head
      · simp [World.spurious, hp, heq, hfail heq, Producer.left]
      · -- another push has claimed the index in hand
        have hbehind : s.behind p = true := by
          refine decide_eq_true (lt_of_le_of_ne (h.seen p) fun hsame => heq ?_)
          rw [h.head, hhand head rfl, hsame]
        simp only [hbehind, Producer.left, Bool.toNat_true]
        omega
  | write value head hp | storeReady value head hp =>
      rw [hp]
      simp [World.left, World.setProducer, Producer.left]

/-- The claim of another producer sets a push back by no more than a round. -/
theorem left_le_of_frame (hp : s'.producers p = s.producers p) (hseen : s'.seen p = s.seen p)
    (hclaims : s'.claims = s.claims ∨ ∃ q v, q ≠ p ∧ s'.claims = s.claims ++ [(q, v)]) :
    s'.left p ≤ s.left p + 3 * (s'.otherClaims p - s.otherClaims p) := by
  rcases hclaims with hsame | ⟨q, v, hq, hnew⟩
  · simp only [World.left, World.behind, hp, hseen, hsame]
    exact Nat.le_add_right ..
  · -- the claim costs `p` its compare-exchange, if it has not lost that already
    have hone : s'.otherClaims p = s.otherClaims p + 1 := by
      simp [World.otherClaims, hnew, List.countP_append, hq]
    have hbehind : s'.left p ≤ s.left p + 3 := by
      simp only [World.left, hp]
      exact (left_le_true _ _).trans (left_true_le _ _)
    omega

theorem claims_producerStep {q : ι} {spurious : Bool} (hs : producerStep s q spurious = some s') :
    s'.claims = s.claims ∨ ∃ v, s'.claims = s.claims ++ [(q, v)] := by
  cases producerMove_of_step hs with
  | claim value => exact Or.inr ⟨value, rfl⟩
  | _ => exact Or.inl rfl

theorem left_other_step {a : Action ι T} (hother : a.isProducer p = false)
    (hkeeps : a.KeepsPush p) (hs : step s a = some s') :
    s'.left p ≤ s.left p + 3 * (s'.otherClaims p - s.otherClaims p) := by
  cases a with
  | push q value =>
      obtain ⟨-, hrest, hseen, hclaims, -⟩ := enterPush_frame hs
      exact left_le_of_frame (hrest p (Ne.symm hkeeps)) (congrFun hseen p) (Or.inl hclaims)
  | producer q spurious =>
      have hne : q ≠ p := of_decide_eq_false hother
      obtain ⟨hrest, -⟩ := producerStep_frame hs
      obtain ⟨hkept, hseen⟩ := hrest p hne.symm
      refine left_le_of_frame hkept hseen ?_
      exact (claims_producerStep hs).imp_right fun ⟨v, hv⟩ => ⟨q, v, hne, hv⟩
  | pop =>
      obtain ⟨-, rfl⟩ := enterPop_eq_some hs
      exact left_le_of_frame rfl rfl (Or.inl rfl)
  | consumer left =>
      obtain ⟨hprod, hseen, hclaims, -⟩ := consumerStep_frame hs
      exact left_le_of_frame (congrFun hprod p) (congrFun hseen p) (Or.inl hclaims)

theorem otherClaims_mono (p : ι) (s : World ι w T) (a : Action ι T) (s' : World ι w T)
    (hs : step s a = some s') : s.otherClaims p ≤ s'.otherClaims p :=
  (claims_isPrefix hs).sublist.countP_le

omit [DecidableEq ι] in
theorem left_consumerStep {left : T} (hs : consumerStep s left = some s') :
    s'.consumer.left < s.consumer.left := by
  cases consumerMove_of_step hs with
  | loadTail hp | loadHead _ hp | notEmpty _ _ hp | ready _ hp | moveOut _ hp
  | clearReady _ _ hp =>
      rw [hp]
      exact Nat.lt_succ_self _
  | empty _ _ hp | notReady _ hp | storeTail _ _ hp =>
      rw [hp]
      exact Nat.succ_pos _

end Costs

/-! ### What a call cannot be kept from -/

section Calls

variable {s s' : World ι w T}

theorem returned_or_producerStep {p : ι} {value : T} (hv : (s.producers p).value? = some value) :
    (∃ ret, s.producers p = .returned value ret) ∨ (producerStep s p false).isSome := by
  cases hp : s.producers p with
  | idle =>
      rw [hp] at hv
      cases hv
  | returned v ret =>
      rw [hp] at hv
      cases hv
      exact Or.inl ⟨ret, rfl⟩
  | compareExchange v head tail =>
      refine Or.inr ?_
      simp only [producerStep, hp]
      split <;> rfl
  | loadHead | loadTail | testFull | write | storeReady =>
      exact Or.inr (by simp only [producerStep, hp, Option.isSome_some])

omit [DecidableEq ι] in
theorem returned_or_consumerStep (hidle : s.consumer ≠ .idle) (left : T) :
    (∃ ret, s.consumer = .returned ret) ∨ (consumerStep s left).isSome := by
  cases hp : s.consumer with
  | idle => exact absurd hp hidle
  | returned ret => exact Or.inl ⟨ret, rfl⟩
  | loadTail | loadHead | testEmpty | loadReady | moveOut | clearReady | storeTail =>
      exact Or.inr (by simp only [consumerStep, hp, Option.isSome_some])

/-- A producer stays in its call. -/
theorem value_step {p : ι} {a : Action ι T} (hkeeps : a.KeepsPush p) (hs : step s a = some s') :
    (s'.producers p).value? = (s.producers p).value? := by
  cases a with
  | push q value =>
      obtain ⟨-, hrest, -⟩ := enterPush_frame hs
      rw [hrest p (Ne.symm hkeeps)]
  | producer q spurious =>
      by_cases hq : p = q
      · subst hq
        cases producerMove_of_step hs with
        | loadHead _ hp | loadTail _ _ hp | full _ _ _ hp | notFull _ _ _ hp | claim _ _ _ hp
        | retry _ _ _ hp | write _ _ hp | storeReady _ _ hp =>
            rw [hp]
            simp only [World.reloadHead, World.setProducer, Function.update_self]
            rfl
      · obtain ⟨hrest, -⟩ := producerStep_frame hs
        rw [(hrest p hq).1]
  | pop =>
      obtain ⟨-, rfl⟩ := enterPop_eq_some hs
      rfl
  | consumer left => rw [(consumerStep_frame hs).1]

theorem consumer_ne_idle_step {a : Action ι T} (hidle : s.consumer ≠ .idle)
    (hs : step s a = some s') : s'.consumer ≠ .idle := by
  cases a with
  | push q value =>
      obtain ⟨-, rfl⟩ := enterPush_eq_some hs
      exact hidle
  | producer q spurious => cases producerMove_of_step hs <;> exact hidle
  | pop =>
      obtain ⟨-, rfl⟩ := enterPop_eq_some hs
      exact nofun
  | consumer left => cases consumerMove_of_step hs <;> exact nofun

end Calls

/-! ### Whole runs -/

def Action.KeepsPop : Action ι T → Prop
  | .pop => False
  | _ => True

section Runs

variable {s s' : World ι w T} {as : List (Action ι T)}

/-- The steps of a push, against the claims of the others and its spurious failures. -/
theorem push_steps_le {p : ι} (h : Heads s) (hkeeps : ∀ a ∈ as, a.KeepsPush p)
    (hs : exec step s as = some s') :
    as.countP (Action.isProducer p) + s'.left p ≤
      s.left p + (3 * (s'.otherClaims p - s.otherClaims p) +
        3 * total step (fun s a _ => (s.spurious p a).toNat) s as) := by
  have hsteps : Steps step (fun s a _ => Heads s ∧ a.KeepsPush p) s as :=
    (Steps.of_invariant (A := fun _ => True) (fun _ _ _ _ h hs => heads_step h hs)
      (fun _ _ _ h _ => h) (fun _ _ => trivial) h).and (Steps.of_forall_mem hkeeps)
  have hpaid := Steps.total_le (f := fun s => s.left p)
    (c := fun _ a _ => (a.isProducer p).toNat)
    (e := fun s a s' => 3 * (s'.otherClaims p - s.otherClaims p) +
      3 * (s.spurious p a).toNat) ?_ hsteps hs
  · rw [total_of_countP hs, total_add, total_mul, total_mul] at hpaid
    have hgrowth := total_growth (otherClaims_mono p) hs
    omega
  · rintro u a u' ⟨hu, ha⟩ hua
    cases hmine : a.isProducer p with
    | false =>
        have hother := left_other_step hmine ha hua
        simp only [Bool.toNat_false]
        omega
    | true =>
        cases a with
        | producer q spurious =>
            obtain rfl : q = p := of_decide_eq_true hmine
            have hown := left_own_step hu hua
            simp only [Bool.toNat_true]
            omega
        | push | pop | consumer => cases hmine

theorem pop_steps_le (hkeeps : ∀ a ∈ as, a.KeepsPop)
    (hs : exec step s as = some s') :
    as.countP Action.isConsumer + s'.consumer.left ≤ s.consumer.left := by
  refine countP_add_rank_le (A := Action.KeepsPop) (I := fun _ => True)
    (f := fun u => u.consumer.left) (fun _ _ _ _ _ => trivial) ?_ hkeeps trivial hs
  intro u a u' ha _ hua
  cases a with
  | push q value =>
      obtain ⟨-, rfl⟩ := enterPush_eq_some hua
      exact (Nat.zero_add _).le
  | producer q spurious =>
      have hsame : u'.consumer = u.consumer := by
        cases producerMove_of_step hua <;> rfl
      rw [hsame]
      exact (Nat.zero_add _).le
  | pop => exact ha.elim
  | consumer left =>
      have hlt := left_consumerStep hua
      exact (Nat.add_comm ..).trans_le hlt

end Runs

/-- **Lock-freedom.** From any state that a run reaches, a push takes at most six steps,
three more for each claim that another push makes meanwhile, and three more for each of
its compare-exchanges that fails for no reason; a pop takes at most seven. Until a call
has returned its next step is possible. So a push is kept from returning only by pushes
that have claimed an index. -/
theorem mpsc_lockFree {capacity : BitVec w} {data : ℕ → T} {before during : List (Action ι T)}
    {s₀ s₁ s₂ : World ι w T}
    (hs₀ : exec step (World.start ι (.create capacity data)) before = some s₀)
    (hs₂ : exec step s₁ during = some s₂) :
    (∀ p value, enterPush s₀ p value = some s₁ → (∀ a ∈ during, a.KeepsPush p) →
      during.countP (Action.isProducer p) ≤ 6 + 3 * (s₂.otherClaims p - s₀.otherClaims p) +
          3 * total step (fun s a _ => (s.spurious p a).toNat) s₁ during ∧
        ((∃ ret, s₂.producers p = .returned value ret) ∨ (producerStep s₂ p false).isSome)) ∧
    (enterPop s₀ = some s₁ → (∀ a ∈ during, a.KeepsPop) →
      during.countP Action.isConsumer ≤ 7 ∧
        ((∃ ret, s₂.consumer = .returned ret) ∨ ∀ left, (consumerStep s₂ left).isSome)) := by
  have h₀ : Heads s₀ :=
    exec_invariant (I := Heads) (fun _ _ _ h hs => heads_step h hs) hs₀ (heads_start ..)
  refine ⟨fun p value hc hkeeps => ?_, fun hc hkeeps => ?_⟩
  · have h₁ : Heads s₁ := heads_step (a := .push p value) h₀ hc
    obtain ⟨hp, -, -, hclaims, -⟩ := enterPush_frame hc
    have hsteps := push_steps_le h₁ hkeeps hs₂
    have hleft : s₁.left p = 6 := by rw [World.left, hp]; rfl
    have hbefore : s₁.otherClaims p = s₀.otherClaims p := by
      rw [World.otherClaims, hclaims, World.otherClaims]
    refine ⟨by omega, returned_or_producerStep ?_⟩
    have hvalue := exec_invariant_on (A := Action.KeepsPush p)
      (I := fun s => (s.producers p).value? = some value)
      (fun _ _ _ ha hv hs => (value_step ha hs).trans hv) hkeeps hs₂ (by rw [hp]; rfl)
    exact hvalue
  · obtain ⟨-, rfl⟩ := enterPop_eq_some hc
    have hsteps := pop_steps_le hkeeps hs₂
    have hidle := exec_invariant (I := fun s : World ι w T => s.consumer ≠ .idle)
      (fun _ _ _ hi hs => consumer_ne_idle_step hi hs) hs₂ (by simp)
    refine ⟨(Nat.le_add_right ..).trans hsteps, ?_⟩
    -- a pop that is not over has a next step whatever it finds in the slot
    by_cases hret : ∃ ret, s₂.consumer = .returned ret
    · exact Or.inl hret
    · exact Or.inr fun left => (returned_or_consumerStep hidle left).resolve_left hret

/-- A push that loses its first compare-exchange to another push, and its second for no
reason. -/
def twiceRetried : List (Action Bool ℕ) :=
  [.producer false false, .producer false false, .producer false false, .push true 2,
    .producer true false, .producer true false, .producer true false, .producer true false,
    .producer false false, .producer false false, .producer false false, .producer false true,
    .producer false false, .producer false false, .producer false false, .producer false false,
    .producer false false]

theorem mpsc_lockFree_twiceRetried :
    ∃ s₁ s₂ : World Bool 64 ℕ,
      enterPush (World.start Bool (.create 4 fun _ => 0)) false 1 = some s₁ ∧
      exec step s₁ twiceRetried = some s₂ ∧
      twiceRetried.countP (Action.isProducer false) = 6 + 3 * 1 + 3 * 1 ∧
      twiceRetried.countP (Action.isProducer false) ≤
        6 + 3 * (s₂.otherClaims false - 0) +
          3 * total step (fun s a _ => (s.spurious false a).toNat) s₁ twiceRetried :=
  ⟨_, _, rfl, rfl, rfl,
    ((@mpsc_lockFree Bool 64 ℕ _ 4 (fun _ => 0) [] twiceRetried _ _ _ rfl rfl).1 false 1 rfl
      (by simp [twiceRetried, Action.KeepsPush])).1⟩

end SystemsPrep.Mpsc
