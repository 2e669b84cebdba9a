import SystemsPrep.Mpsc.Contents

/-!
Exactly-once delivery in claim order.

The values that pops return are the values of the first claims, in the order of
their compare-exchanges, and the claims of one producer are made in the order of
its pushes. A producer that stalls between its claim and its flag holds up the
deliveries behind it, it does not let them pass.
-/

namespace SystemsPrep.Mpsc

open Base

variable {ι : Type*} [DecidableEq ι] {w : ℕ} {T : Type*}

/-- The values pushed by `p`, whether or not the push succeeded. -/
def World.callsOf (s : World ι w T) (p : ι) : List T :=
  (s.calls.filter fun a => a.1 = p).map Prod.snd

/-- The values claimed by `p`. -/
def World.claimsOf (s : World ι w T) (p : ι) : List T :=
  (s.claims.filter fun a => a.1 = p).map Prod.snd

/-- The values delivered from `p`, when the first claims have been delivered. -/
def World.deliveredOf (s : World ι w T) (p : ι) : List T :=
  ((s.claims.take s.delivered.length).filter fun a => a.1 = p).map Prod.snd

def Producer.pending : Producer w T → List T
  | .loadHead value | .loadTail value _ | .testFull value _ _ | .compareExchange value _ _ =>
      [value]
  | _ => []

/-- Every producer's claims, and the one it is trying to make, are among its
pushes in order. -/
def Ordered (s : World ι w T) : Prop :=
  ∀ p, List.Sublist (s.claimsOf p ++ (s.producers p).pending) (s.callsOf p)

theorem pairs_concat (xs : List (ι × T)) (p q : ι) (value : T) :
    ((xs ++ [(p, value)]).filter fun a => a.1 = q).map Prod.snd =
      (xs.filter fun a => a.1 = q).map Prod.snd ++ if p = q then [value] else [] := by
  by_cases h : p = q
  · simp [List.filter_append, h]
  · simp [List.filter_append, h]

theorem Ordered.update {s s' : World ι w T} (h : Ordered s) {p : ι} {x : Producer w T}
    (hprod : s'.producers = Function.update s.producers p x) (hcalls : s'.calls = s.calls)
    (hclaims : s'.claims = s.claims)
    (hx : List.Sublist x.pending (s.producers p).pending) : Ordered s' := by
  intro q
  simp only [World.claimsOf, World.callsOf, hprod, hcalls, hclaims]
  by_cases hq : q = p
  · subst hq
    rw [Function.update_self]
    exact (hx.append_left _).trans (h q)
  · rw [Function.update_of_ne hq]
    exact h q

theorem ordered_step (s : World ι w T) (a : Action ι T) (s' : World ι w T) (h : Ordered s)
    (hs : step s a = some s') : Ordered s' := by
  cases a with
  | push p value =>
      obtain ⟨hbetween, rfl⟩ := enterPush_eq_some hs
      have hidle : (s.producers p).pending = [] := by
        obtain hp | ⟨v, ret, hp⟩ := hbetween <;> rw [hp] <;> rfl
      intro q
      simp only [World.claimsOf, World.callsOf, World.setProducer, pairs_concat]
      by_cases hq : p = q
      · subst hq
        have hp := h p
        rw [hidle, List.append_nil] at hp
        rw [Function.update_self, if_pos rfl]
        exact hp.append (List.Sublist.refl _)
      · rw [Function.update_of_ne (Ne.symm hq), if_neg hq, List.append_nil]
        exact h q
  | producer p spurious =>
      cases producerMove_of_step hs with
      | loadHead value hp | loadTail value head hp | notFull value head tail hp hfull
      | retry value head tail hp hfail =>
          exact h.update rfl rfl rfl (by rw [hp]; exact List.Sublist.refl _)
      | full | write | storeReady => exact h.update rfl rfl rfl (List.nil_sublist _)
      | claim value head tail hp heq hspurious =>
          -- the pending value becomes the claimed one
          intro q
          simp only [World.claimsOf, World.callsOf, World.setProducer, pairs_concat]
          have hq := h q
          by_cases hpq : p = q
          · subst hpq
            rw [hp] at hq
            rw [Function.update_self, if_pos rfl]
            change List.Sublist (_ ++ []) _
            rw [List.append_nil]
            exact hq
          · rw [Function.update_of_ne (Ne.symm hpq), if_neg hpq, List.append_nil]
            exact hq
  | pop =>
      obtain ⟨-, rfl⟩ := enterPop_eq_some hs
      exact h
  | consumer left => cases consumerMove_of_step hs <;> exact h

theorem ordered_exec {q : MpscQueue w T} {as : List (Action ι T)} {s : World ι w T}
    (hs : exec step (World.start ι q) as = some s) : Ordered s :=
  exec_invariant ordered_step hs fun _ => List.Sublist.refl _

/-- **Exactly-once delivery.** At every point of every run with fewer than `2 ^ w`
claims, the delivered values are those of the first claims in order, those of one
producer are in the order of its pushes, and the claimed and undelivered indices
fit the queue. -/
theorem mpsc_delivery {capacity : BitVec w} {data : ℕ → T} {as : List (Action ι T)}
    {s : World ι w T} (hs : exec step (World.start ι (.create capacity data)) as = some s)
    (hlt : s.claims.length < 2 ^ w) :
    s.delivered <+: s.claims.map Prod.snd ∧
      (∀ p, List.Sublist (s.deliveredOf p) (s.callsOf p)) ∧
      (s.queue.head - s.queue.tail).toNat = s.claims.length - s.delivered.length ∧
      s.queue.head - s.queue.tail ≤ s.queue.capacity := by
  obtain ⟨hc, h⟩ := contents_exec hs hlt
  have hroom := hc.room
  refine ⟨h.fifo, fun p => ?_, hc.toNat_head_sub_tail, ?_⟩
  · have hclaims : List.Sublist (s.deliveredOf p) (s.claimsOf p) :=
      ((List.take_sublist _ _).filter _).map _
    exact hclaims.trans ((List.sublist_append_left _ _).trans (ordered_exec hs p))
  · rw [BitVec.le_def, hc.toNat_head_sub_tail]
    change _ ≤ s.queue.cap
    omega

/-- Producer `true` claims the first index and stalls; `false` pushes behind it,
and the pop finds nothing it may take. -/
def stalledClaim : List (Action Bool ℕ) :=
  .push true 1 :: List.replicate 4 (.producer true false) ++
    .push false 2 :: List.replicate 6 (.producer false false) ++
    .pop :: List.replicate 4 (.consumer 0) ++
    List.replicate 2 (.producer true false) ++ .pop :: List.replicate 7 (.consumer 0)

theorem mpsc_delivery_stalledClaim :
    ∃ s, exec step (World.start Bool (.create (3 : BitVec 64) fun _ => 0)) stalledClaim = some s ∧
      s.claims = [(true, 1), (false, 2)] ∧ s.delivered = [1] ∧
      s.delivered <+: s.claims.map Prod.snd := by
  have hs : exec step (World.start Bool (.create (3 : BitVec 64) fun _ => 0)) stalledClaim =
    some _ := rfl
  exact ⟨_, hs, rfl, rfl, (mpsc_delivery hs (by decide)).1⟩

end SystemsPrep.Mpsc
