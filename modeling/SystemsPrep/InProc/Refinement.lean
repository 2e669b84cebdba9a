import SystemsPrep.Base.Simulation
import SystemsPrep.InProc.Threads

/-!
Threads that carry out rank programs.

`Schedule` runs rank programs in which a push, and a wait with the taking of the front,
are single steps. `Threads` has the mutexes, the sleeping and the notifications, and
leaves the programs open. Here one thread of each rank makes the calls of its program.
Each of its steps is matched by at most one step of the rank: the copy out of the
caller's buffer and the push, the beginning of a `recv`, the taking of the front and
the copy into the caller's buffer count, the rest does not.
-/

namespace SystemsPrep.InProc

deriving instance DecidableEq for Call

namespace Threads

open Base

variable {n : ℕ} {σ : Fin n → Type*}

section Programs

variable (P : (r : Fin n) → RankProgram (σ r)) (inputs : (r : Fin n) → σ r)

def stateAfter (r : Fin n) (os : List Outcome) : σ r := os.foldl (P r).resume (inputs r)

def nextCall (w : World n (Fin n)) (r : Fin n) : Option InProc.Call :=
  (P r).call (stateAfter P inputs r (w.history r).outcomes)

/-- The calls are those of the programs, and the buffer of a `send` holds the bytes that
the program sends when they are copied out of it. -/
def Follows (w : World n (Fin n)) : Action (Fin n) → World n (Fin n) → Prop
  | .call r (.send dst _ len), _ =>
      match nextCall P inputs w r with
      | some (.send d bytes) => d = dst ∧ bytes.length = len
      | _ => False
  | .call r (.recv src _ len), _ => nextCall P inputs w r = some (.recv src len)
  | .next r, _ =>
      match w.stage r with
      | .copyIn dst _ buf len =>
          nextCall P inputs w r = some (.send (dst : ℕ) (w.mem.read buf len))
      | _ => True
  | .store _ _, _ | .notifyOne _ _, _ => True

instance (w w' : World n (Fin n)) : (a : Action (Fin n)) → Decidable (Follows P inputs w a w')
  | .call r (.send dst _ len) =>
      match hc : nextCall P inputs w r with
      | some (.send d bytes) =>
          decidable_of_iff (d = dst ∧ bytes.length = len) (by simp only [Follows, hc])
      | some (.recv _ _) | none => .isFalse (by simp only [Follows, hc, not_false_eq_true])
  | .call r (.recv src _ len) =>
      inferInstanceAs (Decidable (nextCall P inputs w r = some (.recv src len)))
  | .next r =>
      match hs : w.stage r with
      | .copyIn dst _ buf len =>
          decidable_of_iff (nextCall P inputs w r = some (.send (dst : ℕ) (w.mem.read buf len)))
            (by simp only [Follows, hs])
      | .program | .lock _ _ | .push _ _ | .unlock _ | .notify _ | .enter _ _ | .test _ _
      | .wait _ _ | .asleep _ _ | .take _ _ | .leave _ _ | .copyOut _ _ =>
          .isTrue (by simp only [Follows, hs])
  | .store _ _ | .notifyOne _ _ => .isTrue trivial

/-- The steps of the rank programs that match a step of the threads. -/
def atomicSteps (w : World n (Fin n)) (a : Action (Fin n)) (_ : World n (Fin n)) :
    List (Fin n) :=
  match a with
  | .call r (.send dst _ _) => if (transport r).OutOfRange dst then [r] else []
  | .call r (.recv _ _ _) => [r]
  | .next r =>
      match w.stage r with
      | .copyIn _ _ _ _ | .push _ _ | .take _ _ | .copyOut _ _ => [r]
      | _ => []
  | .store _ _ | .notifyOne _ _ => []

/-- The rank `x` of the programs stands where a thread in this stage does whose calls have
ended with `os`. After its push a `send` has ended for the program. -/
def Matches (r : Fin n) (os : List Outcome) (x : Rank n (σ r)) : Stage n → Prop
  | .program => x = ⟨.program (stateAfter P inputs r os), os⟩
  | .copyIn dst idx _ _ =>
      idx = (transport r).sendIdx (dst : ℕ) ∧ x = ⟨.program (stateAfter P inputs r os), os⟩
  | .lock idx bytes | .push idx bytes =>
      ∃ dst : Fin n, idx = (transport r).sendIdx (dst : ℕ) ∧
        x = ⟨.push (stateAfter P inputs r os) dst bytes, os⟩
  | .unlock _ | .notify _ =>
      x = ⟨.program (stateAfter P inputs r (os ++ [.sent])), os ++ [.sent]⟩
  | .enter c _ | .test c _ | .wait c _ | .asleep c _ | .take c _ =>
      c.idx = (transport r).recvIdx (c.src : ℕ) ∧
        x = ⟨.take (stateAfter P inputs r os) c.src c.len, os⟩
  | .leave c bytes | .copyOut c bytes =>
      x = ⟨.copyOut (stateAfter P inputs r os) bytes c.len, os⟩

structure Simulates (w : World n (Fin n)) (v : InProc.World n σ) : Prop where
  grid : v.grid = w.grid
  ranks : ∀ r, Matches P inputs r (w.history r).outcomes (v.ranks r) (w.stage r)

end Programs

variable {P : (r : Fin n) → RankProgram (σ r)} {inputs : (r : Fin n) → σ r}

theorem stateAfter_concat (r : Fin n) (os : List Outcome) (o : Outcome) :
    stateAfter P inputs r (os ++ [o]) = (P r).resume (stateAfter P inputs r os) o := by
  simp [stateAfter]

theorem simulates_start (mem : Mem) :
    Simulates P inputs (World.start mem) (InProc.World.start inputs) where
  grid := rfl
  ranks _ := rfl

section Updates

variable {w w' : World n (Fin n)} {v v' : InProc.World n σ} {r : Fin n} {z : Stage n}

theorem Simulates.update (h : Simulates P inputs w v) {x : Rank n (σ r)}
    (hstage : w'.stage = Function.update w.stage r z)
    (hother : ∀ u ≠ r, (w'.history u).outcomes = (w.history u).outcomes)
    (hgrid : v'.grid = w'.grid) (hranks : v'.ranks = Function.update v.ranks r x)
    (hx : Matches P inputs r (w'.history r).outcomes x z) : Simulates P inputs w' v' := by
  refine ⟨hgrid, fun u => ?_⟩
  rw [hstage, hranks]
  by_cases hu : u = r
  · subst hu
    rw [Function.update_self, Function.update_self]
    exact hx
  · rw [Function.update_of_ne hu, Function.update_of_ne hu, hother u hu]
    exact h.ranks u

theorem Simulates.stutter (h : Simulates P inputs w v)
    (hstage : w'.stage = Function.update w.stage r z)
    (hother : ∀ u ≠ r, (w'.history u).outcomes = (w.history u).outcomes)
    (hgrid : w'.grid = w.grid)
    (hx : Matches P inputs r (w'.history r).outcomes (v.ranks r) z) : Simulates P inputs w' v :=
  h.update hstage hother (h.grid.trans hgrid.symm) (Function.update_eq_self r v.ranks).symm hx

theorem outcomes_setHistory {x : History n} (w : World n (Fin n)) :
    ∀ u ≠ r, ((w.setHistory r x).history u).outcomes = (w.history u).outcomes := by
  intro u hu
  rw [World.setHistory]
  exact congrArg History.outcomes (Function.update_of_ne hu ..)

theorem outcomes_finish (w : World n (Fin n)) (o : Outcome) :
    ((w.finish r o).history r).outcomes = (w.history r).outcomes ++ [o] := by
  simp [World.finish, World.setHistory, World.setStage, History.finish]

theorem Simulates.finish (h : Simulates P inputs w v) {o : Outcome} (hgrid : v'.grid = w.grid)
    (hranks : v'.ranks = Function.update v.ranks r
      ⟨.program (stateAfter P inputs r ((w.history r).outcomes ++ [o])),
        (w.history r).outcomes ++ [o]⟩) : Simulates P inputs (w.finish r o) v' := by
  refine h.update rfl (outcomes_setHistory _) hgrid hranks ?_
  rw [outcomes_finish]
  rfl

theorem Simulates.sent (h : Simulates P inputs w v) {idx : ℕ}
    (hsent : Matches P inputs r (w.history r).outcomes (v.ranks r) (.notify idx)) :
    Simulates P inputs (w.finish r .sent) v := by
  refine h.finish h.grid ?_
  have hx : v.ranks r = _ := hsent
  rw [← hx, Function.update_eq_self]

/-! ### The steps of the threads -/

theorem not_outOfRange_fin (r d : Fin n) : ¬ (transport r).OutOfRange ((d : ℕ) : ℤ) := by
  simp only [InProcTransport.OutOfRange, transport, not_or]
  omega

theorem step_enter {s : σ r} {os : List Outcome} {c : InProc.Call}
    (hx : v.ranks r = ⟨.program s, os⟩) (hc : (P r).call s = some c) :
    exec (InProc.step P) v [r] =
      some (v.setRank r ((⟨.program s, os⟩ : Rank n (σ r)).enter (P r) s c)) := by
  simp [exec, InProc.step, hx, hc]

theorem simulates_send (h : Simulates P inputs w v) {dst : ℤ} {buf : Addr} {len : ℕ}
    (hfollows : Follows P inputs w (.call r (.send dst buf len)) w')
    (hs : step id w (.call r (.send dst buf len)) = some w') :
    ∃ v', exec (InProc.step P) v (atomicSteps w (.call r (.send dst buf len)) w') = some v' ∧
      Simulates P inputs w' v' := by
  simp only [step] at hs
  split at hs
  · rename_i hstage
    obtain rfl := Option.some.inj hs
    have hmatch := h.ranks r
    rw [hstage] at hmatch
    simp only [Follows] at hfollows
    split at hfollows
    · rename_i d bytes hcall
      obtain ⟨rfl, -⟩ := hfollows
      by_cases hrange : (transport r).OutOfRange d
      · simp only [atomicSteps, World.begin, id, hrange, if_true, dif_pos]
        refine ⟨_, step_enter hmatch hcall, h.finish h.grid ?_⟩
        simp only [Rank.enter, hrange, dif_pos, Rank.finish, stateAfter_concat]
        rfl
      · -- the program makes its call when the buffer is copied
        simp only [atomicSteps, World.begin, id, hrange, if_false, dif_neg, not_false_eq_true]
        refine ⟨v, rfl, h.stutter rfl (fun _ _ => rfl) rfl ⟨?_, hmatch⟩⟩
        rw [toNat_cast_of_not_outOfRange hrange]
    · exact hfollows.elim
  · cases hs

theorem simulates_recv (h : Simulates P inputs w v) {src : ℤ} {buf : Addr} {len : ℕ}
    (hfollows : Follows P inputs w (.call r (.recv src buf len)) w')
    (hs : step id w (.call r (.recv src buf len)) = some w') :
    ∃ v', exec (InProc.step P) v (atomicSteps w (.call r (.recv src buf len)) w') = some v' ∧
      Simulates P inputs w' v' := by
  simp only [step] at hs
  split at hs
  · rename_i hstage
    obtain rfl := Option.some.inj hs
    have hmatch := h.ranks r
    rw [hstage] at hmatch
    have hcall : nextCall P inputs w r = some (.recv src len) := hfollows
    refine ⟨_, step_enter hmatch hcall, ?_⟩
    by_cases hrange : (transport r).OutOfRange src
    · simp only [World.begin, id, hrange, dif_pos]
      refine h.finish h.grid ?_
      simp only [Rank.enter, hrange, dif_pos, Rank.finish, stateAfter_concat]
      rfl
    · simp only [World.begin, id, hrange, dif_neg, not_false_eq_true]
      refine h.update rfl (fun _ _ => rfl) h.grid rfl ⟨?_, ?_⟩
      · rw [toNat_cast_of_not_outOfRange hrange]
      · simp only [Rank.enter, hrange, dif_neg, not_false_eq_true]
        rfl
  · cases hs

theorem Simulates.copyIn (h : Simulates P inputs w v) {dst : Fin n} {idx : ℕ} {buf : Addr}
    {len : ℕ} (hstage : w.stage r = .copyIn dst idx buf len)
    (hcall : nextCall P inputs w r = some (.send (dst : ℕ) (w.mem.read buf len))) :
    ∃ v', exec (InProc.step P) v [r] = some v' ∧
      Simulates P inputs ((w.setStage r (.lock idx (w.mem.read buf len))).setHistory r
        ((w.history r).send ⟨dst, buf, len, w.mem⟩)) v' := by
  have hmatch := h.ranks r
  rw [hstage] at hmatch
  obtain ⟨hidx, hx⟩ := hmatch
  refine ⟨_, step_enter hx hcall, ?_⟩
  refine h.update rfl (outcomes_setHistory _) h.grid rfl ⟨dst, hidx, ?_⟩
  simp only [World.setHistory, World.setStage, Function.update_self, Rank.enter,
    not_outOfRange_fin, dif_neg, not_false_eq_true, Int.toNat_natCast, Fin.eta]
  rfl

theorem Simulates.push (h : Simulates P inputs w v) {idx : ℕ} {bytes : List Byte}
    (hstage : w.stage r = .push idx bytes) :
    ∃ v', exec (InProc.step P) v [r] = some v' ∧
      Simulates P inputs { w.setStage r (.unlock idx) with grid := w.grid.push idx bytes } v' := by
  have hmatch := h.ranks r
  rw [hstage] at hmatch
  obtain ⟨dst, hidx, hx⟩ := hmatch
  refine ⟨_, by simp only [exec, InProc.step, hx]; rfl, ?_⟩
  refine h.update (z := .unlock idx) rfl (fun _ _ => rfl) (by rw [h.grid, hidx]) rfl ?_
  simp only [Matches, Rank.finish, stateAfter_concat]
  rfl

theorem Simulates.take (h : Simulates P inputs w v) {c : RecvCall n} {b : Bool}
    {bytes : List Byte} {rest : List (List Byte)} (hstage : w.stage r = .take c b)
    (hq : w.grid.q c.idx = bytes :: rest) :
    ∃ v', exec (InProc.step P) v [r] = some v' ∧
      Simulates P inputs
        { (w.setStage r (.leave c bytes)).setHistory r ((w.history r).take c.src bytes) with
          grid := w.grid.pop c.idx } v' := by
  have hmatch := h.ranks r
  rw [hstage] at hmatch
  obtain ⟨hidx, hx⟩ := hmatch
  have hq' : v.grid.q ((transport r).recvIdx (c.src : ℕ)) = bytes :: rest := by
    rw [h.grid, ← hidx, hq]
  refine ⟨_, by simp only [exec, InProc.step, hx, hq']; rfl, ?_⟩
  refine h.update (z := .leave c bytes) rfl (outcomes_setHistory _) ?_ rfl ?_
  · rw [h.grid, hidx]
  · simp only [World.setHistory, World.setStage, Function.update_self]
    rfl

theorem Simulates.copyOut (h : Simulates P inputs w v) {c : RecvCall n} {bytes : List Byte}
    (hstage : w.stage r = .copyOut c bytes) :
    ∃ v', exec (InProc.step P) v [r] = some v' ∧ Simulates P inputs (w.copyOut r c bytes) v' := by
  have hmatch := h.ranks r
  rw [hstage] at hmatch
  have hx : v.ranks r = _ := hmatch
  refine ⟨_, by simp only [exec, InProc.step, hx]; rfl, ?_⟩
  refine h.update (z := .program) rfl (outcomes_setHistory _) h.grid rfl ?_
  simp only [World.copyOut, Function.update_self, History.recv, History.finish, Matches,
    stateAfter_concat, Rank.copyOut]
  split <;> rfl

/-- A step inside a call. -/
theorem simulates_next (h : Simulates P inputs w v)
    (hfollows : Follows P inputs w (.next r) w') (hs : step id w (.next r) = some w') :
    ∃ v', exec (InProc.step P) v (atomicSteps w (.next r) w') = some v' ∧
      Simulates P inputs w' v' := by
  have hmatch := h.ranks r
  simp only [step] at hs
  cases hstage : w.stage r with
  | program => simp [World.next, hstage] at hs
  | copyIn dst idx buf len =>
      simp only [Follows, hstage] at hfollows
      simp only [World.next, hstage, Option.some.injEq] at hs
      subst hs
      simp only [atomicSteps, hstage]
      exact h.copyIn hstage hfollows
  | lock idx bytes =>
      rw [hstage] at hmatch
      simp only [World.next, hstage, Option.ite_none_right_eq_some, Option.some.injEq] at hs
      obtain ⟨-, rfl⟩ := hs
      simp only [atomicSteps, hstage]
      exact ⟨v, rfl, h.stutter rfl (fun _ _ => rfl) rfl hmatch⟩
  | push idx bytes =>
      simp only [World.next, hstage, Option.some.injEq] at hs
      subst hs
      simp only [atomicSteps, hstage]
      exact h.push hstage
  | unlock idx =>
      rw [hstage] at hmatch
      simp only [World.next, hstage, Option.some.injEq] at hs
      subst hs
      simp only [atomicSteps, hstage]
      exact ⟨v, rfl, h.stutter rfl (fun _ _ => rfl) rfl hmatch⟩
  | notify idx =>
      rw [hstage] at hmatch
      simp only [World.next, hstage, Option.ite_none_left_eq_some, Option.some.injEq] at hs
      obtain ⟨-, rfl⟩ := hs
      simp only [atomicSteps, hstage]
      exact ⟨v, rfl, h.sent hmatch⟩
  | enter c b =>
      rw [hstage] at hmatch
      simp only [World.next, hstage, Option.ite_none_right_eq_some, Option.some.injEq] at hs
      obtain ⟨-, rfl⟩ := hs
      simp only [atomicSteps, hstage]
      exact ⟨v, rfl, h.stutter rfl (fun _ _ => rfl) rfl hmatch⟩
  | test c b =>
      rw [hstage] at hmatch
      simp only [World.next, hstage] at hs
      simp only [atomicSteps, hstage]
      refine ⟨v, rfl, ?_⟩
      -- to the program it is the same whether the queue is empty
      split at hs <;> obtain rfl := Option.some.inj hs
      · exact h.stutter (z := .wait c b) rfl (fun _ _ => rfl) rfl hmatch
      · exact h.stutter (z := .take c b) rfl (fun _ _ => rfl) rfl hmatch
  | wait c b =>
      rw [hstage] at hmatch
      simp only [World.next, hstage, Option.some.injEq] at hs
      subst hs
      simp only [atomicSteps, hstage]
      exact ⟨v, rfl, h.stutter (z := .asleep c false) rfl (fun _ _ => rfl) rfl hmatch⟩
  | asleep c b =>
      rw [hstage] at hmatch
      simp only [World.next, hstage, Option.some.injEq] at hs
      subst hs
      simp only [atomicSteps, hstage]
      exact ⟨v, rfl, h.stutter (z := .enter c b) rfl (fun _ _ => rfl) rfl hmatch⟩
  | take c b =>
      simp only [World.next, hstage] at hs
      split at hs
      · cases hs
      · rename_i bytes rest hq
        obtain rfl := Option.some.inj hs
        simp only [atomicSteps, hstage]
        exact h.take hstage hq
  | leave c bytes =>
      rw [hstage] at hmatch
      simp only [World.next, hstage, Option.some.injEq] at hs
      subst hs
      simp only [atomicSteps, hstage]
      exact ⟨v, rfl, h.stutter (z := .copyOut c bytes) rfl (fun _ _ => rfl) rfl hmatch⟩
  | copyOut c bytes =>
      simp only [World.next, hstage, Option.some.injEq] at hs
      subst hs
      simp only [atomicSteps, hstage]
      exact h.copyOut hstage

theorem simulates_notifyOne {u : Fin n} (h : Simulates P inputs w v)
    (hs : step id w (.notifyOne r u) = some w') : Simulates P inputs w' v := by
  simp only [step] at hs
  split at hs
  · rename_i idx hstage
    simp only [Option.ite_none_right_eq_some, Option.some.injEq] at hs
    obtain ⟨hsleeps, rfl⟩ := hs
    obtain ⟨c, hasleep, -⟩ := sleepsOn_eq_true.mp hsleeps
    have hmatch := h.ranks u
    rw [hasleep] at hmatch
    have hroused : Simulates P inputs (w.setStage u (w.stage u).rouse) v := by
      rw [hasleep]
      exact h.stutter (z := .asleep c true) rfl (fun _ _ => rfl) rfl hmatch
    have hsent := h.ranks r
    rw [hstage] at hsent
    exact hroused.sent hsent
  · cases hs

theorem simulates_step {a : Action (Fin n)} (h : Simulates P inputs w v)
    (hfollows : Follows P inputs w a w') (hs : step id w a = some w') :
    ∃ v', exec (InProc.step P) v (atomicSteps w a w') = some v' ∧ Simulates P inputs w' v' := by
  cases a with
  | store a bytes =>
      simp only [step, Option.some.injEq] at hs
      subst hs
      exact ⟨v, rfl, ⟨h.grid, h.ranks⟩⟩
  | call r c =>
      cases c with
      | send dst buf len => exact simulates_send h hfollows hs
      | recv src buf len => exact simulates_recv h hfollows hs
  | next r => exact simulates_next h hfollows hs
  | notifyOne r u => exact ⟨v, rfl, simulates_notifyOne h hs⟩

end Updates

def World.endedCalls (w : World n (Fin n)) (r : Fin n) : List Outcome :=
  match w.stage r with
  | .unlock _ | .notify _ => (w.history r).outcomes ++ [.sent]
  | _ => (w.history r).outcomes

theorem Simulates.outcomes {w : World n (Fin n)} {v : InProc.World n σ}
    (h : Simulates P inputs w v) (r : Fin n) : (v.ranks r).outcomes = w.endedCalls r := by
  have hmatch := h.ranks r
  unfold World.endedCalls
  cases hstage : w.stage r with
  | program | unlock | notify | leave | copyOut =>
      rw [hstage] at hmatch
      exact congrArg Rank.outcomes hmatch
  | copyIn | enter | test | wait | asleep | take =>
      rw [hstage] at hmatch
      exact congrArg Rank.outcomes hmatch.2
  | lock | push =>
      rw [hstage] at hmatch
      obtain ⟨_, _, hx⟩ := hmatch
      exact congrArg Rank.outcomes hx

theorem simulates_exec {mem : Mem} {as : List (Action (Fin n))} {w : World n (Fin n)}
    (hfollows : Steps (step id) (Follows P inputs) (World.start mem) as)
    (hw : exec (step id) (World.start mem) as = some w) :
    ∃ v, exec (InProc.step P) (InProc.World.start inputs)
        (record (step id) atomicSteps (World.start mem) as) = some v ∧
      Simulates P inputs w v := by
  have hstep : ∀ w a w' v, Follows P inputs w a w' → Simulates P inputs w v →
      step id w a = some w' →
        ∃ v', exec (InProc.step P) v (atomicSteps w a w') = some v' ∧ Simulates P inputs w' v' :=
    fun _ _ _ _ hf h hs => simulates_step h hf hs
  exact Steps.simulate hstep hfollows hw (simulates_start mem)

/-- **Refinement.** Whatever threads do that carry out rank programs, with every lock,
wait, wake-up and notification, the steps of theirs that count make a run of the rank
programs with atomic calls: with the same messages on every queue, and the same outcomes
of the calls at every rank. -/
theorem threads_refine_programs {mem : Mem} {as : List (Action (Fin n))} {w : World n (Fin n)}
    (hfollows : Steps (step id) (Follows P inputs) (World.start mem) as)
    (hw : exec (step id) (World.start mem) as = some w) :
    ∃ v, exec (InProc.step P) (InProc.World.start inputs)
        (record (step id) atomicSteps (World.start mem) as) = some v ∧
      (∀ idx, v.grid.q idx = w.grid.q idx) ∧
      ∀ r, (v.ranks r).outcomes = w.endedCalls r := by
  obtain ⟨v, hv, hsim⟩ := simulates_exec hfollows hw
  exact ⟨v, hv, fun _ => by rw [hsim.grid], hsim.outcomes⟩

def sender : Fin 2 := ⟨0, Nat.zero_lt_two⟩
def receiver : Fin 2 := ⟨1, Nat.one_lt_two⟩

def oneMessage (r : Fin 2) : List InProc.Call :=
  if r = sender then [.send 1 [7]] else [.recv 0 1]

def sleepThenTake : List (Action (Fin 2)) :=
  .call receiver (.recv 0 64 1) :: List.replicate 3 (.next receiver) ++
    .call sender (.send 1 32 1) :: List.replicate 4 (.next sender) ++
    .notifyOne sender receiver :: List.replicate 6 (.next receiver)

theorem sleepThenTake_follows :
    Steps (step id) (Follows (fun _ => script) oneMessage) (World.start fun _ => 7)
      sleepThenTake := by
  decide +kernel

theorem threads_refine_programs_sleepThenTake :
    ∃ w : World 2 (Fin 2), exec (step id) (World.start fun _ => 7) sleepThenTake = some w ∧
      ∃ v, exec (InProc.step fun _ => script) (InProc.World.start oneMessage)
          [receiver, sender, sender, receiver, receiver] = some v ∧
        ∀ r, (v.ranks r).outcomes = w.endedCalls r := by
  have hw : exec (step id) (World.start fun _ => 7) sleepThenTake = some _ := rfl
  obtain ⟨v, hv, -, houtcomes⟩ := threads_refine_programs sleepThenTake_follows hw
  exact ⟨_, hw, v, hv, houtcomes⟩

end Threads

end SystemsPrep.InProc
