import SystemsPrep.InProc.Refinement
import SystemsPrep.InProc.Wakeups

/-!
What the locks add to the rank programs: nothing.

Threads that carry out rank programs stop only where the programs themselves do. A mutex
is always held by a thread that can go on, and a thread that sleeps without having been
notified sleeps on an empty queue once all others have stopped. So a state in which
every thread has finished or sleeps is an end of the programs, and it is the end that
every complete schedule has. The way there is no longer than five steps for each step of
the programs and four for each spurious wake-up.
-/

namespace SystemsPrep.InProc.Threads

open Base

variable {n : ℕ} {σ : Fin n → Type*}

/-! ### The holder of a mutex is in its critical section -/

section Held

variable {ι : Type*} [DecidableEq ι]

def Held (w : World n ι) : Prop := ∀ idx t, w.mu idx = some t → (w.stage t).holds idx

variable {w w' : World n ι} {t : ι} {s z : Stage n}

theorem Held.update (hh : Held w) (hstage : w'.stage = Function.update w.stage t s)
    (hme : ∀ idx, w'.mu idx = some t → s.holds idx)
    (hmu : ∀ idx, ∀ u ≠ t, w'.mu idx = some u → w.mu idx = some u) : Held w' := by
  intro idx u hu
  rw [hstage]
  by_cases hut : u = t
  · subst hut
    rw [Function.update_self]
    exact hme idx hu
  · rw [Function.update_of_ne hut]
    exact hh idx u (hmu idx u hut hu)

theorem Held.setStage (hh : Held w) (ht : w.stage t = z)
    (hstage : w'.stage = Function.update w.stage t s) (hmu : w'.mu = w.mu)
    (hs : ∀ idx, z.holds idx → s.holds idx) : Held w' :=
  hh.update hstage (fun idx h => hs idx (ht ▸ hh idx t (hmu ▸ h))) fun _ _ _ h => hmu ▸ h

theorem Held.outside (hh : Held w) (ht : w.stage t = z)
    (hstage : w'.stage = Function.update w.stage t s) (hmu : w'.mu = w.mu)
    (hout : ∀ idx, ¬ z.holds idx) : Held w' :=
  hh.setStage ht hstage hmu fun idx h => absurd h (hout idx)

theorem Held.acquire (hh : Held w) {idx : ℕ} (ht : w.stage t = z)
    (hstage : w'.stage = Function.update w.stage t s)
    (hmu : w'.mu = Function.update w.mu idx (some t)) (hout : ∀ i, ¬ z.holds i)
    (hs : s.holds idx) : Held w' := by
  refine hh.update hstage (fun i hi => ?_) fun i u hu hi => ?_
  · by_cases hii : i = idx
    · exact hii ▸ hs
    · rw [hmu, Function.update_of_ne hii] at hi
      exact absurd (ht ▸ hh i t hi) (hout i)
  · by_cases hii : i = idx
    · rw [hmu, hii, Function.update_self] at hi
      exact absurd (Option.some.inj hi).symm hu
    · rwa [hmu, Function.update_of_ne hii] at hi

theorem Held.release (hh : Held w) {idx : ℕ} (ht : w.stage t = z)
    (hstage : w'.stage = Function.update w.stage t s)
    (hmu : w'.mu = Function.update w.mu idx none) (honly : ∀ i, z.holds i → i = idx) :
    Held w' := by
  have hne : ∀ i u, w'.mu i = some u → i ≠ idx := by
    rintro i u hi rfl
    rw [hmu, Function.update_self] at hi
    cases hi
  refine hh.update hstage (fun i hi => ?_) fun i u _ hi => ?_
  · have hi' := hi
    rw [hmu, Function.update_of_ne (hne i t hi)] at hi'
    exact absurd (honly i (ht ▸ hh i t hi')) (hne i t hi)
  · have hii := hne i u hi
    rwa [hmu, Function.update_of_ne hii] at hi

theorem held_move {rank : ι → Fin n} (hh : Held w) (hmove : Move rank w w') : Held w' := by
  cases hmove with
  | store a bytes => exact hh
  | refuse t e ht => exact hh.outside (s := .program) ht rfl rfl fun _ => id
  | send t dst buf len ht => exact hh.outside ht rfl rfl fun _ => id
  | recv t src buf len ht => exact hh.outside ht rfl rfl fun _ => id
  | copyIn t dst idx buf len ht => exact hh.outside (s := .lock idx _) ht rfl rfl fun _ => id
  | lock t idx bytes ht hmu => exact hh.acquire ht rfl rfl (fun _ => id) rfl
  | push t idx bytes ht => exact hh.setStage (s := .unlock idx) ht rfl rfl fun _ => id
  | unlock t idx ht => exact hh.release ht rfl rfl fun _ h => h.symm
  | nobody t idx ht hnone => exact hh.outside (s := .program) ht rfl rfl fun _ => id
  | rouse t u idx c ht hu hidx =>
      have hroused : Held (w.setStage u (.asleep c true)) :=
        hh.outside hu rfl rfl fun _ => id
      have htu : t ≠ u := by
        rintro rfl
        rw [ht] at hu
        cases hu
      have ht' : (w.setStage u (.asleep c true)).stage t = .notify idx := by
        rw [World.setStage_stage, Function.update_of_ne htu, ht]
      exact hroused.outside (s := .program) ht' rfl rfl fun _ => id
  | enter t c b ht hmu => exact hh.acquire ht rfl rfl (fun _ => id) rfl
  | empty t c b ht hq => exact hh.setStage ht rfl rfl fun _ => id
  | filled t c b ht hq => exact hh.setStage ht rfl rfl fun _ => id
  | wait t c b ht => exact hh.release ht rfl rfl fun _ h => h.symm
  | wake t c b ht => exact hh.outside ht rfl rfl fun _ => id
  | take t c b bytes rest ht hq =>
      exact hh.setStage (s := .leave c bytes) ht rfl rfl fun _ => id
  | leave t c bytes ht => exact hh.release ht rfl rfl fun _ h => h.symm
  | copyOut t c bytes ht => exact hh.outside (s := .program) ht rfl rfl fun _ => id

theorem held_exec [Fintype ι] {rank : ι → Fin n} {mem : Mem} {as : List (Action ι)}
    (h : exec (step rank) (World.start mem) as = some w) : Held w :=
  exec_invariant (fun _ _ _ hh hs => held_move hh (move_of_step hs)) h
    fun _ _ h => nomatch h

end Held

variable {P : (r : Fin n) → RankProgram (σ r)} {inputs : (r : Fin n) → σ r}
  {w w' : World n (Fin n)} {r : Fin n}

/-! ### Going on -/

def Action.inside {ι : Type*} : Action ι → Bool
  | .next _ | .notifyOne _ _ => true
  | .store _ _ | .call _ _ => false

def World.spurious (w : World n (Fin n)) : Action (Fin n) → Bool
  | .next r =>
      match w.stage r with
      | .asleep _ false => true
      | _ => false
  | .store _ _ | .call _ _ | .notifyOne _ _ => false

def CanGoOn (w : World n (Fin n)) : Prop :=
  ∃ a w', step id w a = some w' ∧ a.inside = true ∧ w.spurious a = false

theorem canGoOn_of_next (h : (w.next r).isSome) (hs : w.spurious (.next r) = false) :
    CanGoOn w := by
  obtain ⟨w', hw'⟩ := Option.isSome_iff_exists.mp h
  exact ⟨.next r, w', hw', rfl, hs⟩

theorem canGoOn_of_holds (hl : Locks w) (idx : ℕ) (h : (w.stage r).holds idx) : CanGoOn w := by
  have hsees := hl.sees r
  cases hstage : w.stage r with
  | push | unlock | wait | leave =>
      exact canGoOn_of_next (r := r) (by simp [World.next, hstage])
        (by simp [World.spurious, hstage])
  | test c b =>
      refine canGoOn_of_next (r := r) ?_ (by simp [World.spurious, hstage])
      simp only [World.next, hstage]
      split <;> rfl
  | take c b =>
      rw [hstage] at hsees
      refine canGoOn_of_next (r := r) ?_ (by simp [World.spurious, hstage])
      simp only [World.next, hstage]
      split
      · exact absurd ‹_› hsees
      · rfl
  | _ =>
      rw [hstage] at h
      exact h.elim

theorem canGoOn_of_wants (hl : Locks w) (hh : Held w) (idx : ℕ)
    (h : w.mu idx = none → CanGoOn w) : CanGoOn w := by
  cases hmu : w.mu idx with
  | none => exact h hmu
  | some u => exact canGoOn_of_holds hl idx (hh idx u hmu)

/-- A thread inside a call is asleep without having been notified, or some thread can
go on. -/
theorem canGoOn_of_inside (hl : Locks w) (hh : Held w) (hcall : w.stage r ≠ .program)
    (hawake : ∀ c, w.stage r ≠ .asleep c false) : CanGoOn w := by
  cases hstage : w.stage r with
  | program => exact absurd hstage hcall
  | copyIn | copyOut =>
      exact canGoOn_of_next (r := r) (by simp [World.next, hstage])
        (by simp [World.spurious, hstage])
  | lock idx bytes =>
      exact canGoOn_of_wants hl hh idx fun hmu =>
        canGoOn_of_next (r := r) (by simp [World.next, hstage, hmu])
          (by simp [World.spurious, hstage])
  | enter c b =>
      exact canGoOn_of_wants hl hh c.idx fun hmu =>
        canGoOn_of_next (r := r) (by simp [World.next, hstage, hmu])
          (by simp [World.spurious, hstage])
  | notify idx =>
      by_cases hsleep : ∃ u, (w.stage u).sleepsOn idx = true
      · obtain ⟨u, hu⟩ := hsleep
        have hstep : step id w (.notifyOne r u) =
            some ((w.setStage u (w.stage u).rouse).finish r .sent) := by
          simp only [step, hstage, hu, if_true]
        exact ⟨_, _, hstep, rfl, rfl⟩
      · exact canGoOn_of_next (r := r) (by simp [World.next, hstage, hsleep])
          (by simp [World.spurious, hstage])
  | asleep c b =>
      cases b with
      | false => exact absurd hstage (hawake c)
      | true =>
          exact canGoOn_of_next (r := r) (by simp [World.next, hstage])
            (by simp [World.spurious, hstage])
  | push idx | unlock idx => exact canGoOn_of_holds (r := r) hl idx (hstage ▸ rfl)
  | test c | wait c | take c | leave c =>
      exact canGoOn_of_holds (r := r) hl c.idx (hstage ▸ rfl)

/-! ### The end of the threads is the end of the programs -/

/-- Every thread has finished its program or sleeps without having been notified. -/
def Quiet (P : (r : Fin n) → RankProgram (σ r)) (inputs : (r : Fin n) → σ r)
    (w : World n (Fin n)) : Prop :=
  ∀ r, (w.stage r = .program ∧ nextCall P inputs w r = none) ∨ ∃ c, w.stage r = .asleep c false

theorem Quiet.credit (h : Quiet P inputs w) (idx : ℕ) : tally (Stage.credit idx) w.stage = 0 := by
  refine Finset.sum_eq_zero fun r _ => ?_
  rcases h r with ⟨hstage, -⟩ | ⟨c, hstage⟩ <;> rw [hstage] <;> rfl

/-- A message on the queue of a sleeper would have a cover. -/
theorem Quiet.queue_eq_nil (h : Quiet P inputs w) {c : RecvCall n}
    (hc : Covered c.idx w) (hstage : w.stage r = .asleep c false) : w.grid.q c.idx = [] := by
  have hle := hc ⟨r, by rw [hstage]; exact decide_eq_true rfl⟩
  rw [h.credit] at hle
  exact List.length_eq_zero_iff.mp (Nat.le_zero.mp hle)

theorem Quiet.stuck (h : Quiet P inputs w) (hc : ∀ idx, Covered idx w) {v : InProc.World n σ}
    (hsim : Simulates P inputs w v) : Stuck (InProc.step P) v := by
  intro r
  have hmatch := hsim.ranks r
  rcases h r with ⟨hstage, hdone⟩ | ⟨c, hstage⟩
  · rw [hstage] at hmatch
    have hx : v.ranks r = _ := hmatch
    have hcall : (P r).call (stateAfter P inputs r (w.history r).outcomes) = none := hdone
    simp only [InProc.step, hx, hcall, Option.map_none]
  · rw [hstage] at hmatch
    obtain ⟨hidx, hx⟩ := hmatch
    have hq := h.queue_eq_nil (hc c.idx) hstage
    simp only [InProc.step, hx, hsim.grid, ← hidx, hq]

theorem Quiet.endedCalls (h : Quiet P inputs w) (r : Fin n) :
    w.endedCalls r = (w.history r).outcomes := by
  unfold World.endedCalls
  rcases h r with ⟨hstage, -⟩ | ⟨c, hstage⟩ <;> rw [hstage]

/-- **No deadlock of its own.** Let the programs have some complete schedule. Threads
that carry them out, in any interleaving, have come to the end of that schedule when
each of them has finished or sleeps: the same outcomes at every rank, the same messages
left on every queue. Until then some thread is about to make its next call, or has a
step inside a call that is not a spurious wake-up. -/
theorem threads_stop_as_programs (hn : n * n < 2 ^ 31) {mem : Mem} {as : List (Action (Fin n))}
    (hfollows : Steps (step id) (Follows P inputs) (World.start mem) as)
    (hw : exec (step id) (World.start mem) as = some w) {bs : List (Fin n)}
    {u : InProc.World n σ} (hu : exec (InProc.step P) (InProc.World.start inputs) bs = some u)
    (hustuck : ∀ r, InProc.step P u r = none) :
    (Quiet P inputs w → (∀ r, (w.history r).outcomes = (u.ranks r).outcomes) ∧
      ∀ idx, w.grid.q idx = u.grid.q idx) ∧
    (¬ Quiet P inputs w →
      (∃ r c, w.stage r = .program ∧ nextCall P inputs w r = some c) ∨ CanGoOn w) := by
  constructor
  · intro hquiet
    obtain ⟨v, hv, hsim⟩ := simulates_exec hfollows hw
    have hvstuck := hquiet.stuck (fun _ => (covered_exec hw).2) hsim
    obtain ⟨rfl, -⟩ := (diamond_step P hn).unique_end hv hvstuck hu hustuck
    exact ⟨fun r => by rw [hsim.outcomes, hquiet.endedCalls], fun _ => by rw [hsim.grid]⟩
  · intro hnot
    obtain ⟨r, hr⟩ := not_forall.mp hnot
    obtain ⟨hprogram, hasleep⟩ := not_or.mp hr
    by_cases hstage : w.stage r = .program
    · obtain ⟨c, hc⟩ := Option.ne_none_iff_exists'.mp fun h => hprogram ⟨hstage, h⟩
      exact Or.inl ⟨r, c, hstage, hc⟩
    · have hawake : ∀ c, w.stage r ≠ .asleep c false := fun c h => hasleep ⟨c, h⟩
      have hinv : Locks w ∧ Covered 0 w := covered_exec hw
      exact Or.inr (canGoOn_of_inside hinv.1 (held_exec hw) hstage hawake)

def sendThenReceive : List (Fin 2) := [sender, sender, receiver, receiver, receiver]

theorem threads_stop_as_programs_sleepThenTake :
    ∃ (w : World 2 (Fin 2)) (u : InProc.World 2 fun _ => List InProc.Call),
      exec (step id) (World.start fun _ => 7) sleepThenTake = some w ∧
      exec (InProc.step fun _ => script) (InProc.World.start oneMessage) sendThenReceive =
        some u ∧
      (u.ranks receiver).outcomes = [.received [7]] ∧
      ∀ r, (w.history r).outcomes = (u.ranks r).outcomes := by
  have hw : exec (step id) (World.start fun _ => 7) sleepThenTake = some _ := rfl
  have hu : exec (InProc.step fun _ => script) (InProc.World.start oneMessage) sendThenReceive =
    some _ := rfl
  have hend := threads_stop_as_programs (by norm_num) sleepThenTake_follows hw hu (by decide)
  refine ⟨_, _, hw, hu, rfl, (hend.1 ?_).1⟩
  exact Fin.forall_fin_two.mpr ⟨Or.inl ⟨rfl, rfl⟩, Or.inl ⟨rfl, rfl⟩⟩

/-! ### How long the threads run -/

/-- What a thread has put aside for the steps that match none of its program. A sleeper
that is notified receives from the sender what it takes to come back to sleep. -/
def Stage.aside : Stage n → ℕ
  | .program => 1
  | .copyIn _ _ _ _ => 0
  | .lock _ _ => 4
  | .push _ _ => 3
  | .unlock _ => 7
  | .notify _ => 6
  | .enter _ _ => 5
  | .test _ _ => 4
  | .wait _ _ => 3
  | .asleep _ true => 6
  | .asleep _ false => 2
  | .take _ _ => 3
  | .leave _ _ => 7
  | .copyOut _ _ => 6

def Action.isMove {ι : Type*} : Action ι → Bool
  | .store _ _ => false
  | .call _ _ | .next _ | .notifyOne _ _ => true

/-- What a step earns: five for each step of the programs, four for a spurious wake-up. -/
def earned (w : World n (Fin n)) (a : Action (Fin n)) (w' : World n (Fin n)) : ℕ :=
  5 * (atomicSteps w a w').length + 4 * (w.spurious a).toNat

theorem paid_of_stage {z : Stage n} {k : ℕ} (hstage : w'.stage = Function.update w.stage r z)
    (h : 1 + z.aside ≤ (w.stage r).aside + k) :
    1 + tally Stage.aside w'.stage ≤ tally Stage.aside w.stage + k := by
  have := tally_update Stage.aside w.stage r z
  rw [hstage]
  omega

theorem paid_call {c : Call} (hs : step id w (.call r c) = some w') :
    1 + tally Stage.aside w'.stage ≤
      tally Stage.aside w.stage + earned w (.call r c) w' := by
  simp only [step] at hs
  split at hs
  · rename_i hstage
    obtain rfl := Option.some.inj hs
    cases c with
    | send dst buf len =>
        by_cases hrange : (transport r).OutOfRange dst
        · simp only [World.begin, id, hrange, dif_pos]
          refine paid_of_stage (z := .program) rfl ?_
          simp [hstage, Stage.aside, earned, atomicSteps, World.spurious, hrange]
        · simp only [World.begin, id, hrange, dif_neg, not_false_eq_true]
          refine paid_of_stage (World.setStage_stage ..) ?_
          simp [hstage, Stage.aside]
    | recv src buf len =>
        by_cases hrange : (transport r).OutOfRange src
        · simp only [World.begin, id, hrange, dif_pos]
          refine paid_of_stage (z := .program) rfl ?_
          simp [hstage, Stage.aside, earned, atomicSteps, World.spurious]
        · simp only [World.begin, id, hrange, dif_neg, not_false_eq_true]
          refine paid_of_stage (World.setStage_stage ..) ?_
          simp [hstage, Stage.aside, earned, atomicSteps, World.spurious]
  · cases hs

theorem paid_next (hs : step id w (.next r) = some w') :
    1 + tally Stage.aside w'.stage ≤ tally Stage.aside w.stage + earned w (.next r) w' := by
  simp only [step] at hs
  cases hstage : w.stage r with
  | program => simp [World.next, hstage] at hs
  | copyIn dst idx buf len =>
      simp only [World.next, hstage, Option.some.injEq] at hs
      subst hs
      refine paid_of_stage (z := .lock idx _) rfl ?_
      simp [hstage, Stage.aside, earned, atomicSteps, World.spurious]
  | lock idx bytes =>
      simp only [World.next, hstage, Option.ite_none_right_eq_some, Option.some.injEq] at hs
      obtain ⟨-, rfl⟩ := hs
      refine paid_of_stage (z := .push idx bytes) rfl ?_
      simp [hstage, Stage.aside]
  | push idx bytes =>
      simp only [World.next, hstage, Option.some.injEq] at hs
      subst hs
      refine paid_of_stage (z := .unlock idx) rfl ?_
      simp [hstage, Stage.aside, earned, atomicSteps, World.spurious]
  | unlock idx =>
      simp only [World.next, hstage, Option.some.injEq] at hs
      subst hs
      refine paid_of_stage (z := .notify idx) rfl ?_
      simp [hstage, Stage.aside]
  | notify idx =>
      simp only [World.next, hstage, Option.ite_none_left_eq_some, Option.some.injEq] at hs
      obtain ⟨-, rfl⟩ := hs
      refine paid_of_stage (z := .program) rfl ?_
      simp only [hstage, Stage.aside]
      omega
  | enter c b =>
      simp only [World.next, hstage, Option.ite_none_right_eq_some, Option.some.injEq] at hs
      obtain ⟨-, rfl⟩ := hs
      refine paid_of_stage (z := .test c b) rfl ?_
      simp [hstage, Stage.aside]
  | test c b =>
      simp only [World.next, hstage] at hs
      split at hs <;> obtain rfl := Option.some.inj hs
      · refine paid_of_stage (z := .wait c b) rfl ?_
        simp [hstage, Stage.aside]
      · refine paid_of_stage (z := .take c b) rfl ?_
        simp [hstage, Stage.aside]
  | wait c b =>
      simp only [World.next, hstage, Option.some.injEq] at hs
      subst hs
      refine paid_of_stage (z := .asleep c false) rfl ?_
      simp [hstage, Stage.aside]
  | asleep c b =>
      simp only [World.next, hstage, Option.some.injEq] at hs
      subst hs
      refine paid_of_stage (z := .enter c b) rfl ?_
      cases b <;> simp [hstage, Stage.aside, earned, atomicSteps, World.spurious]
  | take c b =>
      simp only [World.next, hstage] at hs
      split at hs
      · cases hs
      · rename_i bytes rest hq
        obtain rfl := Option.some.inj hs
        refine paid_of_stage (z := .leave c bytes) rfl ?_
        simp [hstage, Stage.aside, earned, atomicSteps, World.spurious]
  | leave c bytes =>
      simp only [World.next, hstage, Option.some.injEq] at hs
      subst hs
      refine paid_of_stage (z := .copyOut c bytes) rfl ?_
      simp [hstage, Stage.aside]
  | copyOut c bytes =>
      simp only [World.next, hstage, Option.some.injEq] at hs
      subst hs
      refine paid_of_stage (z := .program) rfl ?_
      simp [hstage, Stage.aside, earned, atomicSteps, World.spurious]

/-- The sender hands over what the sleeper needs. -/
theorem paid_notifyOne {u : Fin n} (hs : step id w (.notifyOne r u) = some w') :
    1 + tally Stage.aside w'.stage ≤ tally Stage.aside w.stage := by
  simp only [step] at hs
  split at hs
  · rename_i idx hstage
    simp only [Option.ite_none_right_eq_some, Option.some.injEq] at hs
    obtain ⟨hsleeps, rfl⟩ := hs
    obtain ⟨c, hasleep, -⟩ := sleepsOn_eq_true.mp hsleeps
    have hru : r ≠ u := by
      rintro rfl
      rw [hasleep] at hstage
      cases hstage
    rw [hasleep]
    have hroused := tally_update Stage.aside w.stage u (.asleep c true)
    have hended := tally_update Stage.aside (Function.update w.stage u (.asleep c true)) r .program
    rw [Function.update_of_ne hru, hstage] at hended
    rw [hasleep] at hroused
    simp only [Stage.aside] at hroused hended
    change 1 + tally Stage.aside (Function.update
      (Function.update w.stage u (.asleep c true)) r .program) ≤ _
    omega
  · cases hs

theorem paid_step {a : Action (Fin n)} (hs : step id w a = some w') :
    a.isMove.toNat + tally Stage.aside w'.stage ≤
      tally Stage.aside w.stage + earned w a w' := by
  cases a with
  | store a bytes =>
      simp only [step, Option.some.injEq] at hs
      subst hs
      exact Nat.le_of_eq (Nat.zero_add _)
  | call r c => exact paid_call hs
  | next r => exact paid_next hs
  | notifyOne r u => exact (paid_notifyOne hs).trans (Nat.le_add_right _ _)

/-- **The threads keep pace with their programs.** If some complete schedule of the
programs takes `k` steps, threads that carry them out take at most five steps for each
of them, four for each spurious wake-up and one for each rank, in any interleaving. -/
theorem threads_steps_le (hn : n * n < 2 ^ 31) {mem : Mem} {as : List (Action (Fin n))}
    (hfollows : Steps (step id) (Follows P inputs) (World.start mem) as)
    (hw : exec (step id) (World.start mem) as = some w) {bs : List (Fin n)}
    {u : InProc.World n σ} (hu : exec (InProc.step P) (InProc.World.start inputs) bs = some u)
    (hustuck : ∀ r, InProc.step P u r = none) :
    as.countP Action.isMove ≤ 5 * bs.length +
      4 * total (step id) (fun w a _ => (w.spurious a).toNat) (World.start mem) as + n := by
  obtain ⟨v, hv, -⟩ := simulates_exec hfollows hw
  have hle := (diamond_step P hn).length_le hu hustuck hv
  rw [length_record] at hle
  have hpaid : total (step id) (fun _ a _ => a.isMove.toNat) (World.start mem) as +
      tally Stage.aside w.stage ≤ tally Stage.aside (World.start mem : World n (Fin n)).stage +
        total (step id) earned (World.start mem) as :=
    Steps.total_le (fun _ _ _ _ hs => paid_step hs) hfollows hw
  have hstart : tally Stage.aside (World.start mem : World n (Fin n)).stage = n := by
    simp [tally, World.start, Stage.aside]
  rw [total_of_countP hw, hstart] at hpaid
  unfold earned at hpaid
  rw [total_add, total_mul, total_mul] at hpaid
  omega

theorem threads_steps_le_sleepThenTake :
    sleepThenTake.countP Action.isMove ≤ 5 * 5 +
      4 * total (step id) (fun w a _ => (w.spurious a).toNat) (World.start fun _ => 7)
        sleepThenTake + 2 := by
  have hw : exec (step id) (World.start fun _ => 7) sleepThenTake = some _ := rfl
  have hu : exec (InProc.step fun _ => script) (InProc.World.start oneMessage) sendThenReceive =
    some _ := rfl
  exact threads_steps_le (by norm_num) sleepThenTake_follows hw hu (by decide)

end SystemsPrep.InProc.Threads
