import SystemsPrep.Base.Family
import SystemsPrep.InProc.Threads

/-!
No message is stranded on a queue with a sleeping receiver.

A `send` notifies after it has released the mutex, so any number of other steps may
come between a push and its notification. What is kept is a count: as long as some
receiver sleeps that nobody has notified, every message on the queue is covered by
a sender that has not notified yet, or by a receiver that has been notified and has
neither taken a message nor gone back to sleep.
-/

namespace SystemsPrep.InProc.Threads

open Base

variable {n : ℕ} {ι : Type*} [DecidableEq ι]

/-! ### The mutexes -/

def Stage.holds (idx : ℕ) : Stage n → Prop
  | .push i _ | .unlock i => i = idx
  | .test c _ | .wait c _ | .take c _ | .leave c _ => c.idx = idx
  | _ => False

/-- What the predicate of the wait has found still holds. -/
def Stage.Sees (q : ℕ → List (List Byte)) : Stage n → Prop
  | .wait c _ => q c.idx = []
  | .take c _ => q c.idx ≠ []
  | _ => True

theorem Stage.Sees.congr {s : Stage n} {q q' : ℕ → List (List Byte)} (h : s.Sees q)
    (hq : ∀ idx, s.holds idx → q' idx = q idx) : s.Sees q' := by
  cases s with
  | wait c b => exact (hq c.idx rfl).trans h
  | take c b => exact fun he => h ((hq c.idx rfl).symm.trans he)
  | _ => trivial

structure Locks (w : World n ι) : Prop where
  holder : ∀ t idx, (w.stage t).holds idx → w.mu idx = some t
  sees : ∀ t, (w.stage t).Sees w.grid.q

omit [DecidableEq ι] in
theorem locks_start (mem : Mem) : Locks (World.start mem : World n ι) where
  holder _ _ h := h.elim
  sees _ := trivial

/-- A thread moves on, and touches no queue and no mutex whose critical section
another thread is in. -/
theorem Locks.update {w w' : World n ι} {t : ι} {s : Stage n} (hl : Locks w)
    (hstage : w'.stage = Function.update w.stage t s)
    (hme : ∀ idx, s.holds idx → w'.mu idx = some t) (hsees : s.Sees w'.grid.q)
    (hmu : ∀ u ≠ t, ∀ idx, (w.stage u).holds idx → w'.mu idx = w.mu idx)
    (hq : ∀ u ≠ t, ∀ idx, (w.stage u).holds idx → w'.grid.q idx = w.grid.q idx) :
    Locks w' := by
  constructor
  · intro u idx hu
    rw [hstage] at hu
    by_cases hut : u = t
    · subst hut
      rw [Function.update_self] at hu
      exact hme idx hu
    · rw [Function.update_of_ne hut] at hu
      rw [hmu u hut idx hu]
      exact hl.holder u idx hu
  · intro u
    rw [hstage]
    by_cases hut : u = t
    · subst hut
      rwa [Function.update_self]
    · rw [Function.update_of_ne hut]
      exact (hl.sees u).congr (hq u hut)

theorem Locks.setStage {w w' : World n ι} {t : ι} {s : Stage n} (hl : Locks w)
    (hstage : w'.stage = Function.update w.stage t s) (hmu : w'.mu = w.mu)
    (hgrid : w'.grid = w.grid) (hholds : ∀ idx, s.holds idx → (w.stage t).holds idx)
    (hsees : s.Sees w.grid.q) : Locks w' := by
  refine hl.update hstage (fun idx h => ?_) (hgrid ▸ hsees) (fun _ _ _ _ => by rw [hmu])
    fun _ _ _ _ => by rw [hgrid]
  rw [hmu]
  exact hl.holder t idx (hholds idx h)

theorem Locks.outside {w w' : World n ι} {t : ι} {s : Stage n} (hl : Locks w)
    (hstage : w'.stage = Function.update w.stage t s) (hmu : w'.mu = w.mu)
    (hgrid : w'.grid = w.grid) (hholds : ∀ idx, ¬ s.holds idx) (hsees : s.Sees w.grid.q) :
    Locks w' :=
  hl.setStage hstage hmu hgrid (fun idx h => (hholds idx h).elim) hsees

theorem Locks.acquire {w : World n ι} {t : ι} {s : Stage n} {idx : ℕ} (hl : Locks w)
    (hmu : w.mu idx = none) (hholds : ∀ i, s.holds i → i = idx) (hsees : s.Sees w.grid.q) :
    Locks ((w.setStage t s).setMu idx (some t)) := by
  refine hl.update rfl (fun i hi => ?_) hsees (fun u _ i hi => ?_) fun _ _ _ _ => rfl
  · obtain rfl := hholds i hi
    exact Function.update_self ..
  · refine Function.update_of_ne ?_ _ _
    rintro rfl
    rw [hl.holder u i hi] at hmu
    cases hmu

theorem Locks.release {w : World n ι} {t : ι} {s : Stage n} {idx : ℕ} (hl : Locks w)
    (ht : (w.stage t).holds idx) (hholds : ∀ i, ¬ s.holds i) (hsees : s.Sees w.grid.q) :
    Locks ((w.setStage t s).setMu idx none) := by
  refine hl.update rfl (fun i hi => (hholds i hi).elim) hsees (fun u hut i hi => ?_)
    fun _ _ _ _ => rfl
  refine Function.update_of_ne ?_ _ _
  rintro rfl
  have hheld := hl.holder u i hi
  rw [hl.holder t i ht] at hheld
  exact hut (Option.some.inj hheld).symm

theorem Locks.setQueue {w w' : World n ι} {t : ι} {s : Stage n} {idx : ℕ} (hl : Locks w)
    (hstage : w'.stage = Function.update w.stage t s) (hmu : w'.mu = w.mu)
    (hq : ∀ i ≠ idx, w'.grid.q i = w.grid.q i) (ht : (w.stage t).holds idx)
    (hholds : ∀ i, s.holds i → i = idx) (hsees : s.Sees w'.grid.q) : Locks w' := by
  refine hl.update hstage (fun i hi => ?_) hsees (fun _ _ _ _ => by rw [hmu])
    fun u hut i hi => hq i ?_
  · rw [hholds i hi, hmu]
    exact hl.holder t idx ht
  · rintro rfl
    have hheld := hl.holder u i hi
    rw [hl.holder t i ht] at hheld
    exact hut (Option.some.inj hheld).symm

theorem locks_move {rank : ι → Fin n} {w w' : World n ι} (hl : Locks w)
    (hmove : Move rank w w') : Locks w' := by
  cases hmove with
  | store a bytes => exact ⟨hl.holder, hl.sees⟩
  | refuse t e ht => exact hl.outside (s := .program) rfl rfl rfl (fun _ => id) trivial
  | send t dst buf len ht => exact hl.outside rfl rfl rfl (fun _ => id) trivial
  | recv t src buf len ht => exact hl.outside rfl rfl rfl (fun _ => id) trivial
  | copyIn t dst idx buf len ht =>
      exact hl.outside (s := .lock idx _) rfl rfl rfl (fun _ => id) trivial
  | lock t idx bytes ht hmu => exact hl.acquire hmu (fun _ h => h.symm) trivial
  | push t idx bytes ht =>
      exact hl.setQueue rfl rfl (fun i hi => w.grid.push_q_of_ne bytes hi) (ht ▸ rfl)
        (fun _ h => h.symm) trivial
  | unlock t idx ht => exact hl.release (ht ▸ rfl) (fun _ => id) trivial
  | nobody t idx ht hnone => exact hl.outside (s := .program) rfl rfl rfl (fun _ => id) trivial
  | rouse t u idx c ht hu hidx =>
      have hroused : Locks (w.setStage u (.asleep c true)) :=
        hl.outside rfl rfl rfl (fun _ => id) trivial
      exact hroused.outside (s := .program) rfl rfl rfl (fun _ => id) trivial
  | enter t c b ht hmu => exact hl.acquire hmu (fun _ h => h.symm) trivial
  | empty t c b ht hq => exact hl.setStage rfl rfl rfl (fun _ h => ht ▸ h) hq
  | filled t c b ht hq => exact hl.setStage rfl rfl rfl (fun _ h => ht ▸ h) hq
  | wait t c b ht => exact hl.release (ht ▸ rfl) (fun _ => id) trivial
  | wake t c b ht => exact hl.outside rfl rfl rfl (fun _ => id) trivial
  | take t c b bytes rest ht hq =>
      exact hl.setQueue rfl rfl (fun i hi => w.grid.pop_q_of_ne hi) (ht ▸ rfl)
        (fun _ h => h.symm) trivial
  | leave t c bytes ht => exact hl.release (ht ▸ rfl) (fun _ => id) trivial
  | copyOut t c bytes ht => exact hl.outside (s := .program) rfl rfl rfl (fun _ => id) trivial

/-- In every state two threads are never inside the critical sections of one queue. -/
theorem locks_exec [Fintype ι] {rank : ι → Fin n} {mem : Mem} {as : List (Action ι)}
    {w : World n ι} (h : exec (step rank) (World.start mem) as = some w) : Locks w :=
  exec_invariant (fun _ _ _ hl hs => locks_move hl (move_of_step hs)) h (locks_start mem)

/-! ### Messages, senders and sleepers -/

/-- The thread has pushed to this queue and has not called `notify_one` yet. -/
@[simp] def Stage.pushedTo (idx : ℕ) : Stage n → Bool
  | .unlock i | .notify i => i = idx
  | _ => false

/-- The thread has been notified on this queue, and has since neither taken a message
nor gone back to sleep. -/
@[simp] def Stage.wokenOn (idx : ℕ) : Stage n → Bool
  | .enter c b | .test c b | .wait c b | .asleep c b | .take c b => b && c.idx = idx
  | _ => false

/-- How many messages of this queue the thread covers. -/
@[simp] def Stage.credit (idx : ℕ) (s : Stage n) : ℕ :=
  (s.pushedTo idx).toNat + (s.wokenOn idx).toNat

variable [Fintype ι]

def Covered (idx : ℕ) (w : World n ι) : Prop :=
  (∃ u, (w.stage u).sleepsOn idx = true) →
    (w.grid.q idx).length ≤ tally (Stage.credit idx) w.stage

variable {idx : ℕ} {w w' : World n ι} {t : ι} {s : Stage n}

omit [DecidableEq ι] in
theorem covered_of_queue_eq_nil (hq : w.grid.q idx = []) : Covered idx w := by
  intro _
  rw [hq]
  exact Nat.zero_le _

omit [DecidableEq ι] in
theorem Covered.of_tally (hc : Covered idx w)
    (hsleep : ∀ u, (w'.stage u).sleepsOn idx = true → (w.stage u).sleepsOn idx = true)
    (hcount : (w'.grid.q idx).length + tally (Stage.credit idx) w.stage ≤
      (w.grid.q idx).length + tally (Stage.credit idx) w'.stage) : Covered idx w' := by
  rintro ⟨u, hu⟩
  have := hc ⟨u, hsleep u hu⟩
  omega

theorem Covered.update (hc : Covered idx w) (hstage : w'.stage = Function.update w.stage t s)
    (hsleep : s.sleepsOn idx = true → (w.stage t).sleepsOn idx = true)
    (hcount : (w'.grid.q idx).length + (w.stage t).credit idx ≤
      (w.grid.q idx).length + s.credit idx) : Covered idx w' := by
  refine hc.of_tally (fun u hu => ?_) ?_
  · by_cases hut : u = t
    · subst hut
      rw [hstage, Function.update_self] at hu
      exact hsleep hu
    · rwa [hstage, Function.update_of_ne hut] at hu
  · have := tally_update (Stage.credit idx) w.stage t s
    rw [hstage]
    omega

theorem Covered.setStage (hc : Covered idx w) (hstage : w'.stage = Function.update w.stage t s)
    (hgrid : w'.grid = w.grid) (hsleep : s.sleepsOn idx = false)
    (hcredit : (w.stage t).credit idx ≤ s.credit idx) : Covered idx w' := by
  refine hc.update hstage (fun h => ?_) ?_
  · rw [hsleep] at h
    cases h
  · rw [hgrid]
    omega

/-- A notification moves the cover from the sender to the receiver it picks. -/
theorem Covered.rouse {u : ι} {c : RecvCall n} {i : ℕ} (hc : Covered idx w)
    (ht : w.stage t = .notify i) (hu : w.stage u = .asleep c false) (hidx : c.idx = i) :
    Covered idx ((w.setStage u (.asleep c true)).finish t .sent) := by
  have htu : t ≠ u := by
    rintro rfl
    rw [ht] at hu
    cases hu
  have hroused := tally_update (Stage.credit idx) w.stage u (.asleep c true)
  have hended := tally_update (Stage.credit idx)
    (Function.update w.stage u (.asleep c true)) t .program
  rw [Function.update_of_ne htu, ht] at hended
  rw [hu] at hroused
  have hsleeping : (Stage.asleep c false).credit idx = 0 := by simp
  have hended' : (Stage.program : Stage n).credit idx = 0 := by simp
  have hmoved : (Stage.asleep c true).credit idx = (Stage.notify i : Stage n).credit idx := by
    simp [hidx]
  refine hc.of_tally (fun v hv => ?_) ?_
  · rw [World.finish_stage] at hv
    by_cases hvt : v = t
    · subst hvt
      rw [Function.update_self] at hv
      cases hv
    · rw [Function.update_of_ne hvt, World.setStage_stage] at hv
      by_cases hvu : v = u
      · subst hvu
        rw [Function.update_self] at hv
        cases hv
      · rwa [Function.update_of_ne hvu] at hv
  · change (w.grid.q idx).length + _ ≤ (w.grid.q idx).length + tally _ (Function.update
      (Function.update w.stage u (.asleep c true)) t .program)
    omega

theorem covered_move {rank : ι → Fin n} (hl : Locks w) (hc : Covered idx w)
    (hmove : Move rank w w') : Covered idx w' := by
  cases hmove with
  | store a bytes => exact hc
  | refuse t e ht =>
      exact hc.setStage (s := .program) rfl rfl rfl (by simp [ht])
  | send t dst buf len ht => exact hc.setStage rfl rfl rfl (by simp [ht])
  | recv t src buf len ht => exact hc.setStage rfl rfl rfl (by simp [ht])
  | copyIn t dst i buf len ht =>
      exact hc.setStage (s := .lock i _) rfl rfl rfl (by simp [ht])
  | lock t i bytes ht hmu =>
      exact hc.setStage (s := .push i bytes) rfl rfl rfl (by simp [ht])
  | push t i bytes ht =>
      refine hc.update (s := .unlock i) rfl (fun h => nomatch h) ?_
      by_cases hi : i = idx
      · subst hi
        simp [ht]
      · have hq : (w.grid.push i bytes).q idx = w.grid.q idx :=
          w.grid.push_q_of_ne bytes (Ne.symm hi)
        simp [ht, hq]
  | unlock t i ht =>
      exact hc.setStage (s := .notify i) rfl rfl rfl (by simp [ht])
  | nobody t i ht hnone =>
      by_cases hi : i = idx
      · -- nobody sleeps on this queue, so nothing is owed
        subst hi
        rintro ⟨u, hu⟩
        by_cases hut : u = t
        · subst hut
          rw [World.finish_stage, Function.update_self] at hu
          cases hu
        · rw [World.finish_stage, Function.update_of_ne hut, hnone u] at hu
          cases hu
      · exact hc.setStage (s := .program) rfl rfl rfl (by simp [ht, hi])
  | rouse t u i c ht hu hidx => exact hc.rouse ht hu hidx
  | enter t c b ht hmu =>
      exact hc.setStage (s := .test c b) rfl rfl rfl (by simp [ht])
  | empty t c b ht hq =>
      exact hc.setStage rfl rfl rfl (by simp [ht])
  | filled t c b ht hq =>
      exact hc.setStage rfl rfl rfl (by simp [ht])
  | wait t c b ht =>
      by_cases hi : c.idx = idx
      · subst hi
        have hempty := hl.sees t
        rw [ht] at hempty
        exact covered_of_queue_eq_nil hempty
      · refine hc.update (s := .asleep c false) rfl (fun h => ?_) ?_
        · exact absurd (of_decide_eq_true h) hi
        · simp [ht, hi, World.setStage, World.setMu]
  | wake t c b ht =>
      exact hc.setStage rfl rfl rfl (by simp [ht])
  | take t c b bytes rest ht hq =>
      refine hc.update (s := .leave c bytes) rfl (fun h => nomatch h) ?_
      by_cases hi : c.idx = idx
      · subst hi
        have := Bool.toNat_le b
        simp only [ht, Stage.credit, Stage.pushedTo, Stage.wokenOn, hq,
          InProcGrid.pop_q_self, List.tail_cons, List.length_cons, decide_true, Bool.and_true]
        simp
        omega
      · have hpop : (w.grid.pop c.idx).q idx = w.grid.q idx := w.grid.pop_q_of_ne (Ne.symm hi)
        simp [ht, hi, hpop]
  | leave t c bytes ht =>
      exact hc.setStage (s := .copyOut c bytes) rfl rfl rfl (by simp [ht])
  | copyOut t c bytes ht =>
      exact hc.setStage (s := .program) rfl rfl rfl (by simp [ht])

theorem covered_exec {rank : ι → Fin n} {mem : Mem} {as : List (Action ι)}
    (h : exec (step rank) (World.start mem) as = some w) : Locks w ∧ Covered idx w :=
  exec_invariant (I := fun v => Locks v ∧ Covered idx v)
    (fun _ _ _ hi hs => ⟨locks_move hi.1 (move_of_step hs),
      covered_move hi.1 hi.2 (move_of_step hs)⟩) h
    ⟨locks_start mem, covered_of_queue_eq_nil rfl⟩

omit [DecidableEq ι] in
theorem tally_credit (w : World n ι) : tally (Stage.credit idx) w.stage =
    (Finset.univ.filter fun t => (w.stage t).pushedTo idx).card +
      (Finset.univ.filter fun t => (w.stage t).wokenOn idx).card := by
  rw [← tally_eq_card, ← tally_eq_card, ← tally_add]
  rfl

/-- **No stranded message.** Take any threads, each with the transport of some rank,
in any calls and in any order of their steps, spurious wake-ups included. Whenever
some receiver sleeps on a queue without having been notified, there are at most as
many messages on it as senders that have pushed and not yet called `notify_one` and
receivers that have been notified and have neither taken a message nor gone back to
sleep. So if there is a message, such a sender or receiver is still to move. -/
theorem no_stranded_message {rank : ι → Fin n} {mem : Mem} {as : List (Action ι)}
    (h : exec (step rank) (World.start mem) as = some w) (idx : ℕ) {u : ι}
    (hu : (w.stage u).sleepsOn idx = true) :
    (w.grid.q idx).length ≤
        (Finset.univ.filter fun t => (w.stage t).pushedTo idx).card +
          (Finset.univ.filter fun t => (w.stage t).wokenOn idx).card ∧
      (w.grid.q idx ≠ [] →
        ∃ t, (w.stage t).pushedTo idx = true ∨ (w.stage t).wokenOn idx = true) := by
  have hcovered : Covered idx w := (covered_exec h).2
  have hcount := hcovered ⟨u, hu⟩
  rw [tally_credit] at hcount
  refine ⟨hcount, fun hq => ?_⟩
  have hpos := List.length_pos_iff.mpr hq
  by_contra hnone
  simp only [not_exists, not_or] at hnone
  rw [Finset.filter_eq_empty_iff.mpr fun t _ => (hnone t).1,
    Finset.filter_eq_empty_iff.mpr fun t _ => (hnone t).2, Finset.card_empty] at hcount
  omega

def beforeNotify : List (Action (Fin 4)) :=
  [.call 1 (.recv 0 64 1), .next 1, .next 1, .next 1,
    .call 0 (.send 1 32 1), .next 0, .next 0, .next 0]

theorem no_stranded_message_beforeNotify :
    ∃ w : World 4 (Fin 4), exec (step id) (World.start fun _ => 7) beforeNotify = some w ∧
      w.grid.q 1 = [[7]] ∧
      ∃ t, (w.stage t).pushedTo 1 = true ∨ (w.stage t).wokenOn 1 = true := by
  have hw : exec (step id) (World.start fun _ => 7) beforeNotify = some _ := rfl
  exact ⟨_, hw, rfl, (no_stranded_message hw 1 (u := 1) rfl).2 (by decide)⟩

end SystemsPrep.InProc.Threads
