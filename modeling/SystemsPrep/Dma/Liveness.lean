import SystemsPrep.Dma.Awaiting
import SystemsPrep.Dma.Progress
import Mathlib.Data.Prod.Lex

/-!
The wait for a completion comes to an end.

If the timer, the device, the interrupt, its handler and the waiter have turns again and
again and the timeout does not run out, `engine_wait` returns 0 exactly when the doorbell
has announced something that is not drained. While there is nothing to drain, the device
brings the next completion nearer. When there is, the waiter is about to see it, or a
wake-up is owed: then the handler is about to pay it, or the device to finish its batch. A
completion that arrives meanwhile may start all this anew, but there is one less to come.
-/

namespace SystemsPrep.Dma

open Base

/-! ### Whose turn brings the end nearer -/

inductive HostThread
  | engine (t : DeviceThread)
  | interrupt
  | handler
  | waiter

def HostAction.thread : HostAction → Option HostThread
  | .world a => a.thread.map .engine
  | .interrupt 0 => some .interrupt
  | .handler => some .handler
  | .waiter => some .waiter
  | _ => none

def World.work (w : World) : ℕ :=
  4 * (w.announced - w.posted.length) + w.callback.stage + if w.dev.timerArmed then 5 else 0

/-- The next step to the return from `engine_wait` once there is something to drain, and how
many there are, `wake` being those to a wake-up. -/
def Waiter.next (s : Waiter) (queued : Bool) (wake : HostThread × ℕ) : HostThread × ℕ :=
  match s with
  | .join _ => (.waiter, 2)
  | .sleep => if queued then wake else (.waiter, 3)
  | .asleep => wake
  | _ => (.waiter, 1)

namespace Host

instance (h : Host) : Decidable h.Pending := inferInstanceAs (Decidable (ite ..))

/-- The next step to the wake-up of a thread on the queue, and how many there are to the
return from `engine_wait`. -/
def nextWake (h : Host) : HostThread × ℕ :=
  match h.handler with
  | .wake _ => (.handler, 4)
  | .ack _ => (.handler, 5)
  | .readStatus =>
      if h.world.dev.irqStatus ≠ 0 then (.handler, 6) else (.engine h.world.callback.thread, 8)
  | .idle =>
      if h.world.dev.irqStatus ≠ 0 ∧ h.Pending then (.interrupt, 7)
      else (.engine h.world.callback.thread, 8)

/-- The next step to the return from `engine_wait`, and how many there are if the device does
nothing meanwhile. -/
def next (h : Host) : HostThread × ℕ :=
  if h.condition then h.waiter.next h.queued h.nextWake else (.engine h.world.callback.thread, 0)

def rank (h : Host) : ℕ ×ₗ ℕ := toLex (h.world.work, h.next.2)

end Host

section Rank

variable {e : Engine} {h h' : Host} {a : HostAction}

/-- Each step of the device leaves it less to do. -/
theorem World.work_deviceMove {w w' : World} {r : DmaResult} (hs : Submission e w)
    (hm : DeviceMove r w w') : w'.work < w.work := by
  have hfetch := hs.fetch
  cases hm with
  | stop didWork hc htest =>
      -- the interrupt at the end of a batch is no work of the device
      obtain ⟨_, _, _, hirq⟩ := raiseIrq_eq didWork w.dev
      rw [hirq]
      simp only [World.work, hc, Callback.stage]
      omega
  | fetch didWork hc hne hroom =>
      simp only [World.work, hc, Callback.stage]
      omega
  | transfer sqe buf m hc hm =>
      simp only [World.work, hc, Callback.stage]
      omega
  | writeCqe cqe hc =>
      simp only [World.work, hc, Callback.stage]
      omega
  | advance cqe hc =>
      rw [hc] at hfetch
      have hlt : w.posted.length < w.announced := hfetch.2
      simp only [World.work, hc, Callback.stage, List.length_append, List.length_singleton]
      omega

theorem Host.next_of_condition (hc : h.condition = true) :
    h.next = h.waiter.next h.queued h.nextWake := if_pos hc

theorem Host.next_of_not_condition (hc : h.condition = false) :
    h.next = (.engine h.world.callback.thread, 0) := by
  rw [Host.next, hc]
  rfl

theorem thread_ne_callback (ha : ∀ a', a ≠ .world a') (c : Callback) :
    a.thread ≠ some (.engine c.thread) := by
  cases a with
  | world a => exact absurd rfl (ha a)
  | interrupt merged => cases merged <;> nofun
  | wait | waiter | expire | handler => nofun

/-- The end is nearer, or as near as before although it was somebody else's turn. -/
def Closer (p p' : HostThread × ℕ) (a : HostAction) : Prop :=
  p'.2 < p.2 ∨ (p' = p ∧ a.thread ≠ some p.1)

/-- The interrupt and its handler come nearer to the wake-up, except that they may have
nothing to do with it. -/
theorem closer_nextWake (hm : WaitMove h a h') (ha : ∀ a', a ≠ .world a') (hwaiter : a ≠ .waiter)
    (hq : h.queued = true) (hq' : h'.queued = true) : Closer h.nextWake h'.nextWake a := by
  have hother := thread_ne_callback ha h.world.callback
  -- while the status is not set, the wake-up is the device's to bring about
  have hdevice : h.nextWake = (.engine h.world.callback.thread, 8) →
      h'.nextWake = (.engine h.world.callback.thread, 8) → Closer h.nextWake h'.nextWake a := by
    intro hbefore hafter
    rw [Closer, hbefore, hafter]
    exact Or.inr ⟨rfl, hother⟩
  have hnearer {t t' : HostThread} {k k' : ℕ} (hbefore : h.nextWake = (t, k))
      (hafter : h'.nextWake = (t', k')) (hlt : k' < k) : Closer h.nextWake h'.nextWake a := by
    rw [Closer, hbefore, hafter]
    exact Or.inl hlt
  cases hm with
  | timer | device | host => exact absurd rfl (ha _)
  | found | check | join | compare | sleep | roused => exact absurd rfl hwaiter
  | interrupt merged n hh hp =>
      by_cases hstatus : h.world.dev.irqStatus = 0
      · refine hdevice ?_ (if_neg (not_not.mpr hstatus))
        rw [Host.nextWake, hh]
        exact if_neg fun hand => hand.1 hstatus
      · refine hnearer (t := .interrupt) (k := 7) ?_ (if_pos hstatus) (by omega)
        rw [Host.nextWake, hh]
        exact if_pos ⟨hstatus, hp⟩
  | spurious hh hstatus =>
      refine hdevice ?_ (if_neg fun hand => hand.1 hstatus)
      rw [Host.nextWake, hh]
      exact if_neg (not_not.mpr hstatus)
  | readStatus hh hstatus =>
      refine hnearer (t := .handler) (k := 6) ?_ rfl (by omega)
      rw [Host.nextWake, hh]
      exact if_pos hstatus
  | ack status hh =>
      refine hnearer (t := .handler) (k := 5) ?_ rfl (by omega)
      rw [Host.nextWake, hh]
  | missed status hh hnot =>
      rw [hq] at hnot
      cases hnot
  | wake status hh hq =>
      -- the wake-up itself takes the thread off the queue
      cases hq'

theorem thread_ne_waiter (ha : a ≠ .waiter) : a.thread ≠ some .waiter := by
  cases a with
  | waiter => exact absurd rfl ha
  | world a => cases a <;> nofun
  | interrupt merged => cases merged <;> nofun
  | wait | expire | handler => nofun

theorem Host.nextWake_ne_waiter (h : Host) : some .waiter ≠ some h.nextWake.1 := by
  have hdevice : some HostThread.waiter ≠ some (.engine h.world.callback.thread) := nofun
  unfold Host.nextWake
  split
  · nofun
  · nofun
  · split
    · nofun
    · exact hdevice
  · split
    · nofun
    · exact hdevice

theorem Closer.of_kept (hc : h.condition = true) (hc' : h'.condition = true)
    (hw : h'.waiter = h.waiter) (hq : h'.queued = h.queued)
    (hasleep : h.waiter = .asleep → h.queued = true) (ha : a ≠ .waiter)
    (hwake : h.queued = true → Closer h.nextWake h'.nextWake a) : Closer h.next h'.next a := by
  have hother := thread_ne_waiter ha
  rw [Host.next_of_condition hc, Host.next_of_condition hc', hw, hq]
  cases hwaiter : h.waiter with
  | idle | check | join | compare | returned => exact Or.inr ⟨rfl, hother⟩
  | sleep =>
      cases hqueued : h.queued with
      | true => exact hwake hqueued
      | false => exact Or.inr ⟨rfl, hother⟩
  | asleep => exact hwake (hasleep hwaiter)

theorem kept_of_waitMove (hm : WaitMove h a h') (ha : ∀ a', a ≠ .world a') :
    h'.condition = h.condition ∧ h'.world.callback = h.world.callback ∧
      h'.world.work = h.world.work := by
  cases hm with
  | timer | device | host => exact absurd rfl (ha _)
  | ack status hh =>
      obtain ⟨level, hirq⟩ := lowerIrq_eq h.world.dev
      rw [hirq]
      exact ⟨rfl, rfl, rfl⟩
  | _ => exact ⟨rfl, rfl, rfl⟩

theorem closer_next (hw : Watched h) (hm : WaitMove h a h') (ha : ∀ a', a ≠ .world a')
    (hgoal : h'.waiter ≠ .returned 0) : Closer h.next h'.next a := by
  obtain ⟨hcond, hcallback, -⟩ := kept_of_waitMove hm ha
  have hm' := hm
  cases hc : h.condition with
  | false =>
      rw [hc] at hcond
      rw [Host.next_of_not_condition hc, Host.next_of_not_condition hcond, hcallback]
      exact Or.inr ⟨rfl, thread_ne_callback ha _⟩
  | true =>
      have hc' : h'.condition = true := hcond.trans hc
      cases hm with
      | timer | device | host => exact absurd rfl (ha _)
      | found => exact absurd rfl hgoal
      | check hs hnot | compare hs hnot =>
          rw [hc] at hnot
          cases hnot
      | join hs =>
          rw [Host.next_of_condition hc, Host.next_of_condition hc', hs]
          exact Or.inl (Nat.lt_succ_self 1)
      | sleep hs hq =>
          -- it was the wake-up that was missing before it went to sleep, too
          rw [Host.next_of_condition hc, Host.next_of_condition hc', hs, hq]
          exact Or.inr ⟨rfl, h.nextWake_ne_waiter⟩
      | roused hs hq =>
          rw [Host.next_of_condition hc, Host.next_of_condition hc', hs, hq]
          exact Or.inl (Nat.lt_succ_self 2)
      | interrupt | spurious | readStatus | ack | missed =>
          exact .of_kept hc hc' rfl rfl hw.queued nofun
            fun hq => closer_nextWake hm' ha nofun hq hq
      | wake status hh hq =>
          have hwake : h.nextWake = (.handler, 4) := by rw [Host.nextWake, hh]
          rw [Host.next_of_condition hc, Host.next_of_condition hc', hq, hwake]
          cases h.waiter with
          | asleep => exact Or.inl (by decide : 2 < 4)
          | sleep => exact Or.inl (Nat.lt_succ_self 3)
          | idle | check | join | compare | returned => exact Or.inr ⟨rfl, nofun⟩

end Rank

/-! ### The turn is not lost -/

/-- A thread whose next step can be taken. -/
inductive Ready (h : Host) : HostThread → Prop
  | engine (harmed : h.world.callback = .idle → h.world.dev.timerArmed = true) :
      Ready h (.engine h.world.callback.thread)
  | interrupt (hh : h.handler = .idle) (hp : h.Pending) : Ready h .interrupt
  | handler (hh : h.handler ≠ .idle) : Ready h .handler
  | waiter (hw : h.waiter ≠ .asleep) : Ready h .waiter

section Turn

variable {e : Engine} {h : Host} {a : HostAction}

/-- A wake-up that is owed is under way. -/
theorem ready_nextWake (howed : h.Owed ∨ h.world.callback.WillRaise) : Ready h h.nextWake.1 := by
  -- a batch in hand ends with an interrupt
  have hbatch (hnot : ¬ h.Owed) : Ready h (.engine h.world.callback.thread) := by
    have hraise := howed.resolve_left hnot
    refine .engine fun hc => ?_
    rw [hc] at hraise
    exact hraise.elim
  unfold Host.nextWake
  split <;> rename_i hh
  · exact .handler (by rw [hh]; nofun)
  · exact .handler (by rw [hh]; nofun)
  · split
    · exact .handler (by rw [hh]; nofun)
    · rename_i hstatus
      exact hbatch fun ho => hstatus (ho.unread (Or.inr hh)).1
  · split
    · rename_i hstatus
      exact .interrupt hh hstatus.2
    · rename_i hstatus
      refine hbatch fun ho => ?_
      obtain ⟨hset, hpending | hread⟩ := ho.unread (Or.inl hh)
      · exact hstatus ⟨hset, hpending⟩
      · rw [hh] at hread
        cases hread

theorem Expecting.ready_next (hx : Expecting e h)
    (hmore : h.world.drained.length < h.world.announced) : Ready h h.next.1 := by
  cases hc : h.condition with
  | false =>
      have hdrained := hx.not_condition hc
      rw [Host.next_of_not_condition hc]
      exact .engine (hx.completion.submission.armed (by omega))
  | true =>
      have hne : h.world.dev.cqTail ≠ h.world.eng.cqHead := by
        rw [Ne, ← condition_eq_false, hc]
        exact Bool.true_eq_false.mp
      rw [Host.next_of_condition hc]
      cases hw : h.waiter with
      | idle | check | join | compare | returned => exact .waiter (by rw [hw]; nofun)
      | sleep =>
          cases hq : h.queued with
          | true => exact ready_nextWake (hx.watched.owed ⟨Or.inl hw, hq⟩ hne)
          | false => exact .waiter (by rw [hw]; nofun)
      | asleep =>
          exact ready_nextWake (hx.watched.owed ⟨Or.inr hw, hx.watched.queued hw⟩ hne)

theorem waiterStep_isSome (hw : h.waiter.awaiting = true) (hawake : h.waiter ≠ .asleep) :
    h.waiterStep.isSome := by
  unfold Host.waiterStep
  cases hwaiter : h.waiter with
  | asleep => exact absurd hwaiter hawake
  | idle | returned =>
      rw [hwaiter] at hw
      cases hw
  | check | join | compare | sleep => rfl

theorem interrupt_isSome (hh : h.handler = .idle) (hp : h.Pending) : (h.interrupt 0).isSome := by
  unfold Host.interrupt
  rw [Host.Pending] at hp
  rw [hh]
  cases hmsi : h.world.dev.msiEnabled with
  | true =>
      rw [hmsi, if_pos rfl] at hp
      simp [hp]
  | false =>
      rw [hmsi, if_neg Bool.false_ne_true] at hp
      simp [hp]

theorem handlerStep_isSome (hh : h.handler ≠ .idle) : h.handlerStep.isSome := by
  unfold Host.handlerStep
  cases hhandler : h.handler with
  | idle => exact absurd hhandler hh
  | readStatus | ack | wake => rfl

theorem byDriver_of_thread {a : Action} {t : DeviceThread} (ha : a.thread = some t) :
    a.byDriver = false := by
  cases a <;> first | rfl | cases ha

/-- A thread that is ready takes its step at its turn. -/
theorem Ready.isSome {t : HostThread} (hready : Ready h t) (hw : h.waiter.awaiting = true)
    (ha : a.thread = some t) : (hostStep h a).isSome := by
  cases a with
  | world a =>
      obtain ⟨t, hthread, rfl⟩ := Option.map_eq_some_iff.mp ha
      have hstep : (step h.world a).isSome := by
        cases hready with
        | engine harmed => exact turn_isSome harmed hthread
      simpa [hostStep, byDriver_of_thread hthread] using hstep
  | interrupt merged =>
      cases merged with
      | zero =>
          cases ha
          cases hready with
          | interrupt hh hp => exact interrupt_isSome hh hp
      | succ merged => cases ha
  | handler =>
      cases ha
      cases hready with
      | handler hh => exact handlerStep_isSome hh
  | waiter =>
      cases ha
      cases hready with
      | waiter hawake => exact waiterStep_isSome hw hawake
  | wait | expire => cases ha

end Turn

/-! ### Fair schedules -/

/-- The device's timer and callback, the interrupt, its handler and the waiter have turns again
and again. -/
def HostFair (sched : ℕ → HostAction) : Prop :=
  ∀ t n, ∃ m, n ≤ m ∧ (sched m).thread = some t

section Fairness

variable {e : Engine} {h h' : Host} {a : HostAction}

theorem Host.rank_lt_of_work (hlt : h'.world.work < h.world.work) : h'.rank < h.rank :=
  Prod.Lex.toLex_lt_toLex.mpr (Or.inl hlt)

theorem Host.rank_lt_of_next (hwork : h'.world.work = h.world.work) (hlt : h'.next.2 < h.next.2) :
    h'.rank < h.rank :=
  Prod.Lex.toLex_lt_toLex.mpr (Or.inr ⟨hwork, hlt⟩)

theorem Expecting.rank_irq (hx : Expecting e h) (hm : WaitMove h a h')
    (ha : ∀ a', a ≠ .world a') (hgoal : h'.waiter ≠ .returned 0) :
    h'.rank < h.rank ∨ (h'.rank = h.rank ∧ h'.next.1 = h.next.1 ∧ a.thread ≠ some h.next.1) := by
  obtain ⟨-, -, hwork⟩ := kept_of_waitMove hm ha
  rcases closer_next hx.watched hm ha hgoal with hlt | ⟨hsame, hother⟩
  · exact Or.inl (Host.rank_lt_of_next hwork hlt)
  · exact Or.inr ⟨by rw [Host.rank, Host.rank, hwork, hsame], by rw [hsame], hother⟩

/-- A step brings the end nearer, or changes nothing about how near it is and whose turn it
is. The latter is no step of the thread whose turn it is. -/
theorem Expecting.rank_move (hx : Expecting e h) (hm : WaitMove h a h')
    (hgoal : h'.waiter ≠ .returned 0) :
    h'.rank < h.rank ∨ (h'.rank = h.rank ∧ h'.next.1 = h.next.1 ∧ a.thread ≠ some h.next.1) := by
  have hm' := hm
  cases hm with
  | timer hc harmed =>
      refine Or.inl (Host.rank_lt_of_work ?_)
      simp only [World.work, hc, Callback.stage, harmed]
      simp
  | device r w hm =>
      exact Or.inl (Host.rank_lt_of_work (World.work_deviceMove hx.completion.submission hm))
  | host x b =>
      -- no thread has its turn in a write from elsewhere
      exact Or.inr ⟨rfl, rfl, (Option.some_ne_none _).symm⟩
  | _ =>
      refine hx.rank_irq hm' (fun a' heq => ?_) hgoal
      cases heq

theorem helpful_host (e : Engine) :
    Helpful hostStep HostAction.thread (fun a => a.Apart e ∧ a ≠ .expire)
      (fun h => Expecting e h ∧ h.world.drained.length < h.world.announced)
      (fun h => h.waiter = .returned 0) Host.rank (fun h => some h.next.1) where
  inv h a h' ha hI hs hgoal := by
    obtain ⟨hx, hmore⟩ := hI
    obtain ⟨hfound, -⟩ | hstill := hx.step ha.1 ha.2 hs
    · exact absurd hfound hgoal
    · exact ⟨hstill.expecting, by rw [hstill.announced, hstill.drained]; exact hmore⟩
  own h a ha hI hgoal hturn := by
    obtain ⟨hx, hmore⟩ := hI
    obtain ⟨h', hs⟩ := Option.isSome_iff_exists.mp
      ((hx.ready_next hmore).isSome hx.awaiting hturn)
    refine ⟨h', hs, fun hgoal' => ?_⟩
    obtain hlt | ⟨-, -, hother⟩ := hx.rank_move (waitMove_of_step hx.awaiting ha.2 hs) hgoal'
    · exact hlt
    · exact absurd hturn hother
  other h a h' ha hI hgoal hgoal' _ hs := by
    obtain hlt | ⟨hrank, hthread, -⟩ :=
      hI.1.rank_move (waitMove_of_step hI.1.awaiting ha.2 hs) hgoal'
    · exact Or.inl hlt
    · exact Or.inr ⟨hrank, congrArg some hthread⟩

theorem Expecting.not_found (hx : Expecting e h)
    (hless : h.world.announced ≤ h.world.drained.length) : h.condition = false := by
  have hposted := hx.completion.submission.posted_le
  have hnot := hx.condition_iff.not.mpr (by omega)
  exact Bool.not_eq_true _ ▸ hnot

theorem waits_on {sched : ℕ → HostAction} (hx : Expecting e h)
    (hless : h.world.announced ≤ h.world.drained.length)
    (hsched : ∀ n, (sched n).Apart e ∧ sched n ≠ .expire) (n : ℕ) :
    Expecting e (stateAt hostStep h sched n) := by
  refine (stateAt_invariant (A := fun a => a.Apart e ∧ a ≠ .expire)
    (I := fun h => Expecting e h ∧ h.world.announced ≤ h.world.drained.length) ?_ hsched
    ⟨hx, hless⟩ n).1
  rintro h a h' ha ⟨hx, hless⟩ hs
  obtain ⟨-, hc⟩ | hstill := hx.step ha.1 ha.2 hs
  · rw [hx.not_found hless] at hc
    cases hc
  · exact ⟨hstill.expecting, by rw [hstill.announced, hstill.drained]; exact hless⟩

end Fairness

variable {d : DmaEngineState} {m : Mem} {sqDma cqDma : Addr} {msi : Bool} {sqDepth cqDepth : Word}

/-- **The wait ends, and only for a completion.** On a device whose indices start at zero,
after any run: if the timeout of an `engine_wait` does not run out, then in every schedule
that gives the timer, the device, the interrupt, its handler and the waiter turns again and
again it returns 0 exactly if a submission that the doorbell has announced is not drained.
How many batches the device makes of the work, and where they fall among the steps of the
handler and the waiter, is left open. -/
theorem wait_returns_iff {as : List HostAction} {h : Host} {sched : ℕ → HostAction}
    (hd : d.InStep) (hsq : sqDepth.toNat.isPowerOfTwo) (hcq : cqDepth.toNat.isPowerOfTwo)
    (hrings : Apart sqDma (sqDepth.toNat * 24) cqDma (cqDepth.toNat * 16))
    (has : ∀ a ∈ as, a.Apart (engineCreate sqDma cqDma msi d sqDepth cqDepth).1)
    (hs : exec hostStep (.create d m sqDma cqDma msi sqDepth cqDepth) as = some h)
    (hwait : h.waiter = .check) (hnear : h.world.announced < h.world.drained.length + 2 ^ 32)
    (hfair : HostFair sched)
    (hsched : ∀ n, (sched n).Apart (engineCreate sqDma cqDma msi d sqDepth cqDepth).1 ∧
      sched n ≠ .expire) :
    (∃ n, (stateAt hostStep h sched n).waiter = .returned 0) ↔
      h.world.drained.length < h.world.announced := by
  have hcomp : Completion (engineCreate sqDma cqDma msi d sqDepth cqDepth).1 h.world :=
    exec_invariant_on (I := fun h => Completion _ h.world)
      (fun _ _ _ ha hc hs => completion_hostStep ha hc hs) has hs
      (completion_create hd hsq hcq hrings)
  have hwatched : Watched h :=
    exec_invariant (I := Watched) (fun _ _ _ hw hs => watched_step hw hs) hs (watched_create ..)
  have hx : Expecting _ h := ⟨hcomp, hwatched, by rw [hwait]; rfl, hnear⟩
  constructor
  · rintro ⟨n, hn⟩
    by_contra hless
    have hawaiting := (waits_on hx (Nat.not_lt.mp hless) hsched n).awaiting
    rw [hn] at hawaiting
    cases hawaiting
  · intro hmore
    exact (helpful_host _).eventually (fun h => hfair h.next.1) hsched ⟨hx, hmore⟩

def announceAndWait : List HostAction :=
  (submitCall txSqe ++ submitCall rxSqe ++ [Action.doorbell, .driver]).map .world ++ [.wait]

theorem announceAndWait_apart {e : Engine} (h : txSqe.Apart e ∧ rxSqe.Apart e) :
    ∀ a ∈ announceAndWait, a.Apart e := by
  simp [announceAndWait, submitCall, HostAction.Apart, Action.Apart, h]

/-- All threads in turn. -/
def inTurn (n : ℕ) : HostAction :=
  match n % 5 with
  | 0 => .world .timer
  | 1 => .world (.device .ok)
  | 2 => .interrupt 0
  | 3 => .handler
  | _ => .waiter

theorem hostFair_inTurn : HostFair inTurn := by
  intro t n
  have hmod (k : ℕ) (hk : k < 5) : (5 * n + k) % 5 = k := by omega
  cases t with
  | engine t =>
      cases t with
      | timer => exact ⟨5 * n + 0, by omega, by rw [inTurn, hmod 0 (by decide)]; rfl⟩
      | callback => exact ⟨5 * n + 1, by omega, by rw [inTurn, hmod 1 (by decide)]; rfl⟩
  | interrupt => exact ⟨5 * n + 2, by omega, by rw [inTurn, hmod 2 (by decide)]; rfl⟩
  | handler => exact ⟨5 * n + 3, by omega, by rw [inTurn, hmod 3 (by decide)]; rfl⟩
  | waiter => exact ⟨5 * n + 4, by omega, by rw [inTurn, hmod 4 (by decide)]; rfl⟩

theorem inTurn_apart (e : Engine) (n : ℕ) : (inTurn n).Apart e ∧ inTurn n ≠ .expire := by
  unfold inTurn
  split <;> exact ⟨trivial, nofun⟩

theorem wait_returns_iff_inTurn :
    ∃ h, exec hostStep (.create .fresh (fun _ => 0) 0x1000 0x2000 true 2 2) announceAndWait =
        some h ∧ ∃ n, (stateAt hostStep h inTurn n).waiter = .returned 0 := by
  have hs : exec hostStep (.create .fresh (fun _ => 0) 0x1000 0x2000 true 2 2) announceAndWait =
      some _ := rfl
  refine ⟨_, hs, (wait_returns_iff inStep_fresh ⟨1, rfl⟩ ⟨1, rfl⟩
    (apart_of_le (by decide) (by decide)) ?_ hs rfl (by decide) hostFair_inTurn
    (inTurn_apart _)).mpr (by decide)⟩
  exact announceAndWait_apart (probeSqes_apart rfl rfl (by decide) (by decide))

end SystemsPrep.Dma
