import SystemsPrep.Dma.Moves

/-!
From the device's completions to the waiter's wake-up.

The interrupt handler reads the status, acknowledges all of it and wakes the wait queue, in
three steps between which the device may finish another batch. The acknowledge then erases
the status of that batch, and its own interrupt will find nothing to do. What saves the
waiter is that the handler wakes the queue after the acknowledge: whatever a completion
finds, either its status still stands and an interrupt will read it, or a handler that has
read an older one has not woken the queue yet.
-/

namespace SystemsPrep.Dma

open Base

def etimedout : Int := -110

/-- The next action of `dma_engine_irq`, with the status it has read. -/
inductive IrqHandler
  | idle
  | readStatus
  | ack (status : Word)
  | wake (status : Word)

/-- The next action of `engine_wait`. `expired` says that the timeout has run out or a signal
has arrived, so that the condition is tested for the last time. -/
inductive Waiter
  | idle
  | check
  | join (expired : Bool)
  | compare (expired : Bool)
  | sleep
  | asleep
  | returned (ret : Int)

/-- The engine and its device with the interrupt between them: the notifications of the
device a handler has been run for, the handler, the thread in `engine_wait`, and whether
that thread is on `host_wq`. -/
structure Host where
  world : World
  delivered : ℕ
  handler : IrqHandler
  waiter : Waiter
  queued : Bool

def Host.create (d : DmaEngineState) (m : Mem) (sqDma cqDma : Addr) (msi : Bool)
    (sqDepth cqDepth : Word) : Host where
  world := .create d m sqDma cqDma msi sqDepth cqDepth
  delivered := d.msiNotified
  handler := .idle
  waiter := .idle
  queued := false

/-- An action of the engine, the device or the rest of the system, the call of `engine_wait`,
its next step, its timeout or a signal, an interrupt that stands for `merged` further ones, or
the next step of the handler. -/
inductive HostAction
  | world (a : Action)
  | wait
  | waiter
  | expire
  | interrupt (merged : ℕ)
  | handler

def Action.byDriver : Action → Bool
  | .submit _ | .doorbell | .drain _ | .driver => true
  | .timer | .device _ | .host _ _ => false

def Waiter.outside : Waiter → Bool
  | .idle | .returned _ => true
  | _ => false

namespace Host

/-- The condition of `engine_wait`. -/
def condition (h : Host) : Bool := ioread32 h.world.dev Reg.cqTail.offset ≠ h.world.eng.cqHead

/-- `wake_up_interruptible`: a thread on the queue leaves it to test its condition again. -/
def wakeUp (h : Host) : Host :=
  if h.queued then
    { h with
      queued := false
      waiter := match h.waiter with
        | .asleep => .join false
        | s => s }
  else h

def finishWait (h : Host) (ret : Int) : Host := { h with queued := false, waiter := .returned ret }

/-- `wait_event_interruptible_timeout`: the condition is tested once, and then again each time
the thread has joined the queue, before it goes to sleep. A thread that has been woken since
it joined does not sleep. -/
def waiterStep (h : Host) : Option Host :=
  match h.waiter with
  | .idle | .asleep | .returned _ => none
  | .check => some (if h.condition then h.finishWait 0 else { h with waiter := .join false })
  | .join expired => some { h with queued := true, waiter := .compare expired }
  | .compare expired =>
      some (if h.condition then h.finishWait 0
        else if expired then h.finishWait etimedout
        else { h with waiter := .sleep })
  | .sleep => some { h with waiter := if h.queued then .asleep else .join false }

/-- An interrupt that has not reached the processor: a message that no handler has been run
for, or the level of the line. -/
def Pending (h : Host) : Prop :=
  if h.world.dev.msiEnabled then h.delivered < h.world.dev.msiNotified
  else h.world.dev.irqLevel = true

/-- An interrupt runs the handler, which does not run twice at a time. A message may stand
for several notifications. -/
def interrupt (h : Host) (merged : ℕ) : Option Host :=
  match h.handler with
  | .idle =>
      if h.world.dev.msiEnabled then
        if h.delivered + merged < h.world.dev.msiNotified then
          some { h with delivered := h.delivered + merged + 1, handler := .readStatus }
        else none
      else if h.world.dev.irqLevel then some { h with handler := .readStatus }
      else none
  | _ => none

/-- `dma_engine_irq`. -/
def handlerStep (h : Host) : Option Host :=
  match h.handler with
  | .idle => none
  | .readStatus =>
      let status := ioread32 h.world.dev Reg.irqStatus.offset
      some { h with handler := if status ≠ 0 then .ack status else .idle }
  | .ack status =>
      some { h with
        world := { h.world with dev := iowrite32 status h.world.dev Reg.irqAck.offset }
        handler := .wake status }
  | .wake _ => some { h.wakeUp with handler := .idle }

end Host

def hostStep (h : Host) : HostAction → Option Host
  | .world a =>
      if a.byDriver && !h.waiter.outside then none
      else (step h.world a).map fun w => { h with world := w }
  | .wait =>
      if h.waiter.outside && h.world.driver.outside then some { h with waiter := .check } else none
  | .waiter => h.waiterStep
  | .expire =>
      match h.waiter with
      | .asleep => some { h with waiter := .join true }
      | _ => none
  | .interrupt merged => h.interrupt merged
  | .handler => h.handlerStep

/-! ### A wake-up that is owed -/

/-- Somebody will still wake the queue: an interrupt that will find the status set, or a
handler that has found it set. -/
def Host.Owed (h : Host) : Prop :=
  (h.world.dev.irqStatus ≠ 0 ∧ (h.Pending ∨ h.handler = .readStatus)) ∨
    ∃ status, status ≠ 0 ∧ (h.handler = .ack status ∨ h.handler = .wake status)

/-- The callback has posted a completion, or is about to, and will raise the interrupt. -/
def Callback.WillRaise : Callback → Prop
  | .idle | .loop false => False
  | _ => True

/-- The thread has found nothing to drain and has not been woken since. -/
def Host.Waiting (h : Host) : Prop :=
  (h.waiter = .sleep ∨ h.waiter = .asleep) ∧ h.queued = true

structure Watched (h : Host) : Prop where
  delivered_le : h.delivered ≤ h.world.dev.msiNotified
  /-- The handler acknowledges only what it has read. -/
  ack_ne_zero : ∀ status, h.handler = .ack status → status ≠ 0
  queued : h.waiter = .asleep → h.queued = true
  owed : h.Waiting → h.world.dev.cqTail ≠ h.world.eng.cqHead →
    h.Owed ∨ h.world.callback.WillRaise

section Steps

variable {h h' : Host}

theorem condition_eq_false : h.condition = false ↔
    h.world.dev.cqTail = h.world.eng.cqHead := by
  rw [Host.condition, decide_eq_false_iff_not, not_not]
  rfl

structure SameIrq (d d' : DmaEngineState) : Prop where
  irqStatus : d'.irqStatus = d.irqStatus
  msiEnabled : d'.msiEnabled = d.msiEnabled
  msiNotified : d'.msiNotified = d.msiNotified
  irqLevel : d'.irqLevel = d.irqLevel

theorem Host.Owed.congr (ho : h.Owed) (hd : SameIrq h.world.dev h'.world.dev)
    (hdel : h'.delivered = h.delivered) (hhandler : h'.handler = h.handler) : h'.Owed := by
  rw [Host.Owed, Host.Pending, hd.irqStatus, hd.msiEnabled, hd.msiNotified, hd.irqLevel, hdel,
    hhandler]
  exact ho

theorem Host.Owed.unread (ho : h.Owed) (hh : h.handler = .idle ∨ h.handler = .readStatus) :
    h.world.dev.irqStatus ≠ 0 ∧ (h.Pending ∨ h.handler = .readStatus) := by
  rcases ho with howed | ⟨status, -, hread⟩
  · exact howed
  · rcases hh with hh | hh <;> rw [hh] at hread <;> rcases hread with hread | hread <;> cases hread

/-- A batch that has been announced is owed a wake-up. -/
theorem owed_raiseIrq {d : DmaEngineState} (hdev : h.world.dev = dmaEngineRaiseIrq d)
    (hle : h.delivered ≤ d.msiNotified) : h.Owed := by
  left
  rw [Host.Pending, hdev]
  have hstatus : d.irqStatus ||| irqCqReady ≠ 0 := by
    intro hzero
    have hbit := congrArg (BitVec.getLsbD · 0) hzero
    simp [irqCqReady] at hbit
  cases hmsi : d.msiEnabled with
  | true =>
      simp only [dmaEngineRaiseIrq, hmsi, if_true]
      exact ⟨hstatus, Or.inl (Nat.lt_succ_of_le hle)⟩
  | false =>
      simp only [dmaEngineRaiseIrq, hmsi, if_false, Bool.false_eq_true]
      exact ⟨hstatus, Or.inl trivial⟩

theorem sameIrq_driverMove {w w' : World} (hm : DriverMove w w') : SameIrq w.dev w'.dev := by
  cases hm <;> exact ⟨rfl, rfl, rfl, rfl⟩

theorem Watched.outside (hw : Watched h) {w : World} (hout : h.waiter.outside = true)
    (hd : SameIrq h.world.dev w.dev) : Watched { h with world := w } := by
  have hnot : ¬ h.Waiting := by
    rintro ⟨hs | hs, -⟩ <;> rw [hs] at hout <;> cases hout
  exact
    { hw with
      delivered_le := hw.delivered_le.trans_eq hd.msiNotified.symm
      owed := fun hwait => absurd hwait hnot }

theorem Watched.quiet (hw : Watched h) {w : World} (hd : SameIrq h.world.dev w.dev)
    (htail : w.dev.cqTail = h.world.dev.cqTail) (hhead : w.eng.cqHead = h.world.eng.cqHead)
    (hc : h.world.callback.WillRaise → w.callback.WillRaise) : Watched { h with world := w } := by
  refine { hw with
    delivered_le := hw.delivered_le.trans_eq hd.msiNotified.symm
    owed := fun hwait hne => ?_ }
  rw [htail, hhead] at hne
  exact (hw.owed hwait hne).imp (fun ho => ho.congr hd rfl rfl) hc

theorem Watched.device (hw : Watched h) {w : World} {r : DmaResult}
    (hm : DeviceMove r h.world w) : Watched { h with world := w } := by
  cases hm with
  | stop didWork hc htest =>
      cases didWork with
      | false =>
          refine hw.quiet ⟨rfl, rfl, rfl, rfl⟩ rfl rfl fun hr => ?_
          rw [hc] at hr
          exact hr.elim
      | true =>
          have hle : h.world.dev.msiNotified ≤ (dmaEngineRaiseIrq h.world.dev).msiNotified := by
            rw [dmaEngineRaiseIrq]
            split
            · exact Nat.le_succ _
            · exact le_rfl
          exact
            { hw with
              delivered_le := hw.delivered_le.trans hle
              owed := fun _ _ => Or.inl (owed_raiseIrq rfl hw.delivered_le) }
  | fetch => exact hw.quiet ⟨rfl, rfl, rfl, rfl⟩ rfl rfl fun _ => trivial
  | transfer => exact hw.quiet ⟨rfl, rfl, rfl, rfl⟩ rfl rfl fun _ => trivial
  | writeCqe => exact hw.quiet ⟨rfl, rfl, rfl, rfl⟩ rfl rfl fun _ => trivial
  | advance => exact { hw with owed := fun _ _ => Or.inr trivial }

theorem byDriver_of_entry {a : Action} {d : Driver} (h : a.entry = some d) :
    a.byDriver = true := by
  cases a <;> cases h <;> rfl

theorem Watched.world (hw : Watched h) {a : Action} {w : World} (hs : step h.world a = some w)
    (ha : a.byDriver = true → h.waiter.outside = true) : Watched { h with world := w } := by
  cases move_of_step hs with
  | enter a d hentry hout =>
      exact hw.outside (ha (byDriver_of_entry hentry)) ⟨rfl, rfl, rfl, rfl⟩
  | driver w' hm => exact hw.outside (ha rfl) (sameIrq_driverMove hm)
  | timer hc harmed =>
      refine hw.quiet ⟨rfl, rfl, rfl, rfl⟩ rfl rfl fun hr => ?_
      rw [hc] at hr
      exact hr.elim
  | device r w' hm => exact hw.device hm
  | host x b => exact hw.quiet ⟨rfl, rfl, rfl, rfl⟩ rfl rfl id

theorem Watched.awake (hw : Watched h) (hworld : h'.world = h.world)
    (hdel : h'.delivered = h.delivered) (hhandler : h'.handler = h.handler)
    (hs : h'.waiter ≠ .sleep ∧ h'.waiter ≠ .asleep) : Watched h' where
  delivered_le := by rw [hworld, hdel]; exact hw.delivered_le
  ack_ne_zero := by rw [hhandler]; exact hw.ack_ne_zero
  queued ha := absurd ha hs.2
  owed hwait := absurd hwait.1 (not_or.mpr hs)

theorem Watched.waiterStep (hw : Watched h) (hs : h.waiterStep = some h') : Watched h' := by
  unfold Host.waiterStep at hs
  split at hs
  · cases hs
  · cases hs
  · cases hs
  · cases hs
    split
    · exact hw.awake rfl rfl rfl ⟨nofun, nofun⟩
    · exact hw.awake rfl rfl rfl ⟨nofun, nofun⟩
  · cases hs
    exact hw.awake rfl rfl rfl ⟨nofun, nofun⟩
  · cases hs
    split
    · exact hw.awake rfl rfl rfl ⟨nofun, nofun⟩
    · rename_i hcond
      split
      · exact hw.awake rfl rfl rfl ⟨nofun, nofun⟩
      · -- nothing to drain at the moment of the comparison
        exact
          { hw with
            queued := nofun
            owed := fun _ hne => absurd (condition_eq_false.mp (Bool.not_eq_true _ ▸ hcond)) hne }
  · rename_i hsleep
    cases hs
    by_cases hq : h.queued = true
    · rw [if_pos hq]
      exact
        { hw with
          queued := fun _ => hq
          owed := fun _ hne => (hw.owed ⟨Or.inl hsleep, hq⟩ hne).imp_left
            fun ho => ho.congr ⟨rfl, rfl, rfl, rfl⟩ rfl rfl }
    · rw [if_neg hq]
      exact hw.awake rfl rfl rfl ⟨nofun, nofun⟩

/-- An interrupt takes its message off, and its handler will read the status. -/
theorem Watched.interrupt (hw : Watched h) {merged : ℕ} (hs : h.interrupt merged = some h') :
    Watched h' := by
  unfold Host.interrupt at hs
  have howed {n : ℕ} (hidle : h.handler = .idle) (ho : h.Owed) :
      Host.Owed { h with delivered := n, handler := .readStatus } :=
    Or.inl ⟨(ho.unread (Or.inl hidle)).1, Or.inr rfl⟩
  split at hs
  · rename_i hidle
    split at hs
    · split at hs
      · rename_i hlt
        cases hs
        exact
          { hw with
            delivered_le := hlt
            ack_ne_zero := nofun
            owed := fun hwait hne => (hw.owed hwait hne).imp_left (howed hidle) }
      · cases hs
    · split at hs
      · cases hs
        exact
          { hw with
            ack_ne_zero := nofun
            owed := fun hwait hne => (hw.owed hwait hne).imp_left (howed hidle) }
      · cases hs
  · cases hs

theorem iowrite32_irqAck (status : Word) (d : DmaEngineState) :
    iowrite32 status d Reg.irqAck.offset = dmaEngineLowerIrq d := rfl

theorem Watched.handlerStep (hw : Watched h) (hs : h.handlerStep = some h') : Watched h' := by
  unfold Host.handlerStep at hs
  split at hs
  · cases hs
  · rename_i hread
    cases hs
    refine { hw with ack_ne_zero := fun status hack => ?_, owed := fun hwait hne => ?_ }
    · by_cases hzero : ioread32 h.world.dev Reg.irqStatus.offset ≠ 0
      · rw [if_pos hzero, IrqHandler.ack.injEq] at hack
        exact hack ▸ hzero
      · rw [if_neg hzero] at hack
        cases hack
    · refine (hw.owed hwait hne).imp_left fun ho => ?_
      have hstatus : h.world.dev.irqStatus ≠ 0 := (ho.unread (Or.inr hread)).1
      exact Or.inr ⟨h.world.dev.irqStatus, hstatus, Or.inl (if_pos hstatus)⟩
  · rename_i status hack
    cases hs
    rw [iowrite32_irqAck]
    have hsame : (dmaEngineLowerIrq h.world.dev).msiNotified = h.world.dev.msiNotified := by
      rw [dmaEngineLowerIrq]
      split <;> rfl
    -- the status is gone, but the handler that has erased it has not woken the queue yet
    exact
      { hw with
        delivered_le := hw.delivered_le.trans_eq hsame.symm
        ack_ne_zero := nofun
        owed := fun _ _ => Or.inl (Or.inr ⟨status, hw.ack_ne_zero status hack, Or.inr rfl⟩) }
  · cases hs
    have hqueue : h.wakeUp.queued = false ∧ h.wakeUp.waiter ≠ .asleep := by
      rw [Host.wakeUp]
      split
      · refine ⟨rfl, ?_⟩
        dsimp only
        split
        · nofun
        · assumption
      · rename_i hq
        exact ⟨Bool.not_eq_true _ ▸ hq, fun ha => hq (hw.queued ha)⟩
    have hsame : h.wakeUp.world = h.world ∧ h.wakeUp.delivered = h.delivered := by
      rw [Host.wakeUp]
      split <;> exact ⟨rfl, rfl⟩
    exact
      { delivered_le := by rw [hsame.1, hsame.2]; exact hw.delivered_le
        ack_ne_zero := nofun
        queued := fun ha => absurd ha hqueue.2
        owed := fun hwait => by rw [Host.Waiting, hqueue.1] at hwait; cases hwait.2 }

theorem watched_step {a : HostAction} (hw : Watched h) (hs : hostStep h a = some h') :
    Watched h' := by
  cases a with
  | world a =>
      rw [hostStep] at hs
      split at hs
      · cases hs
      · rename_i hgo
        obtain ⟨w, hstep, rfl⟩ := Option.map_eq_some_iff.mp hs
        refine hw.world hstep fun ha => ?_
        rw [ha, Bool.true_and, Bool.not_eq_true, Bool.not_eq_false'] at hgo
        exact hgo
  | wait =>
      rw [hostStep] at hs
      split at hs
      · cases hs
        exact hw.awake rfl rfl rfl ⟨nofun, nofun⟩
      · cases hs
  | waiter => exact hw.waiterStep hs
  | expire =>
      rw [hostStep] at hs
      split at hs
      · cases hs
        exact hw.awake rfl rfl rfl ⟨nofun, nofun⟩
      · cases hs
  | interrupt merged => exact hw.interrupt hs
  | handler => exact hw.handlerStep hs

end Steps

/-! ### Whole runs -/

theorem watched_create (d : DmaEngineState) (m : Mem) (sqDma cqDma : Addr) (msi : Bool)
    (sqDepth cqDepth : Word) : Watched (.create d m sqDma cqDma msi sqDepth cqDepth) where
  delivered_le := by
    have hdev := engineCreate_device sqDma cqDma msi d sqDepth cqDepth
    change d.msiNotified ≤ (engineCreate sqDma cqDma msi d sqDepth cqDepth).2.msiNotified
    rw [hdev]
  ack_ne_zero := nofun
  queued := nofun
  owed := fun hwait => by cases hwait.2

/-- **No lost wake-up.** Whatever the placement of the device's batches around the steps of
the handler and of the waiter, with messages or with a line: while the waiter sleeps although
there is something to drain, a wake-up is owed, except that in the middle of a batch the
interrupt may be still to come that the batch ends with. -/
theorem no_lost_wakeup {m : Mem} {sqDma cqDma : Addr} {msi : Bool} {sqDepth cqDepth : Word}
    {as : List HostAction} {h : Host}
    (hs : exec hostStep (.create .fresh m sqDma cqDma msi sqDepth cqDepth) as = some h)
    (hasleep : h.waiter = .asleep)
    (hready : ioread32 h.world.dev Reg.cqTail.offset ≠ h.world.eng.cqHead) :
    (h.world.callback = .idle → h.Owed) ∧ (h.Owed ∨ h.world.callback.WillRaise) := by
  have hw : Watched h := exec_invariant (I := Watched) (fun _ _ _ hw hs => watched_step hw hs) hs
    (watched_create ..)
  have howed := hw.owed ⟨Or.inr hasleep, hw.queued hasleep⟩ hready
  refine ⟨fun hc => howed.resolve_right ?_, howed⟩
  rw [hc]
  exact id

def oneBatch : List HostAction := [.timer, .device .ok, .device .ok, .device .ok, .device .ok,
  .device .ok].map .world

def oneSubmission : List HostAction := [.submit ⟨7, 0x8000, 1, 3⟩, .driver, .driver, .driver,
  .doorbell, .driver].map .world

/-- The second batch is complete when the handler, having read the status of the first one,
acknowledges it, and by then the driver has drained the first completion and sleeps. -/
def batchBeforeAck : List HostAction :=
  oneSubmission ++ oneBatch ++ [.interrupt 0, .handler] ++
    [.drain 1, .driver, .driver, .driver].map .world ++ oneSubmission ++
    [.wait, .waiter, .waiter, .waiter, .waiter] ++ oneBatch ++ [.handler]

theorem no_lost_wakeup_batchBeforeAck :
    ∃ h, exec hostStep (.create .fresh (fun _ => 0) 0x1000 0x2000 true 2 2) batchBeforeAck =
        some h ∧
      h.waiter = .asleep ∧ h.world.dev.irqStatus = 0 ∧ h.handler = .wake 1 ∧ h.Owed := by
  have hs : exec hostStep (.create .fresh (fun _ => 0) 0x1000 0x2000 true 2 2) batchBeforeAck =
      some _ := rfl
  exact ⟨_, hs, rfl, rfl, rfl, (no_lost_wakeup hs rfl (by decide)).1 rfl⟩

/-! ### What is owed is paid -/

/-- The handler and the waiter on their own get the waiter out of `engine_wait`, with 0. -/
def Host.Returns (h : Host) : Prop :=
  ∃ as h', (∀ a ∈ as, a = .interrupt 0 ∨ a = .handler ∨ a = .waiter) ∧
    exec hostStep h as = some h' ∧ h'.waiter = .returned 0

section Returns

variable {h h' : Host}

theorem Host.Returns.of_step {a : HostAction}
    (ha : a = .interrupt 0 ∨ a = .handler ∨ a = .waiter) (hs : hostStep h a = some h')
    (hr : h'.Returns) : h.Returns := by
  obtain ⟨as, h'', has, hexec, hret⟩ := hr
  refine ⟨a :: as, h'', ?_, exec_cons_eq_some.mpr ⟨h', hs, hexec⟩, hret⟩
  intro b hb
  rcases List.mem_cons.mp hb with rfl | hb
  · exact ha
  · exact has b hb

theorem Host.Returns.of_handlerStep (hs : h.handlerStep = some h') (hr : h'.Returns) :
    h.Returns :=
  .of_step (Or.inr (Or.inl rfl)) hs hr

theorem Host.Returns.of_waiterStep (hs : h.waiterStep = some h') (hr : h'.Returns) :
    h.Returns :=
  .of_step (Or.inr (Or.inr rfl)) hs hr

theorem returns_of_compare (hcompare : h.waiter = .compare false) (hc : h.condition = true) :
    h.Returns := by
  have hstep : h.waiterStep = some (h.finishWait 0) := by
    simp only [Host.waiterStep, hcompare, hc, if_true]
  exact .of_waiterStep hstep ⟨[], _, by simp, rfl, rfl⟩

theorem returns_of_join (hjoin : h.waiter = .join false) (hc : h.condition = true) :
    h.Returns := by
  have hstep : h.waiterStep = some { h with queued := true, waiter := .compare false } := by
    simp only [Host.waiterStep, hjoin]
  exact .of_waiterStep hstep (returns_of_compare rfl hc)

theorem returns_of_wake {status : Word} (hh : h.handler = .wake status)
    (hasleep : h.waiter = .asleep) (hq : h.queued = true) (hc : h.condition = true) :
    h.Returns := by
  have hwake : h.handlerStep =
      some { h with queued := false, waiter := .join false, handler := .idle } := by
    simp only [Host.handlerStep, hh, Host.wakeUp, hq, if_true, hasleep]
  exact .of_handlerStep hwake (returns_of_join rfl hc)

theorem returns_of_ack {status : Word} (hh : h.handler = .ack status)
    (hasleep : h.waiter = .asleep) (hq : h.queued = true) (hc : h.condition = true) :
    h.Returns := by
  have hack : h.handlerStep = some { h with
      world := { h.world with dev := dmaEngineLowerIrq h.world.dev }
      handler := .wake status } := by
    simp only [Host.handlerStep, hh, iowrite32_irqAck]
  have htail : (dmaEngineLowerIrq h.world.dev).cqTail = h.world.dev.cqTail := by
    rw [dmaEngineLowerIrq]
    split <;> rfl
  refine .of_handlerStep hack (returns_of_wake rfl hasleep hq ?_)
  rw [← hc]
  change decide ((dmaEngineLowerIrq h.world.dev).cqTail ≠ h.world.eng.cqHead) = _
  rw [htail]
  rfl

theorem returns_of_readStatus (hstatus : h.world.dev.irqStatus ≠ 0)
    (hh : h.handler = .readStatus) (hasleep : h.waiter = .asleep) (hq : h.queued = true)
    (hc : h.condition = true) : h.Returns := by
  have hstatus' : ioread32 h.world.dev Reg.irqStatus.offset ≠ 0 := hstatus
  have hread : h.handlerStep =
      some { h with handler := .ack (ioread32 h.world.dev Reg.irqStatus.offset) } := by
    simp only [Host.handlerStep, hh, if_pos hstatus']
  exact .of_handlerStep hread (returns_of_ack rfl hasleep hq hc)

theorem returns_of_pending (hstatus : h.world.dev.irqStatus ≠ 0) (hpending : h.Pending)
    (hh : h.handler = .idle) (hasleep : h.waiter = .asleep) (hq : h.queued = true)
    (hc : h.condition = true) : h.Returns := by
  have hrun : ∃ n, h.interrupt 0 = some { h with delivered := n, handler := .readStatus } := by
    rw [Host.Pending] at hpending
    rw [Host.interrupt, hh]
    cases hmsi : h.world.dev.msiEnabled with
    | true =>
        rw [hmsi, if_pos rfl] at hpending
        exact ⟨_, by simp only [if_true, Nat.add_zero, if_pos hpending]; rfl⟩
    | false =>
        rw [hmsi, if_neg (by decide)] at hpending
        exact ⟨h.delivered, by simp only [hpending, if_true, Bool.false_eq_true, if_false]⟩
  obtain ⟨n, hrun⟩ := hrun
  exact .of_step (Or.inl rfl) hrun (returns_of_readStatus hstatus rfl hasleep hq hc)

/-- A sleeping waiter that is owed a wake-up is one run of the handler away from returning. -/
theorem Host.Owed.returns (ho : h.Owed) (hasleep : h.waiter = .asleep) (hq : h.queued = true)
    (hc : h.condition = true) : h.Returns := by
  cases hh : h.handler with
  | idle =>
      obtain ⟨hstatus, hpending | hread⟩ := ho.unread (Or.inl hh)
      · exact returns_of_pending hstatus hpending hh hasleep hq hc
      · rw [hh] at hread
        cases hread
  | readStatus =>
      have hstatus : h.world.dev.irqStatus ≠ 0 := (ho.unread (Or.inr hh)).1
      exact returns_of_readStatus hstatus hh hasleep hq hc
  | ack status => exact returns_of_ack hh hasleep hq hc
  | wake status => exact returns_of_wake hh hasleep hq hc

end Returns

end SystemsPrep.Dma
