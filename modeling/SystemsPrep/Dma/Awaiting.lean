import SystemsPrep.Dma.EndToEnd
import SystemsPrep.Dma.Interrupts

/-!
What happens around a thread in `engine_wait`.

Until its timeout runs out, the driver does nothing else: the device goes on with what the
doorbell has announced, the interrupt and its handler come and go, and the thread tests its
condition and sleeps. None of this disturbs the engine, and the condition says what it
stands for, that a posted completion is not drained.
-/

namespace SystemsPrep.Dma

open Base

/-- In `engine_wait`, and the timeout has not run out. -/
def Waiter.awaiting : Waiter → Bool
  | .check | .join false | .compare false | .sleep | .asleep => true
  | _ => false

def Waiter.woken : Waiter → Waiter
  | .asleep => .join false
  | s => s

/-- A step of the host while a thread waits. -/
inductive WaitMove (h : Host) : HostAction → Host → Prop
  | timer (hc : h.world.callback = .idle) (harmed : h.world.dev.timerArmed = true) :
      WaitMove h (.world .timer) { h with world := { h.world with
        dev := { h.world.dev with timerArmed := false }
        callback := .loop false } }
  | device (r : DmaResult) (w : World) (hm : DeviceMove r h.world w) :
      WaitMove h (.world (.device r)) { h with world := w }
  | host (x : Addr) (b : Byte) :
      WaitMove h (.world (.host x b))
        { h with world := { h.world with mem := Function.update h.world.mem x b } }
  | found (hs : h.waiter = .check ∨ h.waiter = .compare false) (hc : h.condition = true) :
      WaitMove h .waiter (h.finishWait 0)
  | check (hs : h.waiter = .check) (hc : h.condition = false) :
      WaitMove h .waiter { h with waiter := .join false }
  | join (hs : h.waiter = .join false) :
      WaitMove h .waiter { h with queued := true, waiter := .compare false }
  | compare (hs : h.waiter = .compare false) (hc : h.condition = false) :
      WaitMove h .waiter { h with waiter := .sleep }
  | sleep (hs : h.waiter = .sleep) (hq : h.queued = true) :
      WaitMove h .waiter { h with waiter := .asleep }
  | roused (hs : h.waiter = .sleep) (hq : h.queued = false) :
      WaitMove h .waiter { h with waiter := .join false }
  | interrupt (merged n : ℕ) (hh : h.handler = .idle) (hp : h.Pending) :
      WaitMove h (.interrupt merged) { h with delivered := n, handler := .readStatus }
  | spurious (hh : h.handler = .readStatus) (hstatus : h.world.dev.irqStatus = 0) :
      WaitMove h .handler { h with handler := .idle }
  | readStatus (hh : h.handler = .readStatus) (hstatus : h.world.dev.irqStatus ≠ 0) :
      WaitMove h .handler { h with handler := .ack h.world.dev.irqStatus }
  | ack (status : Word) (hh : h.handler = .ack status) :
      WaitMove h .handler { h with
        world := { h.world with dev := dmaEngineLowerIrq h.world.dev }
        handler := .wake status }
  | missed (status : Word) (hh : h.handler = .wake status) (hq : h.queued = false) :
      WaitMove h .handler { h with handler := .idle }
  | wake (status : Word) (hh : h.handler = .wake status) (hq : h.queued = true) :
      WaitMove h .handler
        { h with queued := false, waiter := h.waiter.woken, handler := .idle }

section Inversion

variable {h h' : Host}

theorem waitMove_of_world {a : Action} {w : World} (ha : a.byDriver = false)
    (hs : step h.world a = some w) : WaitMove h (.world a) { h with world := w } := by
  cases move_of_step hs with
  | enter a d hentry hout =>
      rw [byDriver_of_entry hentry] at ha
      cases ha
  | driver w' hm => cases ha
  | timer hc harmed => exact .timer hc harmed
  | device r w' hm => exact .device r w hm
  | host x b => exact .host x b

theorem waitMove_of_waiterStep (hw : h.waiter.awaiting = true) (hs : h.waiterStep = some h') :
    WaitMove h .waiter h' := by
  unfold Host.waiterStep at hs
  split at hs <;> rename_i hwaiter
  · cases hs
  · cases hs
  · cases hs
  · cases hs
    split <;> rename_i hc
    · exact .found (Or.inl hwaiter) hc
    · exact .check hwaiter (Bool.not_eq_true _ ▸ hc)
  · rename_i expired
    cases hs
    rw [hwaiter] at hw
    cases expired with
    | false => exact .join hwaiter
    | true => cases hw
  · rename_i expired
    rw [hwaiter] at hw
    cases hs
    cases expired with
    | false =>
        split <;> rename_i hc
        · exact .found (Or.inr hwaiter) hc
        · exact .compare hwaiter (Bool.not_eq_true _ ▸ hc)
    | true => cases hw
  · cases hs
    by_cases hq : h.queued = true
    · rw [if_pos hq]
      exact .sleep hwaiter hq
    · rw [if_neg hq]
      exact .roused hwaiter (Bool.not_eq_true _ ▸ hq)

theorem waitMove_of_interrupt {merged : ℕ} (hs : h.interrupt merged = some h') :
    WaitMove h (.interrupt merged) h' := by
  unfold Host.interrupt at hs
  split at hs
  · rename_i hh
    split at hs <;> rename_i hmsi
    · split at hs
      · rename_i hlt
        cases hs
        refine .interrupt merged _ hh ?_
        rw [Host.Pending, if_pos hmsi]
        omega
      · cases hs
    · split at hs
      · rename_i hlevel
        cases hs
        refine .interrupt merged h.delivered hh ?_
        rwa [Host.Pending, if_neg hmsi]
      · cases hs
  · cases hs

theorem waitMove_of_handlerStep (hs : h.handlerStep = some h') : WaitMove h .handler h' := by
  unfold Host.handlerStep at hs
  split at hs <;> rename_i hh
  · cases hs
  · cases hs
    by_cases hstatus : h.world.dev.irqStatus = 0
    · have hread : ¬ ioread32 h.world.dev Reg.irqStatus.offset ≠ 0 := not_not.mpr hstatus
      rw [if_neg hread]
      exact .spurious hh hstatus
    · have hread : ioread32 h.world.dev Reg.irqStatus.offset ≠ 0 := hstatus
      rw [if_pos hread]
      exact .readStatus hh hstatus
  · cases hs
    rw [iowrite32_irqAck]
    exact .ack _ hh
  · cases hs
    by_cases hq : h.queued = true
    · have hwake : h.wakeUp = { h with queued := false, waiter := h.waiter.woken } := by
        rw [Host.wakeUp, if_pos hq]
        cases h.waiter <;> rfl
      rw [hwake]
      exact .wake _ hh hq
    · rw [Host.wakeUp, if_neg hq]
      exact .missed _ hh (Bool.not_eq_true _ ▸ hq)

/-- What can happen until the timeout runs out. -/
theorem waitMove_of_step {a : HostAction} (hw : h.waiter.awaiting = true) (ha : a ≠ .expire)
    (hs : hostStep h a = some h') : WaitMove h a h' := by
  have hinside : h.waiter.outside = false := by
    cases hwaiter : h.waiter <;> rw [hwaiter] at hw <;> first | rfl | cases hw
  cases a with
  | world a =>
      rw [hostStep, hinside, Bool.not_false, Bool.and_true] at hs
      split at hs
      · -- the driver makes no other call meanwhile
        cases hs
      · rename_i hdriver
        obtain ⟨w, hstep, rfl⟩ := Option.map_eq_some_iff.mp hs
        exact waitMove_of_world (Bool.not_eq_true _ ▸ hdriver) hstep
  | wait =>
      -- the thread is in a wait already
      rw [hostStep, hinside] at hs
      cases hs
  | waiter => exact waitMove_of_waiterStep hw hs
  | expire => exact absurd rfl ha
  | interrupt merged => exact waitMove_of_interrupt hs
  | handler => exact waitMove_of_handlerStep hs

end Inversion

/-! ### The engine around the interrupt -/

def HostAction.Apart (e : Engine) : HostAction → Prop
  | .world a => a.Apart e
  | _ => True

section Engine

variable {e : Engine} {h h' : Host} {a : HostAction}

theorem lowerIrq_eq (s : DmaEngineState) :
    ∃ level, dmaEngineLowerIrq s = { s with irqStatus := 0, irqLevel := level } := by
  rw [dmaEngineLowerIrq]
  split
  · exact ⟨s.irqLevel, rfl⟩
  · exact ⟨false, rfl⟩

theorem Completion.lowerIrq {w : World} (hc : Completion e w) :
    Completion e { w with dev := dmaEngineLowerIrq w.dev } := by
  obtain ⟨level, hirq⟩ := lowerIrq_eq w.dev
  rw [hirq]
  exact
    { hc with
      submission := { hc.submission with rings := { hc.submission.rings with } }
      posting := { hc.posting with }
      draining := { hc.draining with } }

/-- The handler, the waiter and the interrupt do not disturb the engine. -/
theorem completion_hostStep (ha : a.Apart e) (hc : Completion e h.world)
    (hs : hostStep h a = some h') : Completion e h'.world := by
  cases a with
  | world a =>
      rw [hostStep] at hs
      split at hs
      · cases hs
      · obtain ⟨w, hstep, rfl⟩ := Option.map_eq_some_iff.mp hs
        exact hc.step ha hstep
  | wait =>
      rw [hostStep] at hs
      split at hs <;> cases hs
      exact hc
  | waiter =>
      rw [hostStep, Host.waiterStep] at hs
      split at hs <;> cases hs
      case h_4 => split <;> exact hc
      case h_6 => split_ifs <;> exact hc
      all_goals exact hc
  | expire =>
      rw [hostStep] at hs
      split at hs <;> cases hs
      exact hc
  | interrupt merged =>
      cases waitMove_of_interrupt hs
      exact hc
  | handler =>
      cases waitMove_of_handlerStep hs with
      | ack status hh => exact hc.lowerIrq
      | _ => exact hc

structure Expecting (e : Engine) (h : Host) : Prop where
  completion : Completion e h.world
  watched : Watched h
  awaiting : h.waiter.awaiting = true
  near : h.world.announced < h.world.drained.length + 2 ^ 32

namespace Expecting

theorem condition_iff (hx : Expecting e h) :
    h.condition = true ↔ h.world.drained.length < h.world.posted.length := by
  obtain ⟨hcomp, -, -, hnear⟩ := hx
  have hle := hcomp.draining.drained_le
  have hposted := hcomp.submission.posted_le
  rw [← Bool.not_eq_false, not_iff_comm, condition_eq_false, hcomp.submission.cqTail,
    hcomp.draining.cqHead, ofNat_inj_of_near hle (by omega)]
  omega

theorem not_condition (hx : Expecting e h) (hc : h.condition = false) :
    h.world.drained.length = h.world.posted.length := by
  have hle := hx.completion.draining.drained_le
  have hnot := hx.condition_iff.not.mp (by rw [hc]; exact Bool.false_ne_true)
  omega

end Expecting

/-- The waiter has found its condition to hold, or it still waits, and the driver has done
nothing. -/
structure StillWaits (e : Engine) (h h' : Host) : Prop where
  expecting : Expecting e h'
  announced : h'.world.announced = h.world.announced
  drained : h'.world.drained = h.world.drained

theorem Expecting.step (hx : Expecting e h) (ha : a.Apart e) (hexpire : a ≠ .expire)
    (hs : hostStep h a = some h') :
    (h'.waiter = .returned 0 ∧ h.condition = true) ∨ StillWaits e h h' := by
  have hcomp := completion_hostStep ha hx.completion hs
  have hwatched := watched_step hx.watched hs
  -- all but the two tests that come out true
  have hstill (hawaiting : h'.waiter.awaiting = true)
      (hannounced : h'.world.announced = h.world.announced)
      (hdrained : h'.world.drained = h.world.drained) : StillWaits e h h' :=
    ⟨⟨hcomp, hwatched, hawaiting, by rw [hannounced, hdrained]; exact hx.near⟩, hannounced,
      hdrained⟩
  cases waitMove_of_step hx.awaiting hexpire hs with
  | found hw hc => exact Or.inl ⟨rfl, hc⟩
  | timer | host | interrupt | spurious | readStatus | ack | missed =>
      exact Or.inr (hstill hx.awaiting rfl rfl)
  | device r w hm =>
      refine Or.inr (hstill hx.awaiting ?_ ?_) <;> cases hm <;> rfl
  | check | join | compare | sleep | roused => exact Or.inr (hstill rfl rfl rfl)
  | wake status hh hq =>
      have hwoken : h.waiter.woken.awaiting = true := by
        have hawaiting := hx.awaiting
        cases hw : h.waiter <;> rw [hw] at hawaiting <;> exact hawaiting
      exact Or.inr (hstill hwoken rfl rfl)

end Engine

end SystemsPrep.Dma
