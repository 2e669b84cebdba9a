import SystemsPrep.Dma.Overrun

/-!
Destroying an engine.

`engine_destroy` frees the rings before it takes the bus away from the device,
and it does not wait for the device. Its steps interleave with a timer that a
doorbell may have armed and with a callback that may be running. The rings are
safe exactly when nothing that was announced is left to process.
-/

namespace SystemsPrep.Dma

open Base

/-- The next statement of `engine_destroy`. -/
inductive Destroy
  | freeIrq
  | freeIrqVectors
  | freeSq
  | freeCq
  | clearMaster
  | iounmap
  | releaseRegion
  | disableDevice
  | kfree
  | done
  deriving DecidableEq

/-- An engine that is being destroyed, with the device and the memory it leaves. -/
structure Teardown where
  eng : Engine
  next : Destroy
  dev : DmaEngineState
  callback : Callback
  mem : Mem
  master : Bool
  sqFreed : Bool
  cqFreed : Bool

def World.destroy (w : World) : Teardown where
  eng := w.eng
  next := .freeIrq
  dev := w.dev
  callback := w.callback
  mem := w.mem
  master := true
  sqFreed := false
  cqFreed := false

/-- Take the next statement, let the timer fire, take the next action of its
callback, or write a byte from elsewhere. Where an SQE cannot be read, the
callback goes on with what is on its stack. -/
inductive TeardownAction
  | destroy
  | timer
  | device (r : DmaResult) (stack : Sqe)
  | host (a : Addr) (b : Byte)

def destroyStep (t : Teardown) : Option Teardown :=
  match t.next with
  | .freeIrq => some { t with next := .freeIrqVectors }
  | .freeIrqVectors => some { t with dev := { t.dev with msiEnabled := false }, next := .freeSq }
  | .freeSq => some { t with sqFreed := true, next := .freeCq }
  | .freeCq => some { t with cqFreed := true, next := .clearMaster }
  | .clearMaster => some { t with master := false, next := .iounmap }
  | .iounmap => some { t with next := .releaseRegion }
  | .releaseRegion => some { t with next := .disableDevice }
  | .disableDevice => some { t with next := .kfree }
  | .kfree => some { t with next := .done }
  | .done => none

def Teardown.bus (t : Teardown) (r : DmaResult) (stack : Sqe) : Bus where
  master := t.master
  result := r
  stack := stack

def teardownStep (t : Teardown) : TeardownAction → Option Teardown
  | .destroy => destroyStep t
  | .timer =>
      (timerFire t.dev t.callback).map fun (dev, callback) =>
        { t with dev := dev, callback := callback }
  | .device r stack =>
      (callbackStep (t.bus r stack) t.dev t.callback t.mem).map fun (dev, callback, mem) =>
        { t with dev := dev, callback := callback, mem := mem }
  | .host a b => some { t with mem := Function.update t.mem a b }

/-! ### Accesses to freed memory -/

/-- `pci_dma_read` or `pci_dma_write`, of `len` bytes. -/
inductive Access
  | read (addr : Addr) (len : ℕ)
  | write (addr : Addr) (len : ℕ)

def callbackAccess (s : DmaEngineState) : Callback → Option Access
  | .loop _ => if s.sqHead = s.sqTail ∨ s.cqFull then none else some (.read s.sqeAddr 24)
  | .transfer sqe =>
      if sqe.op = opTx then some (.read sqe.bufAddr (clampLen sqe.len).toNat)
      else if sqe.op = opRx then some (.write sqe.bufAddr (clampLen sqe.len).toNat)
      else none
  | .writeCqe _ => some (.write s.cqeAddr 16)
  | .idle | .advance _ => none

/-- The callback's next action, with the bus still the device's to master, reads
from the freed submission ring or writes to the freed completion ring. -/
def Teardown.TouchesFreed (t : Teardown) : Prop :=
  t.master = true ∧
    match callbackAccess t.dev t.callback with
    | some (.read addr len) => t.sqFreed = true ∧ ∃ a, Covers addr len a ∧ t.eng.InSq a
    | some (.write addr len) => t.cqFreed = true ∧ ∃ a, Covers addr len a ∧ t.eng.InCq a
    | none => False

/-- The step is no access of the device to a freed ring. -/
def NoFreedDma (t : Teardown) (a : TeardownAction) (_ : Teardown) : Prop :=
  match a with
  | .device _ _ => ¬ t.TouchesFreed
  | _ => True

/-! ### A device with nothing left to do -/

def DmaEngineState.Stops (s : DmaEngineState) : Prop := s.sqHead = s.sqTail ∨ s.cqFull = true

/-- No SQE is in hand, and the loop has none to fetch. -/
def Settled (s : DmaEngineState) : Callback → Prop
  | .idle => s.timerArmed = true → s.Stops
  | .loop _ => s.Stops
  | .transfer _ | .writeCqe _ => False
  | .advance _ => s.sqHead + 1 = s.sqTail ∨ s.cqFull = true

/-- Advancing both indices leaves the test for room as it was. -/
theorem cqFull_advance (s : DmaEngineState) :
    ({ s with sqHead := s.sqHead + 1, cqTail := s.cqTail + 1 } : DmaEngineState).cqFull =
      s.cqFull := by
  have hsub : s.cqTail + 1 - (s.sqHead + 1) = s.cqTail - s.sqHead := by
    bv_omega
  simp only [DmaEngineState.cqFull, hsub]

theorem settled_callbackStep {b : Bus} {s s' : DmaEngineState} {c c' : Callback} {m m' : Mem}
    (h : Settled s c) (hs : callbackStep b s c m = some (s', c', m')) : Settled s' c' := by
  cases c with
  | idle => cases hs
  | loop didWork =>
      have hstop : s.sqHead = s.sqTail ∨ s.cqFull = true := h
      rw [callbackStep, if_pos hstop, Option.some.injEq, Prod.mk.injEq, Prod.mk.injEq] at hs
      obtain ⟨rfl, rfl, -⟩ := hs
      obtain ⟨_, _, _, hirq⟩ := raiseIrq_eq didWork s
      rw [hirq]
      exact fun _ => h
  | transfer sqe => exact h.elim
  | writeCqe cqe => exact h.elim
  | advance cqe =>
      rw [callbackStep, Option.some.injEq, Prod.mk.injEq, Prod.mk.injEq] at hs
      obtain ⟨rfl, rfl, -⟩ := hs
      exact h.imp_right fun hfull => (cqFull_advance s).trans hfull

theorem settled_timerFire {s s' : DmaEngineState} {c c' : Callback} (h : Settled s c)
    (hs : timerFire s c = some (s', c')) : Settled s' c' := by
  cases c with
  | idle =>
      rw [timerFire] at hs
      split at hs <;> rename_i harmed <;> cases hs
      exact h harmed
  | _ => cases hs

theorem settled_destroyStep {t t' : Teardown} (h : Settled t.dev t.callback)
    (hs : destroyStep t = some t') : Settled t'.dev t'.callback := by
  unfold destroyStep at hs
  split at hs <;> cases hs
  case h_2 =>
    change Settled { t.dev with msiEnabled := false } t.callback
    cases hc : t.callback <;> rw [hc] at h <;> exact h
  all_goals exact h

theorem settled_teardownStep {t t' : Teardown} {a : TeardownAction}
    (h : Settled t.dev t.callback) (hs : teardownStep t a = some t') :
    Settled t'.dev t'.callback := by
  cases a with
  | destroy => exact settled_destroyStep h hs
  | timer =>
      obtain ⟨⟨dev, callback⟩, hfire, rfl⟩ := Option.map_eq_some_iff.mp hs
      exact settled_timerFire h hfire
  | device r stack =>
      obtain ⟨⟨dev, callback, mem⟩, hstep, rfl⟩ := Option.map_eq_some_iff.mp hs
      exact settled_callbackStep h hstep
  | host a b => cases hs; exact h

theorem not_touchesFreed_of_settled {t : Teardown} (h : Settled t.dev t.callback) :
    ¬ t.TouchesFreed := by
  rintro ⟨-, haccess⟩
  cases hc : t.callback with
  | idle => simp [hc, callbackAccess] at haccess
  | loop didWork =>
      rw [hc] at h
      have hstop : t.dev.sqHead = t.dev.sqTail ∨ t.dev.cqFull = true := h
      rw [hc, callbackAccess, if_pos hstop] at haccess
      exact haccess
  | transfer sqe => rw [hc] at h; exact h
  | writeCqe cqe => rw [hc] at h; exact h
  | advance cqe => simp [hc, callbackAccess] at haccess

/-! ### A device with something left to do -/

/-- Some interleaving of the rest of the destruction with the callback has the
device access a freed ring. -/
def Teardown.Unsafe (t : Teardown) : Prop := ∃ as, ¬ Steps teardownStep NoFreedDma t as

theorem Teardown.Unsafe.of_step {t t' : Teardown} {a : TeardownAction} (h : t'.Unsafe)
    (hs : teardownStep t a = some t') : t.Unsafe := by
  obtain ⟨as, has⟩ := h
  exact ⟨a :: as, fun hsteps => has (steps_cons.mp hsteps t' hs).2⟩

structure Exposed (t : Teardown) : Prop where
  master : t.master = true
  cqFreed : t.cqFreed = true
  cqBase : t.dev.cqBase = t.eng.cq
  cqDepth : t.dev.cqDepth = t.eng.cqDepth
  room : t.dev.cqFull = false

namespace Exposed

variable {t : Teardown}

/-- A completion about to be written goes to the freed ring. -/
theorem unsafe_writeCqe (h : Exposed t) {cqe : Cqe} (hc : t.callback = .writeCqe cqe) :
    t.Unsafe := by
  refine ⟨[.device .ok ⟨0, 0, 0, 0⟩], fun hsteps => ?_⟩
  obtain ⟨t', ht'⟩ : ∃ t', teardownStep t (.device .ok ⟨0, 0, 0, 0⟩) = some t' := by
    rw [teardownStep, hc]
    exact ⟨_, rfl⟩
  refine (steps_cons.mp hsteps t' ht').1 ⟨h.master, ?_⟩
  rw [hc]
  have hcov : Covers t.dev.cqeAddr 16 t.dev.cqeAddr := by
    rw [Covers, BitVec.sub_self]
    decide
  refine ⟨h.cqFreed, t.dev.cqeAddr, hcov, ?_⟩
  have hslots : t.eng.cqDepth ≠ 0 := by
    rw [← h.cqDepth]
    exact cqDepth_ne_zero h.room
  rw [cqeAddr_eq, h.cqBase, h.cqDepth] at hcov ⊢
  exact Layout.covers_of_covers_slot (toNat_and_sub_one_lt hslots _) hcov

theorem unsafe_transfer (h : Exposed t) {sqe : Sqe} (hc : t.callback = .transfer sqe) :
    t.Unsafe := by
  obtain ⟨buf, hbuf⟩ := dataDma_state t.dev t.mem sqe (t.bus .ok sqe).outcome
  have hstep : teardownStep t (.device .ok sqe) = some { t with
      dev := { t.dev with devBuf := buf }
      callback := .writeCqe (dataDma t.dev t.mem sqe (t.bus .ok sqe).outcome).2.2
      mem := (dataDma t.dev t.mem sqe (t.bus .ok sqe).outcome).2.1 } := by
    rw [teardownStep, hc, ← hbuf]
    rfl
  exact (unsafe_writeCqe (t := { t with
    dev := { t.dev with devBuf := buf }
    callback := .writeCqe _
    mem := _ }) { h with } rfl).of_step hstep

theorem unsafe_loop (h : Exposed t) {didWork : Bool} (hc : t.callback = .loop didWork)
    (hne : t.dev.sqHead ≠ t.dev.sqTail) : t.Unsafe := by
  have hgo : ¬ (t.dev.sqHead = t.dev.sqTail ∨ t.dev.cqFull = true) := by
    rw [h.room]
    simpa using hne
  have hstep : ∃ sqe, teardownStep t (.device .ok ⟨0, 0, 0, 0⟩) =
      some { t with callback := .transfer sqe } := by
    rw [teardownStep, hc, callbackStep, if_neg hgo]
    exact ⟨_, rfl⟩
  obtain ⟨sqe, hstep⟩ := hstep
  exact (unsafe_transfer (t := { t with callback := .transfer sqe }) { h with } rfl).of_step hstep

theorem unsafe_advance (h : Exposed t) {cqe : Cqe} (hc : t.callback = .advance cqe)
    (hne : t.dev.sqHead + 1 ≠ t.dev.sqTail) : t.Unsafe := by
  have hstep : teardownStep t (.device .ok ⟨0, 0, 0, 0⟩) = some { t with
      dev := { t.dev with sqHead := t.dev.sqHead + 1, cqTail := t.dev.cqTail + 1 }
      callback := .loop true } := by
    rw [teardownStep, hc]
    rfl
  exact (unsafe_loop (t := { t with
    dev := { t.dev with sqHead := t.dev.sqHead + 1, cqTail := t.dev.cqTail + 1 }
    callback := .loop true })
    { h with room := (cqFull_advance t.dev).trans h.room } rfl hne).of_step hstep

theorem unsafe_idle (h : Exposed t) (hc : t.callback = .idle) (harmed : t.dev.timerArmed = true)
    (hne : t.dev.sqHead ≠ t.dev.sqTail) : t.Unsafe := by
  have hstep : teardownStep t .timer = some { t with
      dev := { t.dev with timerArmed := false }
      callback := .loop false } := by
    rw [teardownStep, hc, timerFire, if_pos harmed]
    rfl
  exact (unsafe_loop (t := { t with
    dev := { t.dev with timerArmed := false }
    callback := .loop false }) { h with } rfl hne).of_step hstep

/-- A device that is not settled can get as far as writing to the freed ring. -/
theorem unsafe_of_not_settled (h : Exposed t) (hs : ¬ Settled t.dev t.callback) : t.Unsafe := by
  have hstops : ¬ t.dev.Stops → t.dev.sqHead ≠ t.dev.sqTail := fun hns heq => hns (Or.inl heq)
  cases hc : t.callback with
  | idle =>
      rw [hc, Settled, Classical.not_imp] at hs
      exact h.unsafe_idle hc hs.1 (hstops hs.2)
  | loop didWork =>
      rw [hc] at hs
      exact h.unsafe_loop hc (hstops hs)
  | transfer sqe => exact h.unsafe_transfer hc
  | writeCqe cqe => exact h.unsafe_writeCqe hc
  | advance cqe =>
      rw [hc] at hs
      exact h.unsafe_advance hc fun heq => hs (Or.inl heq)

end Exposed

/-! ### Destroying an engine after a run -/

/-- The device takes an SQE in hand only when its test finds room. -/
def World.Roomed (w : World) : Prop :=
  match w.callback with
  | .transfer _ | .writeCqe _ | .advance _ => w.dev.cqFull = false
  | .idle | .loop _ => True

theorem roomed_step {w w' : World} {a : Action} (h : w.Roomed) (hs : step w a = some w') :
    w'.Roomed := by
  unfold World.Roomed at h ⊢
  cases move_of_step hs with
  | enter | host => exact h
  | driver w' hm => cases hm <;> exact h
  | timer hc harmed => trivial
  | device r w' hm =>
      cases hm with
      | stop didWork hc htest => trivial
      | fetch didWork hc hne hroom => exact hroom
      | transfer sqe buf m hc hm => rw [hc] at h; exact h
      | writeCqe cqe hc => rw [hc] at h; exact h
      | advance cqe hc => trivial

theorem World.Roomed.room {w : World} (h : w.Roomed) (hs : ¬ Settled w.dev w.callback) :
    w.dev.cqFull = false := by
  unfold World.Roomed at h
  cases hc : w.callback <;> rw [hc] at h hs <;> simp_all [Settled, DmaEngineState.Stops]

/-- Destroying an engine whose device is not settled is not safe. -/
theorem destroy_unsafe {e : Engine} {w : World} (hrings : OnRings e w)
    (hroom : w.dev.cqFull = false) (hs : ¬ Settled w.dev w.callback) : w.destroy.Unsafe := by
  -- the four statements up to `pci_clear_master`
  have hfour : exec teardownStep w.destroy [.destroy, .destroy, .destroy, .destroy] =
      some { w.destroy with
        next := .clearMaster
        dev := { w.dev with msiEnabled := false }
        sqFreed := true
        cqFreed := true } := rfl
  have hexposed : Exposed { w.destroy with
      next := .clearMaster
      dev := { w.dev with msiEnabled := false }
      sqFreed := true
      cqFreed := true } :=
    ⟨rfl, rfl, hrings.devCq.trans hrings.cq.symm, hrings.devCqDepth.trans hrings.cqDepth.symm,
      hroom⟩
  have hunsettled : ¬ Settled { w.dev with msiEnabled := false } w.callback := by
    cases hc : w.callback <;> rw [hc] at hs <;> exact hs
  obtain ⟨bs, hbs⟩ := hexposed.unsafe_of_not_settled hunsettled
  exact ⟨[.destroy, .destroy, .destroy, .destroy] ++ bs, fun hsafe => hbs (hsafe.after hfour)⟩

variable {d : DmaEngineState} {m : Mem} {sqDma cqDma : Addr} {msi : Bool}
  {sqDepth cqDepth : Word}

/-- **When the rings may be freed.** After any run of an engine, no interleaving of
`engine_destroy` with the device has it access a freed ring if and only if the
device is settled when `engine_destroy` is entered. -/
theorem destroy_safe_iff_settled {as : List Action} {w : World}
    (hw : exec step (.create d m sqDma cqDma msi sqDepth cqDepth) as = some w) :
    (∀ bs, Steps teardownStep NoFreedDma w.destroy bs) ↔ Settled w.dev w.callback := by
  have hrings : OnRings _ w := exec_invariant (fun _ _ _ => onRings_step) hw
    (onRings_create d m sqDma cqDma msi sqDepth cqDepth)
  have hroomed : w.Roomed := exec_invariant (fun _ _ _ => roomed_step) hw trivial
  constructor
  · intro hsafe
    by_contra hs
    obtain ⟨bs, hbs⟩ := destroy_unsafe hrings (hroomed.room hs) hs
    exact hbs (hsafe bs)
  · intro hsettled bs cs a t t' hcs ht hta
    have ht' : Settled t.dev t.callback :=
      exec_invariant (I := fun t => Settled t.dev t.callback)
        (fun _ _ _ => settled_teardownStep) ht hsettled
    cases a with
    | device r stack => exact not_touchesFreed_of_settled ht'
    | _ => trivial

theorem destroy_safe_iff_settled_probeCalls :
    ∃ w, exec step (.create .fresh (fun _ => 0) 0x1000 0x2000 true 2 1) probeCalls = some w ∧
      ∀ bs, Steps teardownStep NoFreedDma w.destroy bs := by
  have hs : exec step (.create .fresh (fun _ => 0) 0x1000 0x2000 true 2 1) probeCalls =
      some _ := rfl
  refine ⟨_, hs, (destroy_safe_iff_settled hs).mpr ?_⟩
  intro harmed
  cases harmed

/-- Destroy the engine while a doorbelled submission is still to be processed,
and let the timer fire between the two frees. -/
def freeThenFetch : List TeardownAction :=
  [.destroy, .destroy, .destroy, .timer, .device .ok ⟨0, 0, 0, 0⟩]

/-- The device fetches from the freed submission ring. -/
theorem freed_ring_fetched :
    ∃ w, exec step (.create .fresh (fun _ => 0) 0x1000 0x2000 true 2 2)
        (submitCall txSqe ++ [.doorbell, .driver]) = some w ∧ w.driver.AtRest ∧
      ∃ t, exec teardownStep w.destroy freeThenFetch = some t ∧
        ¬ Steps teardownStep NoFreedDma w.destroy freeThenFetch := by
  refine ⟨_, rfl, trivial, _, rfl, fun hsteps => ?_⟩
  refine hsteps [.destroy, .destroy, .destroy, .timer] (.device .ok ⟨0, 0, 0, 0⟩) _ _
    (List.prefix_refl _) rfl rfl ⟨rfl, rfl, 0x1000, by decide, by decide⟩

end SystemsPrep.Dma
