import SystemsPrep.Base.Counter
import SystemsPrep.Dma.Interleaving

/-!
What the steps of the device and of the driver do.

A step of the callback is one of five moves. A completion is determined by the
submission and by whether its data transfer failed, and a transfer changes the
device buffer and memory in the data buffer only.
-/

namespace SystemsPrep.Dma

open Base

/-! ### Ring addresses -/

theorem ringAddr_eq (base : Addr) (idx : Word) (size : ℕ) :
    ringAddr base idx (BitVec.ofNat 64 size) = base + BitVec.ofNat 64 (idx.toNat * size) := by
  have hidx : idx.setWidth 64 = BitVec.ofNat 64 idx.toNat := by
    apply BitVec.eq_of_toNat_eq
    simp
  rw [ringAddr, hidx, BitVec.ofNat_mul]

theorem sqSlot_eq (e : Engine) (idx : Word) :
    e.sqSlot idx = sqeLayout.slotAddr e.sq (idx &&& (e.sqDepth - 1)).toNat :=
  ringAddr_eq e.sq _ 24

theorem cqSlot_eq (e : Engine) (idx : Word) :
    e.cqSlot idx = cqeLayout.slotAddr e.cq (idx &&& (e.cqDepth - 1)).toNat :=
  ringAddr_eq e.cq _ 16

theorem sqeAddr_eq (s : DmaEngineState) :
    s.sqeAddr = sqeLayout.slotAddr s.sqBase (s.sqHead &&& (s.sqDepth - 1)).toNat :=
  ringAddr_eq s.sqBase _ 24

theorem cqeAddr_eq (s : DmaEngineState) :
    s.cqeAddr = cqeLayout.slotAddr s.cqBase (s.cqTail &&& (s.cqDepth - 1)).toNat :=
  ringAddr_eq s.cqBase _ 16

/-- Masking with a depth less one stays below it, whether or not it is a power
of two. -/
theorem toNat_and_sub_one_lt {depth : Word} (h : depth ≠ 0) (idx : Word) :
    (idx &&& (depth - 1)).toNat < depth.toNat := by
  have hpos := BitVec.toNat_pos_of_ne_zero h
  rw [BitVec.toNat_and, toNat_sub_one hpos.ne']
  have := Nat.and_le_right (n := idx.toNat) (m := depth.toNat - 1)
  omega

/-! ### The test for room in the completion ring -/

theorem cqFull_of_eq {s : DmaEngineState} (heq : s.cqTail = s.sqHead) (hslots : s.cqDepth ≠ 0) :
    s.cqFull = false := by
  have hpos := BitVec.toNat_pos_of_ne_zero hslots
  rw [DmaEngineState.cqFull, heq, BitVec.sub_self]
  exact decide_eq_false (Nat.not_le.mpr hpos)

theorem cqDepth_ne_zero {s : DmaEngineState} (h : s.cqFull = false) : s.cqDepth ≠ 0 := by
  intro hzero
  rw [DmaEngineState.cqFull, hzero, decide_eq_false_iff_not] at h
  exact h (BitVec.le_def.mpr (Nat.zero_le _))

/-! ### The data transfer -/

/-- The completion of a submission, as the caller may expect it. -/
def completion (sqe : Sqe) (failed : Bool) : Cqe :=
  if sqe.op = opTx ∨ sqe.op = opRx then
    if failed then { cookie := sqe.cookie, status := dmaError, bytesXferred := 0 }
    else
      { cookie := sqe.cookie
        status := 0
        bytesXferred := BitVec.ofNat 32 (min sqe.len.toNat 4096) }
  else { cookie := sqe.cookie, status := unknownOp, bytesXferred := 0 }

theorem clampLen_eq (len : Word) : clampLen len = BitVec.ofNat 32 (min len.toNat 4096) := by
  apply BitVec.eq_of_toNat_eq
  have := len.isLt
  have hbuf : devBufSize.toNat = 4096 := rfl
  rw [clampLen, BitVec.toNat_ofNat, Nat.mod_eq_of_lt (by omega)]
  by_cases h : devBufSize < len
  · rw [if_pos h]
    rw [BitVec.lt_def] at h
    omega
  · rw [if_neg h]
    rw [BitVec.lt_def] at h
    omega

theorem dataDma_cqe (s : DmaEngineState) (m : Mem) (sqe : Sqe) (r : DmaResult) :
    (dataDma s m sqe r).2.2 = completion sqe r.failed := by
  have hunknown : ¬ unknownOp = 0#32 := by decide
  have herror : ¬ dmaError = 0#32 := by decide
  unfold dataDma completion
  by_cases htx : sqe.op = opTx
  · cases hr : r.failed <;> simp [htx, herror, clampLen_eq]
  · by_cases hrx : sqe.op = opRx
    · cases hr : r.failed <;> simp [hrx, herror, clampLen_eq, show opRx ≠ opTx by decide]
    · simp [htx, hrx, hunknown]

theorem dmaWriteBuf_of_not_inBuffer (m : Mem) (buf : ℕ → Byte) (r : DmaResult) {sqe : Sqe}
    {a : Addr} (ha : ¬ sqe.InBuffer a) :
    dmaWriteBuf m sqe.bufAddr (clampLen sqe.len) buf r a = m a := by
  cases r with
  | ok => exact Mem.patch_of_not_covers (f := fun i => some (buf i)) ha
  | error landed => exact Mem.patch_of_not_covers ha

/-- A transfer writes to memory in the data buffer only. -/
theorem dataDma_mem (s : DmaEngineState) (m : Mem) (sqe : Sqe) (r : DmaResult) {a : Addr}
    (ha : ¬ sqe.InBuffer a) : (dataDma s m sqe r).2.1 a = m a := by
  unfold dataDma
  by_cases htx : sqe.op = opTx
  · simp only [htx, if_true]
  · by_cases hrx : sqe.op = opRx
    · simp only [hrx, if_true, if_false, show opRx ≠ opTx by decide]
      exact dmaWriteBuf_of_not_inBuffer m s.devBuf r ha
    · simp only [htx, hrx, if_false]

theorem dataDma_state (s : DmaEngineState) (m : Mem) (sqe : Sqe) (r : DmaResult) :
    ∃ buf, (dataDma s m sqe r).1 = { s with devBuf := buf } := by
  unfold dataDma
  by_cases htx : sqe.op = opTx
  · simp only [htx, if_true]
    exact ⟨_, rfl⟩
  · by_cases hrx : sqe.op = opRx
    · simp only [hrx, if_true, if_false, show opRx ≠ opTx by decide]
      exact ⟨s.devBuf, rfl⟩
    · simp only [htx, hrx, if_false]
      exact ⟨s.devBuf, rfl⟩

/-! ### The moves of the device -/

def World.nextSqe (w : World) : Sqe := sqeLayout.ofBytes (w.mem.read w.dev.sqeAddr 24)

/-- A step of the callback. -/
inductive DeviceMove (r : DmaResult) (w : World) : World → Prop
  | stop (didWork : Bool) (hc : w.callback = .loop didWork)
      (h : w.dev.sqHead = w.dev.sqTail ∨ w.dev.cqFull = true) :
      DeviceMove r w { w with
        dev := if didWork then dmaEngineRaiseIrq w.dev else w.dev
        callback := .idle }
  | fetch (didWork : Bool) (hc : w.callback = .loop didWork) (h : w.dev.sqHead ≠ w.dev.sqTail)
      (hroom : w.dev.cqFull = false) :
      DeviceMove r w { w with
        callback := .transfer w.nextSqe
        fetched := w.fetched ++ [w.nextSqe] }
  | transfer (sqe : Sqe) (buf : ℕ → Byte) (m : Mem) (hc : w.callback = .transfer sqe)
      (hm : ∀ a, ¬ sqe.InBuffer a → m a = w.mem a) :
      DeviceMove r w { w with
        dev := { w.dev with devBuf := buf }
        callback := .writeCqe (completion sqe r.failed)
        mem := m
        failures := w.failures ++ [r.failed] }
  | writeCqe (cqe : Cqe) (hc : w.callback = .writeCqe cqe) :
      DeviceMove r w { w with
        callback := .advance cqe
        mem := w.mem.write w.dev.cqeAddr (cqeLayout.bytes cqe) }
  | advance (cqe : Cqe) (hc : w.callback = .advance cqe) :
      DeviceMove r w { w with
        dev := { w.dev with sqHead := w.dev.sqHead + 1, cqTail := w.dev.cqTail + 1 }
        callback := .loop true
        posted := w.posted ++ [cqe] }

theorem deviceMove_of_deviceStep {w w' : World} {r : DmaResult} (h : deviceStep w r = some w') :
    DeviceMove r w w' := by
  unfold deviceStep at h
  obtain ⟨⟨dev, callback, mem⟩, hstep, rfl⟩ := Option.map_eq_some_iff.mp h
  unfold callbackStep at hstep
  split at hstep <;> rename_i hc
  · cases hstep
  · rename_i didWork
    split at hstep <;> rename_i htest <;> cases hstep
    · have hmove := DeviceMove.stop (r := r) (w := w) didWork hc htest
      simpa only [hc, Callback.fetching, Callback.transferring, Callback.posting,
        List.append_nil] using hmove
    · rw [not_or, Bool.not_eq_true] at htest
      have hmove := DeviceMove.fetch (r := r) (w := w) didWork hc htest.1 htest.2
      simpa only [World.nextSqe, hc, Callback.fetching, Callback.transferring, Callback.posting,
        List.append_nil, Bus.granted, if_true] using hmove
  · rename_i sqe
    simp only [Option.some.injEq, Prod.mk.injEq] at hstep
    obtain ⟨rfl, rfl, rfl⟩ := hstep
    obtain ⟨buf, hbuf⟩ := dataDma_state w.dev w.mem sqe r
    have houtcome : (Bus.granted r).outcome = r := if_pos rfl
    have hmove := DeviceMove.transfer (r := r) (w := w) sqe buf (dataDma w.dev w.mem sqe r).2.1 hc
      fun a ha => dataDma_mem w.dev w.mem sqe r ha
    rw [← hbuf, ← dataDma_cqe w.dev w.mem] at hmove
    simpa only [houtcome, hc, Callback.fetching, Callback.transferring, Callback.posting,
      List.append_nil] using hmove
  · rename_i cqe
    cases hstep
    have hmove := DeviceMove.writeCqe (r := r) (w := w) cqe hc
    simpa only [hc, Callback.fetching, Callback.transferring, Callback.posting,
      List.append_nil, Bus.granted, if_true] using hmove
  · rename_i cqe
    cases hstep
    have hmove := DeviceMove.advance (r := r) (w := w) cqe hc
    simpa only [hc, Callback.fetching, Callback.transferring, Callback.posting,
      List.append_nil] using hmove

theorem raiseIrq_eq (didWork : Bool) (s : DmaEngineState) :
    ∃ status notified level, (if didWork then dmaEngineRaiseIrq s else s) =
      { s with irqStatus := status, msiNotified := notified, irqLevel := level } := by
  cases didWork
  · exact ⟨s.irqStatus, s.msiNotified, s.irqLevel, rfl⟩
  · rw [if_pos rfl, dmaEngineRaiseIrq]
    split
    · exact ⟨_, _, s.irqLevel, rfl⟩
    · exact ⟨_, s.msiNotified, _, rfl⟩

theorem timerStep_eq_some {w w' : World} (h : timerStep w = some w') :
    w.callback = .idle ∧ w.dev.timerArmed = true ∧
      w' = { w with dev := { w.dev with timerArmed := false }, callback := .loop false } := by
  unfold timerStep timerFire at h
  split at h
  · rename_i hc
    split at h <;> rename_i harmed
    · cases h
      exact ⟨hc, harmed, rfl⟩
    · cases h
  · cases h

theorem enter_eq_some {w w' : World} {d : Driver} (h : enter w d = some w') :
    w' = { w with driver := d } := by
  unfold enter at h
  split at h <;> cases h <;> rfl

theorem outside_of_enter {w w' : World} {d : Driver} (h : enter w d = some w') :
    w.driver.outside = true := by
  unfold enter at h
  split at h <;> rename_i hd
  · rw [hd]
    rfl
  · rw [hd]
    rfl
  · cases h

/-! ### The moves of the driver -/

theorem iowrite32_doorbell (s : DmaEngineState) (tail : Word) :
    iowrite32 tail s Reg.sqDoorbell.offset = { s with sqTail := tail, timerArmed := true } := by
  change { s with sqTail := (tail.setWidth 64).setWidth 32, timerArmed := true } = _
  rw [BitVec.setWidth_setWidth_of_le _ (by decide), BitVec.setWidth_eq]

/-- A step of the driver's current call. -/
inductive DriverMove (w : World) : World → Prop
  | readHead (sqe : Sqe) (hd : w.driver = .readHead sqe) :
      DriverMove w { w with driver := w.eng.submitCheck sqe w.dev.sqHead }
  | writeSlot (sqe : Sqe) (tail : Word) (hd : w.driver = .writeSlot sqe tail) :
      DriverMove w { w with
        mem := w.mem.write (w.eng.sqSlot tail) (sqeLayout.bytes sqe)
        driver := .advanceTail sqe }
  | advanceTail (sqe : Sqe) (hd : w.driver = .advanceTail sqe) :
      DriverMove w { w with
        eng := { w.eng with sqTail := w.eng.sqTail + 1 }
        accepted := w.accepted ++ [sqe]
        driver := .returned (.int 0) }
  | writeDoorbell (hd : w.driver = .writeDoorbell) :
      DriverMove w { w with
        dev := { w.dev with sqTail := w.eng.sqTail, timerArmed := true }
        announced := w.accepted.length
        driver := .returned .void }
  | readTail (max : BitVec 64) (hd : w.driver = .readTail max) :
      DriverMove w { w with driver := w.eng.drainCheck max w.dev.cqTail }
  | copy (cqHead n : Word) (out : List Cqe) (hd : w.driver = .copyOut cqHead n out)
      (hn : out.length < n.toNat) :
      DriverMove w { w with
        driver := .copyOut cqHead n (out ++ [cqeLayout.ofBytes
          (w.mem.read (w.eng.cqSlot (cqHead + BitVec.ofNat 32 out.length)) 16)]) }
  | finish (cqHead n : Word) (out : List Cqe) (hd : w.driver = .copyOut cqHead n out)
      (hn : n.toNat ≤ out.length) :
      DriverMove w { w with
        eng := { w.eng with cqHead := cqHead + n }
        drained := w.drained ++ out
        driver := .returned (.size n out) }

theorem driverMove_of_driverStep {w w' : World} (h : driverStep w = some w') :
    DriverMove w w' := by
  unfold driverStep at h
  split at h <;> rename_i hd
  · cases h
  · cases h
  · cases h
    exact .readHead _ hd
  · cases h
    exact .writeSlot _ _ hd
  · cases h
    exact .advanceTail _ hd
  · cases h
    rw [iowrite32_doorbell]
    exact .writeDoorbell hd
  · cases h
    exact .readTail _ hd
  · split at h <;> rename_i hn <;> cases h
    · exact .copy _ _ _ hd hn
    · exact .finish _ _ _ hd (Nat.not_lt.mp hn)

/-! ### The moves of the whole system -/

def Action.entry : Action → Option Driver
  | .submit sqe => some (.readHead sqe)
  | .doorbell => some .writeDoorbell
  | .drain max => some (.readTail max)
  | .driver | .timer | .device _ | .host _ _ => none

/-- A step of the system, one constructor for each kind of action. -/
inductive Move (w : World) : Action → World → Prop
  | enter (a : Action) (d : Driver) (hentry : a.entry = some d)
      (hout : w.driver.outside = true) : Move w a { w with driver := d }
  | driver (w' : World) (hm : DriverMove w w') : Move w .driver w'
  | timer (hc : w.callback = .idle) (harmed : w.dev.timerArmed = true) :
      Move w .timer
        { w with dev := { w.dev with timerArmed := false }, callback := .loop false }
  | device (r : DmaResult) (w' : World) (hm : DeviceMove r w w') : Move w (.device r) w'
  | host (x : Addr) (b : Byte) : Move w (.host x b) { w with mem := Function.update w.mem x b }

theorem move_of_enter {w w' : World} {a : Action} {d : Driver} (hentry : a.entry = some d)
    (h : enter w d = some w') : Move w a w' := by
  obtain rfl := enter_eq_some h
  exact .enter a d hentry (outside_of_enter h)

theorem move_of_step {w w' : World} {a : Action} (h : step w a = some w') : Move w a w' := by
  cases a with
  | submit sqe => exact move_of_enter rfl h
  | doorbell => exact move_of_enter rfl h
  | drain max => exact move_of_enter rfl h
  | driver => exact .driver w' (driverMove_of_driverStep h)
  | timer =>
      obtain ⟨hc, harmed, rfl⟩ := timerStep_eq_some h
      exact .timer hc harmed
  | device r => exact .device r w' (deviceMove_of_deviceStep h)
  | host x b =>
      cases h
      exact .host x b

/-! ### The rings do not move -/

/-- The driver and the device of the world work on the rings of `e`. -/
structure OnRings (e : Engine) (w : World) : Prop where
  sq : w.eng.sq = e.sq
  sqDepth : w.eng.sqDepth = e.sqDepth
  cq : w.eng.cq = e.cq
  cqDepth : w.eng.cqDepth = e.cqDepth
  devSq : w.dev.sqBase = e.sq
  devSqDepth : w.dev.sqDepth = e.sqDepth
  devCq : w.dev.cqBase = e.cq
  devCqDepth : w.dev.cqDepth = e.cqDepth

theorem onRings_create (d : DmaEngineState) (m : Mem) (sqDma cqDma : Addr) (msi : Bool)
    (sqDepth cqDepth : Word) :
    OnRings (engineCreate sqDma cqDma msi d sqDepth cqDepth).1
      (.create d m sqDma cqDma msi sqDepth cqDepth) := by
  have hdev : (World.create d m sqDma cqDma msi sqDepth cqDepth).dev =
      { d with sqBase := sqDma, cqBase := cqDma, sqDepth := sqDepth, cqDepth := cqDepth
               msiEnabled := msi } := engineCreate_device ..
  constructor
  case sq | sqDepth | cq | cqDepth => rfl
  case devSq | devSqDepth | devCq | devCqDepth => rw [hdev]; rfl

theorem onRings_driverMove {e : Engine} {w w' : World} (h : OnRings e w)
    (hm : DriverMove w w') : OnRings e w' := by
  cases hm <;> exact { h with }

theorem onRings_deviceMove {e : Engine} {w w' : World} {r : DmaResult} (h : OnRings e w)
    (hm : DeviceMove r w w') : OnRings e w' := by
  cases hm with
  | stop didWork hc htest =>
      obtain ⟨_, _, _, hirq⟩ := raiseIrq_eq didWork w.dev
      rw [hirq]
      exact { h with }
  | _ => exact { h with }

theorem onRings_step {e : Engine} {w w' : World} {a : Action} (h : OnRings e w)
    (hs : step w a = some w') : OnRings e w' := by
  cases move_of_step hs with
  | driver w' hm => exact onRings_driverMove h hm
  | device r w' hm => exact onRings_deviceMove h hm
  | enter | timer | host => exact { h with }

theorem OnRings.sqSlot_ofNat {e : Engine} {w : World} (h : OnRings e w)
    (hpow : e.sqDepth.toNat.isPowerOfTwo) (n : ℕ) :
    w.eng.sqSlot (BitVec.ofNat 32 n) = sqeLayout.slotAddr e.sq (n % e.sqDepth.toNat) := by
  rw [sqSlot_eq, h.sq, h.sqDepth, toNat_ofNat_and_sub_one hpow]

theorem OnRings.cqSlot_ofNat {e : Engine} {w : World} (h : OnRings e w)
    (hpow : e.cqDepth.toNat.isPowerOfTwo) (n : ℕ) :
    w.eng.cqSlot (BitVec.ofNat 32 n) = cqeLayout.slotAddr e.cq (n % e.cqDepth.toNat) := by
  rw [cqSlot_eq, h.cq, h.cqDepth, toNat_ofNat_and_sub_one hpow]

end SystemsPrep.Dma
