import SystemsPrep.Base.Bytes

/-!
The device of `vm/dma_engine.c`.

The register file and the descriptor formats are shared with the driver. The
timer callback `dma_engine_process` is taken apart at the points where the driver
may look at or change something the callback uses: the fetch of a submission, the
data transfer, the write of the completion, the advance of the two indices.
-/

namespace SystemsPrep.Dma

open Base

/-- `uint32_t`. -/
abbrev Word := BitVec 32

/-! ### Descriptors -/

/-- `DevSqe` and `sqe_t`, 24 bytes packed. -/
structure Sqe where
  cookie : BitVec 64
  bufAddr : Addr
  len : Word
  op : Word
  deriving DecidableEq

/-- `DevCqe` and `cqe_t`, 16 bytes packed. The status is an `int32_t`. -/
structure Cqe where
  cookie : BitVec 64
  status : Word
  bytesXferred : Word
  deriving DecidableEq

def opTx : Word := 1
def opRx : Word := 2

def devBufSize : Word := 4096

def dmaError : Word := -1
def unknownOp : Word := -22

def sqeLayout : Layout Sqe where
  size := 24
  bytes s := toLE 8 s.cookie.toNat ++ (toLE 8 s.bufAddr.toNat ++
    (toLE 4 s.len.toNat ++ toLE 4 s.op.toNat))
  ofBytes bs :=
    { cookie := BitVec.ofNat 64 (ofLE (bs.take 8))
      bufAddr := BitVec.ofNat 64 (ofLE ((bs.drop 8).take 8))
      len := BitVec.ofNat 32 (ofLE (((bs.drop 8).drop 8).take 4))
      op := BitVec.ofNat 32 (ofLE (((bs.drop 8).drop 8).drop 4)) }
  length_bytes s := by simp
  ofBytes_bytes s := by
    simp only [List.take_left' (length_toLE _ _), List.drop_left' (length_toLE _ _)]
    rw [ofNat_ofLE_toLE rfl, ofNat_ofLE_toLE rfl,
      ofNat_ofLE_toLE rfl, ofNat_ofLE_toLE rfl]

def cqeLayout : Layout Cqe where
  size := 16
  bytes c := toLE 8 c.cookie.toNat ++ (toLE 4 c.status.toNat ++ toLE 4 c.bytesXferred.toNat)
  ofBytes bs :=
    { cookie := BitVec.ofNat 64 (ofLE (bs.take 8))
      status := BitVec.ofNat 32 (ofLE ((bs.drop 8).take 4))
      bytesXferred := BitVec.ofNat 32 (ofLE ((bs.drop 8).drop 4)) }
  length_bytes c := by simp
  ofBytes_bytes c := by
    simp only [List.take_left' (length_toLE _ _), List.drop_left' (length_toLE _ _)]
    rw [ofNat_ofLE_toLE rfl, ofNat_ofLE_toLE rfl,
      ofNat_ofLE_toLE rfl]

/-- The address of a ring slot, `base + (uint64_t)idx * sizeof(...)`. -/
def ringAddr (base : Addr) (idx : Word) (size : Addr) : Addr := base + idx.setWidth 64 * size

/-! ### Device state -/

/-- `struct DmaEngineState`. `timerArmed` says whether `dma_timer` is pending;
the last three are the interrupt lines of the PCI device. -/
structure DmaEngineState where
  sqBase : Addr
  cqBase : Addr
  sqDepth : Word
  cqDepth : Word
  sqHead : Word
  sqTail : Word
  cqTail : Word
  irqStatus : Word
  timerArmed : Bool
  devBuf : ℕ → Byte
  msiEnabled : Bool
  msiNotified : ℕ
  irqLevel : Bool

def DmaEngineState.fresh : DmaEngineState where
  sqBase := 0
  cqBase := 0
  sqDepth := 0
  cqDepth := 0
  sqHead := 0
  sqTail := 0
  cqTail := 0
  irqStatus := 0
  timerArmed := false
  devBuf _ := 0
  msiEnabled := false
  msiNotified := 0
  irqLevel := false

def irqCqReady : Word := 1

def dmaEngineRaiseIrq (s : DmaEngineState) : DmaEngineState :=
  let s := { s with irqStatus := s.irqStatus ||| irqCqReady }
  if s.msiEnabled then { s with msiNotified := s.msiNotified + 1 } else { s with irqLevel := true }

def dmaEngineLowerIrq (s : DmaEngineState) : DmaEngineState :=
  let s := { s with irqStatus := 0 }
  if s.msiEnabled then s else { s with irqLevel := false }

/-! ### Registers -/

inductive Reg
  | deviceId
  | deviceStatus
  | sqBaseLo
  | sqBaseHi
  | cqBaseLo
  | cqBaseHi
  | sqDepth
  | cqDepth
  | sqDoorbell
  | irqStatus
  | irqAck
  | sqHead
  | cqTail
  deriving DecidableEq

def Reg.offset : Reg → ℕ
  | .deviceId => 0x00
  | .deviceStatus => 0x04
  | .sqBaseLo => 0x08
  | .sqBaseHi => 0x0C
  | .cqBaseLo => 0x10
  | .cqBaseHi => 0x14
  | .sqDepth => 0x18
  | .cqDepth => 0x1C
  | .sqDoorbell => 0x20
  | .irqStatus => 0x24
  | .irqAck => 0x28
  | .sqHead => 0x2C
  | .cqTail => 0x30

def Reg.ofOffset (addr : ℕ) : Option Reg :=
  [Reg.deviceId, .deviceStatus, .sqBaseLo, .sqBaseHi, .cqBaseLo, .cqBaseHi, .sqDepth, .cqDepth,
    .sqDoorbell, .irqStatus, .irqAck, .sqHead, .cqTail].find? fun r => r.offset = addr

@[simp] theorem Reg.ofOffset_offset (r : Reg) : Reg.ofOffset r.offset = some r := by
  cases r <;> rfl

def deviceIdMagic : Word := 0xDEA10001

/-- A 4-byte read. Unknown and write-only offsets read as zero. -/
def dmaEngineMmioRead (s : DmaEngineState) (addr : ℕ) : Word :=
  match Reg.ofOffset addr with
  | some .deviceId => deviceIdMagic
  | some .deviceStatus =>
      if s.sqBase ≠ 0 ∧ s.cqBase ≠ 0 ∧ s.sqDepth ≠ 0 ∧ s.cqDepth ≠ 0 then 1 else 0
  | some .sqBaseLo => s.sqBase.setWidth 32
  | some .sqBaseHi => (s.sqBase >>> 32).setWidth 32
  | some .cqBaseLo => s.cqBase.setWidth 32
  | some .cqBaseHi => (s.cqBase >>> 32).setWidth 32
  | some .sqDepth => s.sqDepth
  | some .cqDepth => s.cqDepth
  | some .irqStatus => s.irqStatus
  | some .sqHead => s.sqHead
  | some .cqTail => s.cqTail
  | some .sqDoorbell | some .irqAck | none => 0

def setLow (base : Addr) (val : BitVec 64) : Addr :=
  (base &&& 0xFFFFFFFF00000000#64) ||| (val.setWidth 32).setWidth 64

def setHigh (base : Addr) (val : BitVec 64) : Addr :=
  (base &&& 0x00000000FFFFFFFF#64) ||| (val <<< 32)

/-- A 4-byte write. A doorbell arms the timer. -/
def dmaEngineMmioWrite (s : DmaEngineState) (addr : ℕ) (val : BitVec 64) : DmaEngineState :=
  match Reg.ofOffset addr with
  | some .sqBaseLo => { s with sqBase := setLow s.sqBase val }
  | some .sqBaseHi => { s with sqBase := setHigh s.sqBase val }
  | some .cqBaseLo => { s with cqBase := setLow s.cqBase val }
  | some .cqBaseHi => { s with cqBase := setHigh s.cqBase val }
  | some .sqDepth => { s with sqDepth := val.setWidth 32 }
  | some .cqDepth => { s with cqDepth := val.setWidth 32 }
  | some .sqDoorbell => { s with sqTail := val.setWidth 32, timerArmed := true }
  | some .irqAck => dmaEngineLowerIrq s
  | _ => s

/-! ### The timer callback -/

/-- How a data transfer ends. One that fails may have changed any of the bytes
it was to change. -/
inductive DmaResult
  | ok
  | error (landed : ℕ → Option Byte)

def DmaResult.failed : DmaResult → Bool
  | .ok => false
  | .error _ => true

/-- What the callback meets on the bus: whether the device may master it, how
the data transfer of this step ends, and what is on the stack where an SQE that
cannot be read would go. -/
structure Bus where
  master : Bool
  result : DmaResult
  stack : Sqe

/-- The next action of `dma_engine_process`. -/
inductive Callback
  | idle
  | loop (didWork : Bool)
  | transfer (sqe : Sqe)
  | writeCqe (cqe : Cqe)
  | advance (cqe : Cqe)
  deriving DecidableEq

namespace DmaEngineState

/-- `cq_tail - sq_head >= cq_depth`. -/
def cqFull (s : DmaEngineState) : Bool := s.cqDepth ≤ s.cqTail - s.sqHead

def sqeAddr (s : DmaEngineState) : Addr := ringAddr s.sqBase (s.sqHead &&& (s.sqDepth - 1)) 24

def cqeAddr (s : DmaEngineState) : Addr := ringAddr s.cqBase (s.cqTail &&& (s.cqDepth - 1)) 16

end DmaEngineState

def clampLen (len : Word) : Word := if devBufSize < len then devBufSize else len

def Bus.outcome (b : Bus) : DmaResult := if b.master then b.result else .error fun _ => none

/-- The device buffer after a `pci_dma_read` into it. -/
def dmaReadBuf (m : Mem) (addr : Addr) (len : Word) (buf : ℕ → Byte) : DmaResult → ℕ → Byte
  | .ok, i => if i < len.toNat then m (addr + BitVec.ofNat 64 i) else buf i
  | .error landed, i => if i < len.toNat then (landed i).getD (buf i) else buf i

/-- Guest memory after a `pci_dma_write` of the device buffer. -/
def dmaWriteBuf (m : Mem) (addr : Addr) (len : Word) (buf : ℕ → Byte) : DmaResult → Mem
  | .ok => m.patch addr len.toNat fun i => some (buf i)
  | .error landed => m.patch addr len.toNat landed

/-- Step 2 of the loop body: the data transfer, and the CQE it leads to. -/
def dataDma (s : DmaEngineState) (m : Mem) (sqe : Sqe) (r : DmaResult) :
    DmaEngineState × Mem × Cqe :=
  let len := clampLen sqe.len
  let cqe (status : Word) : Cqe :=
    { cookie := sqe.cookie, status := status, bytesXferred := if status = 0 then len else 0 }
  if sqe.op = opTx then
    ({ s with devBuf := dmaReadBuf m sqe.bufAddr len s.devBuf r }, m,
      cqe (if r.failed then dmaError else 0))
  else if sqe.op = opRx then
    (s, dmaWriteBuf m sqe.bufAddr len s.devBuf r, cqe (if r.failed then dmaError else 0))
  else (s, m, cqe unknownOp)

/-- The next step of the callback, if it is running. -/
def callbackStep (b : Bus) (s : DmaEngineState) (c : Callback) (m : Mem) :
    Option (DmaEngineState × Callback × Mem) :=
  match c with
  | .idle => none
  | .loop didWork =>
      if s.sqHead = s.sqTail ∨ s.cqFull then
        some (if didWork then dmaEngineRaiseIrq s else s, .idle, m)
      else
        some (s,
          .transfer (if b.master then sqeLayout.ofBytes (m.read s.sqeAddr 24) else b.stack), m)
  | .transfer sqe =>
      let (s, m, cqe) := dataDma s m sqe b.outcome
      some (s, .writeCqe cqe, m)
  | .writeCqe cqe =>
      some (s, .advance cqe, if b.master then m.write s.cqeAddr (cqeLayout.bytes cqe) else m)
  | .advance _ => some ({ s with sqHead := s.sqHead + 1, cqTail := s.cqTail + 1 }, .loop true, m)

def timerFire (s : DmaEngineState) (c : Callback) : Option (DmaEngineState × Callback) :=
  match c with
  | .idle => if s.timerArmed then some ({ s with timerArmed := false }, .loop false) else none
  | _ => none

end SystemsPrep.Dma
