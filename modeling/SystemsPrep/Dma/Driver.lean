import SystemsPrep.Dma.Device

/-!
The driver of `nic.c`.

An engine holds its two ring indices and where its rings are. The rings are
identified by their DMA addresses, under which the processor's accesses reach the
same bytes. Creating an engine programs the ring registers of the device and
leaves its index registers alone.
-/

namespace SystemsPrep.Dma

open Base

structure Engine where
  sq : Addr
  sqDepth : Word
  sqTail : Word
  cq : Addr
  cqDepth : Word
  cqHead : Word

def eagain : Int := -11

def iowrite32 (val : Word) (s : DmaEngineState) (reg : ℕ) : DmaEngineState :=
  dmaEngineMmioWrite s reg (val.setWidth 64)

def ioread32 (s : DmaEngineState) (reg : ℕ) : Word := dmaEngineMmioRead s reg

/-- `mmio_write64`, the low half first. -/
def mmioWrite64 (s : DmaEngineState) (regLo : ℕ) (val : BitVec 64) : DmaEngineState :=
  iowrite32 ((val >>> 32).setWidth 32) (iowrite32 (val.setWidth 32) s regLo) (regLo + 4)

/-- `engine_create`, with the DMA addresses of the two rings it has allocated
and the kind of interrupt it was granted. -/
def engineCreate (sqDma cqDma : Addr) (msi : Bool) (s : DmaEngineState) (sqDepth cqDepth : Word) :
    Engine × DmaEngineState :=
  let s := mmioWrite64 s Reg.sqBaseLo.offset sqDma
  let s := mmioWrite64 s Reg.cqBaseLo.offset cqDma
  let s := iowrite32 sqDepth s Reg.sqDepth.offset
  let s := iowrite32 cqDepth s Reg.cqDepth.offset
  ({ sq := sqDma, sqDepth := sqDepth, sqTail := 0, cq := cqDma, cqDepth := cqDepth, cqHead := 0 },
    { s with msiEnabled := msi })

theorem setHigh_setLow (base val : BitVec 64) :
    setHigh (setLow base ((val.setWidth 32).setWidth 64))
      (((val >>> 32).setWidth 32).setWidth 64) = val := by
  unfold setHigh setLow
  ext i hi
  have hmask : 0x00000000FFFFFFFF#64 = (BitVec.allOnes 32).setWidth 64 := by decide
  have hmask' : 0xFFFFFFFF00000000#64 = ~~~((BitVec.allOnes 32).setWidth 64) := by decide
  rw [hmask, hmask']
  simp only [BitVec.getElem_or, BitVec.getElem_and, BitVec.getElem_not, BitVec.getElem_setWidth,
    BitVec.getElem_shiftLeft, BitVec.getLsbD_setWidth, BitVec.getLsbD_allOnes,
    BitVec.getLsbD_ushiftRight]
  by_cases h : i < 32
  · simp [h, hi]
  · have hlt : i - 32 < 32 := by omega
    have hadd : 32 + (i - 32) = i := by omega
    simp [h, hlt, hadd, BitVec.getLsbD_eq_getElem hi]

/-- Creating an engine configures the device's rings and touches nothing else of
its state. -/
theorem engineCreate_device (sqDma cqDma : Addr) (msi : Bool) (s : DmaEngineState)
    (sqDepth cqDepth : Word) :
    (engineCreate sqDma cqDma msi s sqDepth cqDepth).2 =
      { s with sqBase := sqDma, cqBase := cqDma, sqDepth := sqDepth, cqDepth := cqDepth
               msiEnabled := msi } := by
  have hword : ∀ x : Word, (x.setWidth 64).setWidth 32 = x := by
    intro x
    simp
  have hsq : ∀ s' : DmaEngineState, mmioWrite64 s' Reg.sqBaseLo.offset sqDma =
      { s' with sqBase := sqDma } := by
    intro s'
    change { s' with sqBase := setHigh (setLow _ _) _ } = _
    rw [setHigh_setLow]
  have hcq : ∀ s' : DmaEngineState, mmioWrite64 s' Reg.cqBaseLo.offset cqDma =
      { s' with cqBase := cqDma } := by
    intro s'
    change { s' with cqBase := setHigh (setLow _ _) _ } = _
    rw [setHigh_setLow]
  have hsqd : ∀ s' : DmaEngineState, iowrite32 sqDepth s' Reg.sqDepth.offset =
      { s' with sqDepth := sqDepth } := by
    intro s'
    change { s' with sqDepth := (sqDepth.setWidth 64).setWidth 32 } = _
    rw [hword]
  have hcqd : ∀ s' : DmaEngineState, iowrite32 cqDepth s' Reg.cqDepth.offset =
      { s' with cqDepth := cqDepth } := by
    intro s'
    change { s' with cqDepth := (cqDepth.setWidth 64).setWidth 32 } = _
    rw [hword]
  simp only [engineCreate, hsq, hcq, hsqd, hcqd]

inductive Return
  | void
  | int (v : Int)
  | size (n : Word) (out : List Cqe)
  deriving DecidableEq

/-- The next action of the driver's current call. A drain has copied the CQEs
`out` of the `n` it will return. -/
inductive Driver
  | idle
  | readHead (sqe : Sqe)
  | writeSlot (sqe : Sqe) (tail : Word)
  | advanceTail (sqe : Sqe)
  | writeDoorbell
  | readTail (max : BitVec 64)
  | copyOut (cqHead n : Word) (out : List Cqe)
  | returned (ret : Return)

namespace Engine

def sqSlot (e : Engine) (idx : Word) : Addr := ringAddr e.sq (idx &&& (e.sqDepth - 1)) 24

def cqSlot (e : Engine) (idx : Word) : Addr := ringAddr e.cq (idx &&& (e.cqDepth - 1)) 16

/-- `engine_submit` once it has read the device's head. -/
def submitCheck (e : Engine) (sqe : Sqe) (head : Word) : Driver :=
  if e.sqDepth ≤ e.sqTail - head then .returned (.int eagain) else .writeSlot sqe e.sqTail

/-- `min_t(u32, cq_tail - cq_head, (u32)max)`. -/
def drainCount (e : Engine) (max : BitVec 64) (cqTail : Word) : Word :=
  if max.setWidth 32 < cqTail - e.cqHead then max.setWidth 32 else cqTail - e.cqHead

/-- `engine_drain` once it has read the device's tail. -/
def drainCheck (e : Engine) (max : BitVec 64) (cqTail : Word) : Driver :=
  if e.drainCount max cqTail = 0 then .returned (.size 0 [])
  else .copyOut e.cqHead (e.drainCount max cqTail) []

theorem drainCount_le (e : Engine) (max : BitVec 64) (cqTail : Word) :
    (e.drainCount max cqTail).toNat ≤ (cqTail - e.cqHead).toNat := by
  rw [drainCount]
  split <;> rename_i hlt
  · exact (BitVec.lt_def.mp hlt).le
  · exact le_rfl

end Engine

end SystemsPrep.Dma
