import SystemsPrep.Base.Exec
import SystemsPrep.Dma.Driver

/-!
One driver thread and one device, one action at a time.

The driver makes calls of the engine API, the device's timer fires once a
doorbell has armed it, and its callback runs, all in any order. The rest of the
system may write to memory too.
-/

namespace SystemsPrep.Dma

open Base

/-- The engine, the device and the memory they share. The rest is bookkeeping:
the submissions accepted, how many of them a doorbell has announced, those the
device has fetched, which of its data transfers failed, the completions it has
posted and those the driver has drained. -/
structure World where
  eng : Engine
  driver : Driver
  dev : DmaEngineState
  callback : Callback
  mem : Mem
  accepted : List Sqe
  announced : ℕ
  fetched : List Sqe
  failures : List Bool
  posted : List Cqe
  drained : List Cqe

/-- An engine just created on an idle device. -/
def World.create (d : DmaEngineState) (m : Mem) (sqDma cqDma : Addr) (msi : Bool)
    (sqDepth cqDepth : Word) : World where
  eng := (engineCreate sqDma cqDma msi d sqDepth cqDepth).1
  driver := .idle
  dev := (engineCreate sqDma cqDma msi d sqDepth cqDepth).2
  callback := .idle
  mem := m
  accepted := []
  announced := 0
  fetched := []
  failures := []
  posted := []
  drained := []

/-- Enter a call, take the next action of the current one, let the timer fire,
take the next action of its callback with a data transfer that ends in `r`, or
write a byte from elsewhere. -/
inductive Action
  | submit (sqe : Sqe)
  | doorbell
  | drain (max : BitVec 64)
  | driver
  | timer
  | device (r : DmaResult)
  | host (a : Addr) (b : Byte)

def enter (w : World) (d : Driver) : Option World :=
  match w.driver with
  | .idle | .returned _ => some { w with driver := d }
  | _ => none

def Driver.outside : Driver → Bool
  | .idle | .returned _ => true
  | _ => false

def driverStep (w : World) : Option World :=
  match w.driver with
  | .idle | .returned _ => none
  | .readHead sqe =>
      some { w with driver := w.eng.submitCheck sqe (ioread32 w.dev Reg.sqHead.offset) }
  | .writeSlot sqe tail =>
      some { w with
        mem := w.mem.write (w.eng.sqSlot tail) (sqeLayout.bytes sqe)
        driver := .advanceTail sqe }
  | .advanceTail sqe =>
      some { w with
        eng := { w.eng with sqTail := w.eng.sqTail + 1 }
        accepted := w.accepted ++ [sqe]
        driver := .returned (.int 0) }
  | .writeDoorbell =>
      some { w with
        dev := iowrite32 w.eng.sqTail w.dev Reg.sqDoorbell.offset
        announced := w.accepted.length
        driver := .returned .void }
  | .readTail max =>
      some { w with driver := w.eng.drainCheck max (ioread32 w.dev Reg.cqTail.offset) }
  | .copyOut cqHead n out =>
      if out.length < n.toNat then
        some { w with
          driver := .copyOut cqHead n (out ++ [cqeLayout.ofBytes
            (w.mem.read (w.eng.cqSlot (cqHead + BitVec.ofNat 32 out.length)) 16)]) }
      else
        some { w with
          eng := { w.eng with cqHead := cqHead + n }
          drained := w.drained ++ out
          driver := .returned (.size n out) }

def timerStep (w : World) : Option World :=
  (timerFire w.dev w.callback).map fun (dev, callback) =>
    { w with dev := dev, callback := callback }

def Bus.granted (r : DmaResult) : Bus where
  master := true
  result := r
  stack := { cookie := 0, bufAddr := 0, len := 0, op := 0 }

def Callback.fetching : Callback → List Sqe
  | .transfer sqe => [sqe]
  | _ => []

def Callback.transferring (c : Callback) (failed : Bool) : List Bool :=
  match c with
  | .transfer _ => [failed]
  | _ => []

def Callback.posting : Callback → List Cqe
  | .advance cqe => [cqe]
  | _ => []

def deviceStep (w : World) (r : DmaResult) : Option World :=
  (callbackStep (Bus.granted r) w.dev w.callback w.mem).map fun (dev, callback, mem) =>
    { w with
      dev := dev
      callback := callback
      mem := mem
      fetched := w.fetched ++ callback.fetching
      failures := w.failures ++ w.callback.transferring r.failed
      posted := w.posted ++ w.callback.posting }

def step (w : World) : Action → Option World
  | .submit sqe => enter w (.readHead sqe)
  | .doorbell => enter w .writeDoorbell
  | .drain max => enter w (.readTail max)
  | .driver => driverStep w
  | .timer => timerStep w
  | .device r => deviceStep w r
  | .host a b => some { w with mem := Function.update w.mem a b }

/-! ### Rings and buffers -/

def Engine.InSq (e : Engine) (a : Addr) : Prop := Covers e.sq (e.sqDepth.toNat * sqeLayout.size) a

def Engine.InCq (e : Engine) (a : Addr) : Prop := Covers e.cq (e.cqDepth.toNat * cqeLayout.size) a

instance (e : Engine) (a : Addr) : Decidable (e.InSq a) :=
  inferInstanceAs (Decidable (Covers _ _ _))

instance (e : Engine) (a : Addr) : Decidable (e.InCq a) :=
  inferInstanceAs (Decidable (Covers _ _ _))

/-- The data buffer of a submission. -/
def Sqe.InBuffer (s : Sqe) (a : Addr) : Prop := Covers s.bufAddr (clampLen s.len).toNat a

def Sqe.Apart (e : Engine) (s : Sqe) : Prop := ∀ a, s.InBuffer a → ¬ e.InSq a ∧ ¬ e.InCq a

/-- Neither the data buffer of a submission nor a write from elsewhere meets the
rings. -/
def Action.Apart (e : Engine) : Action → Prop
  | .submit sqe => sqe.Apart e
  | .host a _ => ¬ e.InSq a ∧ ¬ e.InCq a
  | _ => True

end SystemsPrep.Dma
