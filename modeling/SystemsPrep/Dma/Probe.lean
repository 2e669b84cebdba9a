import SystemsPrep.Dma.EndToEnd
import SystemsPrep.Dma.MemoryLaw
import SystemsPrep.Dma.Teardown
import SystemsPrep.Dma.Wait

/-!
`dma_engine_probe` of `nic.c`, from its first submission on.

The probe sends 18 bytes to the device and has them sent back, by calls of the engine API,
while the device, the clock and the rest of the system go their own ways. The data buffers
are identified by their DMA addresses, as the rings are. What the probe allocates and maps
before its first submission it does not check; here all of that has succeeded. The model
ends where the probe returns 0 or enters `engine_destroy`.
-/

namespace SystemsPrep.Dma

open Base

/-- The two transfers: from `src` to the device, and from the device to `dst`. -/
inductive Direction
  | tx
  | rx
  deriving DecidableEq

inductive ProbeCall
  | submit
  | doorbell
  | wait
  | drain
  deriving DecidableEq

/-- The next statement of `dma_engine_probe`: a call, or inside it; the unmapping of a
buffer after its transfer; `memcmp`; the two tests at `err_unmap`; a `kfree`, which on
failure is the one at `err_free`; and the two ends. -/
inductive ProbeStage
  | call (c : ProbeCall) (d : Direction)
  | inCall (c : ProbeCall) (d : Direction)
  | unmap (d : Direction)
  | compare
  | errUnmap (d : Direction)
  | free (d : Direction) (passed : Bool)
  | returned
  | destroy
  deriving DecidableEq

def ProbeStage.holds : ProbeStage → Direction → Bool
  | .returned, _ | .destroy, _ | .free .rx _, .tx => false
  | _, _ => true

inductive Release
  | unmap (d : Direction)
  | free (d : Direction)
  deriving DecidableEq

/-- The probe, with `engine_wait` and the world it runs in, the DMA addresses of its
buffers and its variables `src_dma_addr` and `dst_dma_addr`. The rest is bookkeeping:
whether a wait has failed, and what has been given back. -/
structure Probe where
  host : Waiting
  stage : ProbeStage
  buffer : Direction → Addr
  dmaAddr : Direction → Addr
  timedOut : Bool
  released : List Release

/-- The 18 bytes of `hello DMA engine!` and its terminator. -/
def message : List Byte :=
  [104, 101, 108, 108, 111, 32, 68, 77, 65, 32, 101, 110, 103, 105, 110, 101, 33, 0]

def fillBuffers (m : Mem) (src dst : Addr) : Mem :=
  (m.write src message).write dst (List.replicate 64 0)

def transferSqe (addr : Addr) : Direction → Sqe
  | .tx => { cookie := 0xCAFE, bufAddr := addr, len := 18, op := opTx }
  | .rx => { cookie := 0xBEEF, bufAddr := addr, len := 18, op := opRx }

/-- What the test of `n` and `cqe.status` wants of `engine_drain`. -/
def Return.oneGood : Return → Bool
  | .size n out => n = 1 && out.all fun c => c.status = 0
  | _ => false

namespace Probe

def world (p : Probe) : World := p.host.world

/-- The probe after its engine has been created, before its first submission. -/
def start (w : World) (src dst : Addr) : Probe where
  host := .start w 0 false
  stage := .call .submit .tx
  buffer d := match d with
    | .tx => src
    | .rx => dst
  dmaAddr d := match d with
    | .tx => src
    | .rx => dst
  timedOut := false
  released := []

def setWorld (p : Probe) (w : World) : Probe := { p with host := { p.host with world := w } }

/-- Make a call. `engine_wait` is given two seconds. -/
def enterCall (hz : ℕ) (p : Probe) (c : ProbeCall) (d : Direction) : Option Probe :=
  let p' := { p with stage := .inCall c d }
  match c with
  | .submit => (step p.world (.submit (transferSqe (p.dmaAddr d) d))).map p'.setWorld
  | .doorbell => (step p.world .doorbell).map p'.setWorld
  | .wait => some { p' with host := .start p.world (2 * hz) p.host.signalled }
  | .drain => (step p.world (.drain 1)).map p'.setWorld

/-- What follows a call of the engine that returns `ret`. -/
def afterCall (d : Direction) (ret : Return) : ProbeCall → ProbeStage
  | .submit => .call .doorbell d
  | .doorbell => .call .wait d
  | .wait => .call .drain d
  | .drain => if ret.oneGood then .unmap d else .errUnmap .tx

def afterUnmap : Direction → ProbeStage
  | .tx => .call .submit .rx
  | .rx => .compare

def afterErrUnmap : Direction → ProbeStage
  | .tx => .errUnmap .rx
  | .rx => .free .tx false

def afterFree (passed : Bool) : Direction → ProbeStage
  | .tx => .free .rx passed
  | .rx => if passed then .returned else .destroy

/-- The next step inside a call, or the one that follows it. -/
def stepCall (p : Probe) (c : ProbeCall) (d : Direction) : Option Probe :=
  match c with
  | .wait =>
      match p.host.stage with
      | .returned v =>
          some (if v = 0 then { p with stage := .call .drain d }
            else { p with stage := .errUnmap .tx, timedOut := true })
      | _ => p.host.next.map fun h => { p with host := h }
  | _ =>
      match p.world.driver with
      | .returned ret => some { p with stage := afterCall d ret c }
      | _ => (step p.world .driver).map p.setWorld

/-- `memcmp(src, dst, 18) == 0`. -/
def roundtripped (p : Probe) : Bool :=
  p.world.mem.read (p.buffer .tx) 18 = p.world.mem.read (p.buffer .rx) 18

/-- The next step of the probe. -/
def next (hz : ℕ) (p : Probe) : Option Probe :=
  match p.stage with
  | .call c d => p.enterCall hz c d
  | .inCall c d => p.stepCall c d
  | .unmap d =>
      some { p with
        dmaAddr := Function.update p.dmaAddr d 0
        released := p.released ++ [.unmap d]
        stage := afterUnmap d }
  | .compare => some { p with stage := .free .tx p.roundtripped }
  | .errUnmap d =>
      some { p with
        released := p.released ++ if p.dmaAddr d = 0 then [] else [.unmap d]
        stage := afterErrUnmap d }
  | .free d passed =>
      some { p with
        released := p.released ++ [.free d]
        stage := afterFree passed d }
  | .returned | .destroy => none

end Probe

/-- The next step of the probe, one of the device or of the rest of the system, a clock
tick, a signal, or a wake-up of the queue. -/
inductive ProbeAction
  | next
  | world (a : Action)
  | tick
  | signal
  | wake

def probeStep (hz : ℕ) (p : Probe) : ProbeAction → Option Probe
  | .next => p.next hz
  | .world a => (waitStep p.host (.world a)).map fun h => { p with host := h }
  | .tick => (waitStep p.host .tick).map fun h => { p with host := h }
  | .signal => (waitStep p.host .signal).map fun h => { p with host := h }
  | .wake => (waitStep p.host .wake).map fun h => { p with host := h }

/-- What the probe has allocated does not overlap. -/
structure Placed (sqDma cqDma src dst : Addr) : Prop where
  rings : Apart sqDma (16 * 24) cqDma (16 * 16)
  srcSq : Apart src 64 sqDma (16 * 24)
  srcCq : Apart src 64 cqDma (16 * 16)
  dstSq : Apart dst 64 sqDma (16 * 24)
  dstCq : Apart dst 64 cqDma (16 * 16)
  buffers : Apart src 64 dst 64

/-- Nobody else writes to the rings, or to a buffer before it is freed. -/
def LeavesAlone (p : Probe) (a : ProbeAction) (_ : Probe) : Prop :=
  match a with
  | .world (.host x _) => ¬ p.world.eng.InSq x ∧ ¬ p.world.eng.InCq x ∧
      ∀ d, p.stage.holds d = true → ¬ Covers (p.buffer d) 64 x
  | _ => True

/-! ### The moves of the probe -/

def Probe.callEntry (p : Probe) (c : ProbeCall) (d : Direction) : Driver :=
  match c with
  | .submit => .readHead (transferSqe (p.dmaAddr d) d)
  | .doorbell => .writeDoorbell
  | .drain => .readTail 1
  | .wait => p.world.driver

theorem enter_of_outside (hout : w.driver.outside = true) (d : Driver) :
    enter w d = some { w with driver := d } := by
  unfold enter
  cases hd : w.driver with
  | idle | returned => rfl
  | readHead | writeSlot | advanceTail | writeDoorbell | readTail | copyOut =>
      rw [hd] at hout
      cases hout

/-- The next step of the probe. -/
inductive ProbeMove (hz : ℕ) (p : Probe) : Probe → Prop
  | enter (c : ProbeCall) (d : Direction) (hstage : p.stage = .call c d) (hc : c ≠ .wait)
      (hout : p.world.driver.outside = true) :
      ProbeMove hz p (Probe.setWorld { p with stage := .inCall c d }
        { p.world with driver := p.callEntry c d })
  | enterWait (d : Direction) (hstage : p.stage = .call .wait d) :
      ProbeMove hz p { p with
        stage := .inCall .wait d
        host := .start p.world (2 * hz) p.host.signalled }
  | driver (c : ProbeCall) (d : Direction) (w : World) (hstage : p.stage = .inCall c d)
      (hc : c ≠ .wait) (hs : step p.world .driver = some w) : ProbeMove hz p (p.setWorld w)
  | wait (d : Direction) (h : Waiting) (hstage : p.stage = .inCall .wait d)
      (hn : p.host.next = some h) : ProbeMove hz p { p with host := h }
  | leave (c : ProbeCall) (d : Direction) (ret : Return) (hstage : p.stage = .inCall c d)
      (hc : c ≠ .wait) (hret : p.world.driver = .returned ret) :
      ProbeMove hz p { p with stage := Probe.afterCall d ret c }
  | found (d : Direction) (hstage : p.stage = .inCall .wait d)
      (hret : p.host.stage = .returned 0) : ProbeMove hz p { p with stage := .call .drain d }
  | late (d : Direction) (v : ℤ) (hstage : p.stage = .inCall .wait d)
      (hret : p.host.stage = .returned v) (hv : v ≠ 0) :
      ProbeMove hz p { p with stage := .errUnmap .tx, timedOut := true }
  | unmap (d : Direction) (hstage : p.stage = .unmap d) :
      ProbeMove hz p { p with
        dmaAddr := Function.update p.dmaAddr d 0
        released := p.released ++ [.unmap d]
        stage := Probe.afterUnmap d }
  | compare (hstage : p.stage = .compare) :
      ProbeMove hz p { p with stage := .free .tx p.roundtripped }
  | errUnmap (d : Direction) (hstage : p.stage = .errUnmap d) :
      ProbeMove hz p { p with
        released := p.released ++ if p.dmaAddr d = 0 then [] else [.unmap d]
        stage := Probe.afterErrUnmap d }
  | free (d : Direction) (passed : Bool) (hstage : p.stage = .free d passed) :
      ProbeMove hz p { p with
        released := p.released ++ [.free d]
        stage := Probe.afterFree passed d }

theorem probeMove_of_next {hz : ℕ} {p p' : Probe} (hs : p.next hz = some p') :
    ProbeMove hz p p' := by
  unfold Probe.next at hs
  cases hstage : p.stage with
  | call c d =>
      simp only [hstage] at hs
      cases c with
      | wait =>
          cases hs
          exact .enterWait d hstage
      | submit | doorbell | drain =>
          obtain ⟨w, hw, rfl⟩ := Option.map_eq_some_iff.mp hs
          have hout := outside_of_enter hw
          obtain rfl := enter_eq_some hw
          exact .enter _ d hstage (by decide) hout
  | inCall c d =>
      simp only [hstage] at hs
      cases c with
      | wait =>
          simp only [Probe.stepCall] at hs
          split at hs
          · rename_i v hv
            cases hs
            split <;> rename_i hzero
            · exact .found d hstage (hzero ▸ hv)
            · exact .late d v hstage hv hzero
          · obtain ⟨h, hn, rfl⟩ := Option.map_eq_some_iff.mp hs
            exact .wait d h hstage hn
      | submit | doorbell | drain =>
          simp only [Probe.stepCall] at hs
          split at hs
          · cases hs
            exact .leave _ d _ hstage (by decide) ‹_›
          · obtain ⟨w, hw, rfl⟩ := Option.map_eq_some_iff.mp hs
            exact .driver _ d w hstage (by decide) hw
  | unmap d =>
      simp only [hstage] at hs
      cases hs
      exact .unmap d hstage
  | compare =>
      simp only [hstage] at hs
      cases hs
      exact .compare hstage
  | errUnmap d =>
      simp only [hstage] at hs
      cases hs
      exact .errUnmap d hstage
  | free d passed =>
      simp only [hstage] at hs
      cases hs
      exact .free d passed hstage
  | returned | destroy =>
      simp only [hstage] at hs
      cases hs

theorem Waiting.world_next {h h' : Waiting} (hn : h.next = some h') : h'.world = h.world := by
  unfold Waiting.next at hn
  split at hn
  · cases hn
    split <;> rfl
  · cases hn
    split <;> rfl
  · cases hn
    split
    · rfl
    · split <;> rfl
  · cases hn
    split
    · rfl
    · split <;> rfl
  · split at hn <;> cases hn
    rfl
  · cases hn

theorem world_of_move {hz : ℕ} {p p' : Probe} (hm : ProbeMove hz p p') : p'.world = p.world ∨
    ∃ b : Action, b.byDriver = true ∧ step p.world b = some p'.world ∧
      ∀ sqe, b = .submit sqe →
        ∃ d, p.stage = .call .submit d ∧ sqe = transferSqe (p.dmaAddr d) d := by
  cases hm with
  | enter c d hstage hc hout =>
      have henter := enter_of_outside hout
      refine Or.inr ?_
      cases c with
      | wait => exact absurd rfl hc
      | submit =>
          refine ⟨.submit (transferSqe (p.dmaAddr d) d), rfl, henter _, fun sqe hsqe => ?_⟩
          exact ⟨d, hstage, (Action.submit.inj hsqe).symm⟩
      | doorbell => exact ⟨.doorbell, rfl, henter _, fun sqe hsqe => by cases hsqe⟩
      | drain => exact ⟨.drain 1, rfl, henter _, fun sqe hsqe => by cases hsqe⟩
  | driver c d w hstage hc hw =>
      exact Or.inr ⟨.driver, rfl, hw, fun sqe hsqe => by cases hsqe⟩
  | wait d h hstage hn => exact Or.inl (Waiting.world_next hn)
  | enterWait | leave | found | late | unmap | compare | errUnmap | free => exact Or.inl rfl

theorem buffer_of_move {hz : ℕ} {p p' : Probe} (hm : ProbeMove hz p p') : p'.buffer = p.buffer ∧
    ∀ d, p'.stage.holds d = true → p.stage.holds d = true := by
  cases hm with
  | free d passed hstage =>
      refine ⟨rfl, fun d' hd' => ?_⟩
      rw [hstage]
      cases d with
      | tx => cases d' <;> rfl
      | rx => cases passed <;> cases hd'
  | enter _ _ hstage | enterWait _ hstage | driver _ _ _ hstage | wait _ _ hstage
  | leave _ _ _ hstage | found _ hstage | late _ _ hstage | unmap _ hstage | compare hstage
  | errUnmap _ hstage =>
      refine ⟨rfl, fun d _ => ?_⟩
      rw [hstage]
      cases d <;> rfl

/-- A step of the others: what it makes of `engine_wait` and the world. -/
inductive Around (p : Probe) : ProbeAction → Waiting → Prop
  | world (b : Action) (w : World) (hb : b.byDriver = false) (hs : step p.world b = some w) :
      Around p (.world b) { p.host with world := w }
  | tick : Around p .tick { p.host with jiffies := p.host.jiffies + 1 }
  | signal : Around p .signal { p.host with signalled := true }
  | wake : Around p .wake { p.host with running := true }

theorem around_of_step {hz : ℕ} {p p' : Probe} {a : ProbeAction} (ha : a ≠ .next)
    (hs : probeStep hz p a = some p') : ∃ h, p' = { p with host := h } ∧ Around p a h := by
  cases a with
  | next => exact absurd rfl ha
  | world b =>
      obtain ⟨h, hh, rfl⟩ := Option.map_eq_some_iff.mp hs
      simp only [waitStep] at hh
      split at hh
      · cases hh
      · obtain ⟨w, hw, rfl⟩ := Option.map_eq_some_iff.mp hh
        exact ⟨_, rfl, .world b w (Bool.eq_false_of_not_eq_true ‹_›) hw⟩
  | tick =>
      cases hs
      exact ⟨_, rfl, .tick⟩
  | signal =>
      cases hs
      exact ⟨_, rfl, .signal⟩
  | wake =>
      cases hs
      exact ⟨_, rfl, .wake⟩

theorem move_of_probeStep {hz : ℕ} {p p' : Probe} {a : ProbeAction}
    (hs : probeStep hz p a = some p') :
    (a = .next ∧ ProbeMove hz p p') ∨ ∃ h, p' = { p with host := h } ∧ Around p a h := by
  by_cases ha : a = .next
  · subst ha
    exact Or.inl ⟨rfl, probeMove_of_next hs⟩
  · exact Or.inr (around_of_step ha hs)

end SystemsPrep.Dma
