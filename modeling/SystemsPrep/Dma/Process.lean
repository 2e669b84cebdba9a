import SystemsPrep.Dma.Moves

/-!
One run of `dma_engine_process`, from any state of the device.

The loop compares wrapping counters, and a doorbell sets one of them unchecked.
Every turn advances `sq_head` and `cq_tail` together, so the test for room comes
out as it did the first time: the callback stops at once, or after as many turns
as `sq_tail` is ahead of `sq_head`, modulo `2 ^ 32`.
-/

namespace SystemsPrep.Dma

open Base

structure Processing where
  dev : DmaEngineState
  callback : Callback
  mem : Mem

/-- `dma_engine_process` is called. -/
def Processing.start (s : DmaEngineState) (m : Mem) : Processing where
  dev := s
  callback := .loop false
  mem := m

def processStep (p : Processing) (b : Bus) : Option Processing :=
  (callbackStep b p.dev p.callback p.mem).map fun (dev, callback, mem) =>
    { dev := dev, callback := callback, mem := mem }

/-- What others see of a callback. -/
inductive DmaEvent
  | fetchSqe (addr : Addr) (sqe : Sqe)
  | writeCqe (addr : Addr) (cqe : Cqe)
  | raiseIrq
  deriving DecidableEq

def processNote (p : Processing) (_ : Bus) (p' : Processing) : List DmaEvent :=
  match p.callback, p'.callback with
  | .loop _, .transfer sqe => [.fetchSqe p.dev.sqeAddr sqe]
  | .loop true, .idle => [.raiseIrq]
  | .writeCqe cqe, _ => [.writeCqe p.dev.cqeAddr cqe]
  | _, _ => []

/-- What `k` turns of the loop do: they read the submissions `sqe` from the slots
from `sq_head` on, and write the completions `cqe` to those from `cq_tail` on. -/
def turns (s : DmaEngineState) (sqe : ℕ → Sqe) (cqe : ℕ → Cqe) (k : ℕ) : List DmaEvent :=
  (List.range k).flatMap fun i =>
    [.fetchSqe (ringAddr s.sqBase ((s.sqHead + BitVec.ofNat 32 i) &&& (s.sqDepth - 1)) 24) (sqe i),
      .writeCqe (ringAddr s.cqBase ((s.cqTail + BitVec.ofNat 32 i) &&& (s.cqDepth - 1)) 16) (cqe i)]

/-- How `k` turns leave the device, its buffer apart. -/
def DmaEngineState.advanced (s : DmaEngineState) (k : ℕ) (buf : ℕ → Byte) : DmaEngineState :=
  { s with
    sqHead := s.sqHead + BitVec.ofNat 32 k
    cqTail := s.cqTail + BitVec.ofNat 32 k
    devBuf := buf }

@[simp] theorem completion_cookie (sqe : Sqe) (failed : Bool) :
    (completion sqe failed).cookie = sqe.cookie := by
  unfold completion
  split
  · split <;> rfl
  · rfl

/-- A step of the callback on some bus. -/
inductive ProcessMove (p : Processing) : Processing → Prop
  | stop (didWork : Bool) (hc : p.callback = .loop didWork)
      (h : p.dev.sqHead = p.dev.sqTail ∨ p.dev.cqFull = true) :
      ProcessMove p { p with
        dev := if didWork then dmaEngineRaiseIrq p.dev else p.dev
        callback := .idle }
  | fetch (didWork : Bool) (sqe : Sqe) (hc : p.callback = .loop didWork)
      (h : p.dev.sqHead ≠ p.dev.sqTail) (hroom : p.dev.cqFull = false) :
      ProcessMove p { p with callback := .transfer sqe }
  | transfer (sqe : Sqe) (cqe : Cqe) (buf : ℕ → Byte) (m : Mem) (hc : p.callback = .transfer sqe) :
      ProcessMove p { dev := { p.dev with devBuf := buf }, callback := .writeCqe cqe, mem := m }
  | writeCqe (cqe : Cqe) (m : Mem) (hc : p.callback = .writeCqe cqe) :
      ProcessMove p { p with callback := .advance cqe, mem := m }
  | advance (cqe : Cqe) (hc : p.callback = .advance cqe) :
      ProcessMove p { p with
        dev := { p.dev with sqHead := p.dev.sqHead + 1, cqTail := p.dev.cqTail + 1 }
        callback := .loop true }

theorem processMove_of_processStep {p p' : Processing} {b : Bus} (h : processStep p b = some p') :
    ProcessMove p p' := by
  obtain ⟨⟨dev, callback, mem⟩, hstep, rfl⟩ := Option.map_eq_some_iff.mp h
  unfold callbackStep at hstep
  split at hstep <;> rename_i hc
  · cases hstep
  · split at hstep <;> rename_i htest <;> cases hstep
    · exact .stop _ hc htest
    · rw [not_or, Bool.not_eq_true] at htest
      exact .fetch _ _ hc htest.1 htest.2
  · rename_i sqe
    simp only [Option.some.injEq, Prod.mk.injEq] at hstep
    obtain ⟨rfl, rfl, rfl⟩ := hstep
    obtain ⟨buf, hbuf⟩ := dataDma_state p.dev p.mem sqe b.outcome
    rw [hbuf]
    exact .transfer sqe _ buf _ hc
  · cases hstep
    exact .writeCqe _ _ hc
  · cases hstep
    exact .advance _ hc

/-! ### What a step does on the bus -/

/-- The step makes this access. A submission is what memory holds at its address, or what was
on the stack if it cannot be read; a completion is what memory holds there afterwards. -/
def DmaEvent.MadeBy (p : Processing) (b : Bus) (p' : Processing) : DmaEvent → Prop
  | .fetchSqe addr sqe =>
      sqe = if b.master then sqeLayout.ofBytes (p.mem.read addr 24) else b.stack
  | .writeCqe addr cqe =>
      p'.mem = if b.master then p.mem.write addr (cqeLayout.bytes cqe) else p.mem
  | .raiseIrq => p'.dev = dmaEngineRaiseIrq p.dev

/-- The step makes the accesses that are seen of it, and the data transfer of the submission in
hand. It does not touch memory otherwise. -/
structure OnBus (p : Processing) (b : Bus) (p' : Processing) : Prop where
  made : ∀ e ∈ processNote p b p', e.MadeBy p b p'
  moved : ∀ sqe, p.callback = .transfer sqe →
    p'.dev = (dataDma p.dev p.mem sqe b.outcome).1 ∧
      p'.mem = (dataDma p.dev p.mem sqe b.outcome).2.1 ∧
      p'.callback = .writeCqe (dataDma p.dev p.mem sqe b.outcome).2.2
  kept : (∀ sqe, p.callback ≠ .transfer sqe) →
    (∀ addr cqe, .writeCqe addr cqe ∉ processNote p b p') → p'.mem = p.mem

theorem onBus_of_processStep {p p' : Processing} {b : Bus} (h : processStep p b = some p') :
    OnBus p b p' := by
  obtain ⟨⟨dev, callback, mem⟩, hstep, rfl⟩ := Option.map_eq_some_iff.mp h
  cases hc : p.callback with
  | idle =>
      rw [hc, callbackStep] at hstep
      cases hstep
  | loop didWork =>
      rw [hc, callbackStep] at hstep
      split at hstep <;> cases hstep
      · cases didWork <;> constructor <;> simp [processNote, hc, DmaEvent.MadeBy]
      · constructor <;> simp [processNote, hc, DmaEvent.MadeBy]
  | transfer sqe =>
      rw [hc, callbackStep] at hstep
      simp only [Option.some.injEq, Prod.mk.injEq] at hstep
      obtain ⟨rfl, rfl, rfl⟩ := hstep
      constructor
      case made => simp [processNote, hc]
      case moved =>
        intro sqe' hc'
        rw [hc] at hc'
        cases hc'
        exact ⟨rfl, rfl, rfl⟩
      case kept => exact fun hnone => absurd hc (hnone sqe)
  | writeCqe cqe =>
      rw [hc, callbackStep] at hstep
      cases hstep
      constructor <;> simp [processNote, hc, DmaEvent.MadeBy]
  | advance cqe =>
      rw [hc, callbackStep] at hstep
      cases hstep
      constructor <;> simp [processNote, hc]

/-! ### One turn -/

/-- A turn of the loop, whatever happens on the bus. -/
theorem turn (s : DmaEngineState) (didWork : Bool) (m : Mem) (b₀ b₁ b₂ b₃ : Bus)
    (hwork : s.sqHead ≠ s.sqTail) (hroom : s.cqFull = false) :
    ∃ sqe cqe buf m', cqe.cookie = sqe.cookie ∧
      exec processStep ⟨s, .loop didWork, m⟩ [b₀, b₁, b₂, b₃] =
        some ⟨s.advanced 1 buf, .loop true, m'⟩ ∧
      record processStep processNote ⟨s, .loop didWork, m⟩ [b₀, b₁, b₂, b₃] =
        [.fetchSqe s.sqeAddr sqe, .writeCqe s.cqeAddr cqe] := by
  set sqe := if b₀.master then sqeLayout.ofBytes (m.read s.sqeAddr 24) else b₀.stack with hsqe
  obtain ⟨buf, hbuf⟩ := dataDma_state s m sqe b₁.outcome
  set m₁ := (dataDma s m sqe b₁.outcome).2.1 with hm₁
  set cqe := completion sqe b₁.outcome.failed with hcqe
  set s₁ : DmaEngineState := { s with devBuf := buf }
  set m₂ := if b₂.master then m₁.write s.cqeAddr (cqeLayout.bytes cqe) else m₁ with hm₂
  have h₀ : processStep ⟨s, .loop didWork, m⟩ b₀ = some ⟨s, .transfer sqe, m⟩ := by
    simp [processStep, callbackStep, hwork, hroom, hsqe]
  have h₁ : processStep ⟨s, .transfer sqe, m⟩ b₁ = some ⟨s₁, .writeCqe cqe, m₁⟩ := by
    simp [processStep, callbackStep, hbuf, hm₁, hcqe, dataDma_cqe, s₁]
  have h₂ : processStep ⟨s₁, .writeCqe cqe, m₁⟩ b₂ = some ⟨s₁, .advance cqe, m₂⟩ := by
    simp [processStep, callbackStep, hm₂, s₁, DmaEngineState.cqeAddr]
  have h₃ : processStep ⟨s₁, .advance cqe, m₂⟩ b₃ = some ⟨s.advanced 1 buf, .loop true, m₂⟩ := by
    simp [processStep, callbackStep, DmaEngineState.advanced, s₁]
  refine ⟨sqe, cqe, buf, m₂, completion_cookie .., ?_, ?_⟩
  · simp [exec, h₀, h₁, h₂, h₃]
  · simp [record, processNote, h₀, h₁, h₂, h₃, s₁, DmaEngineState.cqeAddr]

theorem stop (s : DmaEngineState) (didWork : Bool) (m : Mem) (b : Bus)
    (h : s.sqHead = s.sqTail ∨ s.cqFull = true) :
    exec processStep ⟨s, .loop didWork, m⟩ [b] =
        some ⟨if didWork then dmaEngineRaiseIrq s else s, .idle, m⟩ ∧
      record processStep processNote ⟨s, .loop didWork, m⟩ [b] =
        if didWork then [.raiseIrq] else [] := by
  have hstep : processStep ⟨s, .loop didWork, m⟩ b =
      some ⟨if didWork then dmaEngineRaiseIrq s else s, .idle, m⟩ := by
    simp [processStep, callbackStep, h]
  cases didWork with
  | false => simp [exec, record, processNote, hstep]
  | true => simp [exec, record, processNote, hstep]

/-! ### What a turn leaves as it was -/

namespace DmaEngineState

variable (s : DmaEngineState) (k : ℕ) (buf : ℕ → Byte)

@[simp] theorem cqFull_advanced : (s.advanced k buf).cqFull = s.cqFull := by
  have hsub : s.cqTail + BitVec.ofNat 32 k - (s.sqHead + BitVec.ofNat 32 k) =
      s.cqTail - s.sqHead := by
    bv_omega
  rw [cqFull, cqFull]
  simp only [advanced, hsub]

theorem distance_advanced {n : ℕ} (h : (s.sqTail - s.sqHead).toNat = n + 1) :
    ((s.advanced 1 buf).sqTail - (s.advanced 1 buf).sqHead).toNat = n := by
  simp only [advanced]
  bv_omega

theorem advanced_advanced (j : ℕ) (buf' : ℕ → Byte) :
    (s.advanced j buf').advanced k buf = s.advanced (j + k) buf := by
  simp only [advanced, BitVec.add_assoc, ← BitVec.ofNat_add]

end DmaEngineState

theorem turns_succ (s : DmaEngineState) (buf : ℕ → Byte) (sqe : ℕ → Sqe) (cqe : ℕ → Cqe) (k : ℕ) :
    turns s sqe cqe (k + 1) =
      [.fetchSqe s.sqeAddr (sqe 0), .writeCqe s.cqeAddr (cqe 0)] ++
        turns (s.advanced 1 buf) (fun i => sqe (i + 1)) (fun i => cqe (i + 1)) k := by
  have hnext : ∀ (x : Word) i, x + BitVec.ofNat 32 (i + 1) =
      x + BitVec.ofNat 32 1 + BitVec.ofNat 32 i := by
    intro x i
    rw [BitVec.add_assoc, ← BitVec.ofNat_add, Nat.add_comm]
  rw [turns, List.range_succ_eq_map, List.flatMap_cons, List.flatMap_map]
  congr 1
  · rw [BitVec.ofNat_eq_ofNat, BitVec.add_zero, BitVec.add_zero]
    rfl
  · refine List.flatMap_congr fun i _ => ?_
    rw [Nat.succ_eq_add_one, hnext s.sqHead, hnext s.cqTail]
    rfl

/-! ### The whole callback -/

/-- The callback has run as it should: `k` turns, each of which completed one
submission, and an interrupt if there was any. -/
structure Processed (s : DmaEngineState) (m : Mem) (k : ℕ) (s' : DmaEngineState) (m' : Mem)
    (events : List DmaEvent) : Prop where
  sqHead : s'.sqHead = s.sqHead + BitVec.ofNat 32 k
  cqTail : s'.cqTail = s.cqTail + BitVec.ofNat 32 k
  exits : s'.sqHead = s'.sqTail ∨ s'.cqDepth ≤ s'.cqTail - s'.sqHead
  full : s'.cqDepth ≤ s'.cqTail - s'.sqHead → k = 0
  events : ∃ sqe cqe, (∀ i < k, (cqe i).cookie = (sqe i).cookie) ∧
    events = turns s sqe cqe k ++ if k = 0 then [] else [.raiseIrq]
  raised : 0 < k → ∃ buf, s' = dmaEngineRaiseIrq (s.advanced k buf)
  unchanged : k = 0 → s' = s ∧ m' = m

/-- The loop runs until the two indices of the submission ring meet. -/
theorem loop_ends (s : DmaEngineState) (didWork : Bool) (m : Mem) (hroom : s.cqFull = false)
    {k : ℕ} (hk : (s.sqTail - s.sqHead).toNat = k) {bus : List Bus}
    (hbus : bus.length = 4 * k + 1) :
    ∃ sqe cqe buf m', (∀ i < k, (cqe i).cookie = (sqe i).cookie) ∧
      exec processStep ⟨s, .loop didWork, m⟩ bus =
        some ⟨if didWork ∨ k ≠ 0 then dmaEngineRaiseIrq (s.advanced k buf) else s.advanced k buf,
          .idle, m'⟩ ∧
      record processStep processNote ⟨s, .loop didWork, m⟩ bus =
        turns s sqe cqe k ++ if didWork ∨ k ≠ 0 then [.raiseIrq] else [] := by
  induction k generalizing s didWork m bus with
  | zero =>
      obtain ⟨b, rfl⟩ := List.length_eq_one_iff.mp hbus
      have heq : s.sqHead = s.sqTail := by
        bv_omega
      obtain ⟨hexec, hrec⟩ := stop s didWork m b (Or.inl heq)
      refine ⟨fun _ => ⟨0, 0, 0, 0⟩, fun _ => ⟨0, 0, 0⟩, s.devBuf, m, by simp, ?_, ?_⟩
      · rw [hexec]
        simp [DmaEngineState.advanced]
      · rw [hrec]
        simp [turns]
  | succ k ih =>
      match bus, hbus with
      | b₀ :: b₁ :: b₂ :: b₃ :: bus, hbus =>
          have hwork : s.sqHead ≠ s.sqTail := by
            intro heq
            rw [heq, BitVec.sub_self] at hk
            cases hk
          obtain ⟨sqe₀, cqe₀, buf₀, m₁, hcookie₀, hexec₀, hrec₀⟩ :=
            turn s didWork m b₀ b₁ b₂ b₃ hwork hroom
          have hlen : bus.length = 4 * k + 1 := by
            simp only [List.length_cons] at hbus
            omega
          obtain ⟨sqe, cqe, buf, m', hcookie, hexec, hrec⟩ :=
            ih (s.advanced 1 buf₀) true m₁ (by rw [s.cqFull_advanced, hroom])
              (s.distance_advanced buf₀ hk) hlen
          refine ⟨fun i => i.casesOn sqe₀ sqe, fun i => i.casesOn cqe₀ cqe, buf, m', ?_, ?_, ?_⟩
          · intro i hi
            cases i with
            | zero => exact hcookie₀
            | succ i => exact hcookie i (by omega)
          · rw [show b₀ :: b₁ :: b₂ :: b₃ :: bus = [b₀, b₁, b₂, b₃] ++ bus from rfl, exec_append,
              hexec₀, Option.bind_some, hexec, s.advanced_advanced, Nat.add_comm 1 k]
            simp
          · rw [show b₀ :: b₁ :: b₂ :: b₃ :: bus = [b₀, b₁, b₂, b₃] ++ bus from rfl,
              record_append _ bus hexec₀, hrec₀, hrec, turns_succ s buf₀, List.append_assoc]
            simp

theorem cqFull_iff (s : DmaEngineState) :
    s.cqFull = true ↔ s.cqDepth ≤ s.cqTail - s.sqHead := by
  rw [DmaEngineState.cqFull, decide_eq_true_iff]

theorem processed_zero (s : DmaEngineState) (m : Mem)
    (h : s.sqHead = s.sqTail ∨ s.cqFull = true) : Processed s m 0 s m [] where
  sqHead := by simp
  cqTail := by simp
  exits := h.imp_right (cqFull_iff s).mp
  full _ := rfl
  events := ⟨fun _ => ⟨0, 0, 0, 0⟩, fun _ => ⟨0, 0, 0⟩, by simp, rfl⟩
  raised hpos := absurd hpos (Nat.lt_irrefl 0)
  unchanged _ := ⟨rfl, rfl⟩

/-- All the turns up to `sq_tail`. -/
theorem processed_of_turns (s : DmaEngineState) (m m' : Mem) (buf : ℕ → Byte) {k : ℕ}
    (hroom : s.cqFull = false) (hk : (s.sqTail - s.sqHead).toNat = k) (hpos : 0 < k)
    {sqe : ℕ → Sqe} {cqe : ℕ → Cqe} (hcookie : ∀ i < k, (cqe i).cookie = (sqe i).cookie) :
    Processed s m k (dmaEngineRaiseIrq (s.advanced k buf)) m'
      (turns s sqe cqe k ++ [.raiseIrq]) := by
  obtain ⟨status, notified, level, hirq⟩ := raiseIrq_eq true (s.advanced k buf)
  rw [if_pos rfl] at hirq
  have hmeet : s.sqHead + BitVec.ofNat 32 k = s.sqTail := by
    rw [← hk, BitVec.ofNat_toNat, BitVec.setWidth_eq]
    bv_omega
  have hnotFull : ¬ (s.advanced k buf).cqDepth ≤
      (s.advanced k buf).cqTail - (s.advanced k buf).sqHead := by
    rw [← cqFull_iff, s.cqFull_advanced, hroom]
    exact Bool.false_ne_true
  constructor
  case sqHead | cqTail =>
    rw [hirq]
    rfl
  case exits =>
    rw [hirq]
    exact Or.inl hmeet
  case full =>
    intro hfull
    rw [hirq] at hfull
    exact absurd hfull hnotFull
  case events => exact ⟨sqe, cqe, hcookie, by rw [if_neg hpos.ne']⟩
  case raised => exact fun _ => ⟨buf, rfl⟩
  case unchanged => exact fun hzero => absurd hzero hpos.ne'

/-- **The processing loop ends from any state and accounts for its work.** The
callback is over after `k` turns of four steps and one more, whatever the bus
does meanwhile. The submissions and the completions of its turns are those that its
steps read from memory and write there. -/
theorem process_ends (s : DmaEngineState) (m : Mem) :
    ∃ k, (k = 0 ∨ k = (s.sqTail - s.sqHead).toNat) ∧
      ∀ bus : List Bus, bus.length = 4 * k + 1 → ∃ s' m',
        exec processStep (.start s m) bus = some ⟨s', .idle, m'⟩ ∧
          Processed s m k s' m' (record processStep processNote (.start s m) bus) ∧
          Steps processStep OnBus (.start s m) bus := by
  have honBus (bus : List Bus) : Steps processStep OnBus (.start s m) bus :=
    fun _ _ _ _ _ _ hs => onBus_of_processStep hs
  by_cases hend : s.sqHead = s.sqTail ∨ s.cqFull = true
  · refine ⟨0, Or.inl rfl, fun bus hbus => ⟨s, m, ?_⟩⟩
    obtain ⟨b, rfl⟩ := List.length_eq_one_iff.mp hbus
    obtain ⟨hexec, hrec⟩ := stop s false m b hend
    refine ⟨hexec, ?_, honBus [b]⟩
    rw [Processing.start, hrec]
    exact processed_zero s m hend
  · rw [not_or, Bool.not_eq_true] at hend
    obtain ⟨hwork, hroom⟩ := hend
    have hpos : 0 < (s.sqTail - s.sqHead).toNat := by
      bv_omega
    refine ⟨(s.sqTail - s.sqHead).toNat, Or.inr rfl, fun bus hbus => ?_⟩
    obtain ⟨sqe, cqe, buf, m', hcookie, hexec, hrec⟩ := loop_ends s false m hroom rfl hbus
    rw [if_pos (Or.inr hpos.ne')] at hexec hrec
    refine ⟨_, m', hexec, ?_, honBus bus⟩
    rw [Processing.start, hrec]
    exact processed_of_turns s m m' buf hroom rfl hpos hcookie

end SystemsPrep.Dma
