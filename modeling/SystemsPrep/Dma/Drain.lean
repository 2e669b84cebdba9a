import SystemsPrep.Dma.Moves

/-!
`engine_drain` as a function of the states of the driver and the device.

The limit of the caller is a `size_t`, narrowed to 32 bits before the minimum is
taken. Below `2 ^ 32` the call returns all that it may; from there on only if
what is left of the limit still covers the undrained completions.
-/

namespace SystemsPrep.Dma

open Base

/-- What a call of `engine_drain` leaves: the engine, the caller's array and the result. -/
structure DrainResult where
  eng : Engine
  out : ℕ → Cqe
  ret : BitVec 64

/-- `cq[(cq_head + i) & (cq_depth - 1)]`. -/
def Engine.cqe (e : Engine) (m : Mem) (i : ℕ) : Cqe :=
  cqeLayout.ofBytes (m.read (e.cqSlot (e.cqHead + BitVec.ofNat 32 i)) 16)

/-- The copying loop, once `i` entries are copied. -/
def drainLoop (e : Engine) (m : Mem) (out : ℕ → Cqe) : ℕ → ℕ → Cqe
  | 0 => out
  | i + 1 => Function.update (drainLoop e m out i) i (e.cqe m i)

def engineDrain (e : Engine) (s : DmaEngineState) (m : Mem) (out : ℕ → Cqe) (max : BitVec 64) :
    DrainResult :=
  let n := e.drainCount max (ioread32 s Reg.cqTail.offset)
  if n = 0 then { eng := e, out := out, ret := 0 }
  else
    { eng := { e with cqHead := e.cqHead + n }
      out := drainLoop e m out n.toNat
      ret := n.setWidth 64 }

def DrainResult.cqes (r : DrainResult) : List Cqe := (List.range r.ret.toNat).map r.out

def undrainedCount (e : Engine) (s : DmaEngineState) : ℕ := (s.cqTail - e.cqHead).toNat

/-- The undrained completion that was posted `i` after the oldest one. -/
def undrained (e : Engine) (m : Mem) (i : ℕ) : Cqe :=
  cqeLayout.load m e.cq ((e.cqHead.toNat + i) % e.cqDepth.toNat)

/-- The call returns as many completions as it may, the oldest ones, in order,
and nothing else happens to the array or the engine. -/
structure DrainsAll (e : Engine) (s : DmaEngineState) (m : Mem) (out : ℕ → Cqe) (max : BitVec 64) :
    Prop where
  returns : (engineDrain e s m out max).ret.toNat = min (undrainedCount e s) max.toNat
  fills : ∀ i, (engineDrain e s m out max).out i =
    if i < min (undrainedCount e s) max.toNat then undrained e m i else out i
  advances : (engineDrain e s m out max).eng =
    { e with cqHead := e.cqHead + BitVec.ofNat 32 (min (undrainedCount e s) max.toNat) }

/-- Two calls, with limits `x` and `y`, return together what one call with the sum
of the limits returns, and leave the engine as that one does. -/
def DrainsSplit (e : Engine) (s : DmaEngineState) (m : Mem) (out out₁ out₂ : ℕ → Cqe)
    (x y : BitVec 64) : Prop :=
  let first := engineDrain e s m out₁ x
  let second := engineDrain first.eng s m out₂ y
  let whole := engineDrain e s m out (x + y)
  first.cqes ++ second.cqes = whole.cqes ∧ second.eng = whole.eng

/-! ### What a call does -/

theorem toNat_drainCount (e : Engine) (s : DmaEngineState) (max : BitVec 64) :
    (e.drainCount max s.cqTail).toNat = min (undrainedCount e s) (max.toNat % 2 ^ 32) := by
  rw [Engine.drainCount, undrainedCount]
  split <;> rename_i h
  · rw [BitVec.lt_def, BitVec.toNat_setWidth] at h
    rw [BitVec.toNat_setWidth]
    omega
  · rw [BitVec.lt_def, BitVec.toNat_setWidth] at h
    omega

theorem drainLoop_eq (e : Engine) (m : Mem) (out : ℕ → Cqe) (n i : ℕ) :
    drainLoop e m out n i = if i < n then e.cqe m i else out i := by
  induction n with
  | zero => rfl
  | succ n ih =>
      rw [drainLoop, Function.update_apply, ih]
      by_cases hi : i = n
      · rw [if_pos hi, if_pos (by omega), hi]
      · rw [if_neg hi]
        by_cases hlt : i < n
        · rw [if_pos hlt, if_pos (by omega)]
        · rw [if_neg hlt, if_neg (by omega)]

/-- The slot of an index that may have wrapped. -/
theorem cqe_eq_undrained {e : Engine} (hpow : e.cqDepth.toNat.isPowerOfTwo) (m : Mem) (i : ℕ) :
    e.cqe m i = undrained e m i := by
  have hidx : e.cqHead + BitVec.ofNat 32 i = BitVec.ofNat 32 (e.cqHead.toNat + i) := by
    rw [BitVec.ofNat_add, BitVec.ofNat_toNat, BitVec.setWidth_eq]
  rw [Engine.cqe, cqSlot_eq, hidx, toNat_ofNat_and_sub_one hpow]
  rfl

def drainedCount (e : Engine) (s : DmaEngineState) (max : BitVec 64) : ℕ :=
  min (undrainedCount e s) (max.toNat % 2 ^ 32)

/-- **What `engine_drain` does.** -/
theorem engineDrain_eq {e : Engine} (hpow : e.cqDepth.toNat.isPowerOfTwo) (s : DmaEngineState)
    (m : Mem) (out : ℕ → Cqe) (max : BitVec 64) :
    engineDrain e s m out max =
      { eng := { e with cqHead := e.cqHead + BitVec.ofNat 32 (drainedCount e s max) }
        out := fun i => if i < drainedCount e s max then undrained e m i else out i
        ret := BitVec.ofNat 64 (drainedCount e s max) } := by
  have hread : ioread32 s Reg.cqTail.offset = s.cqTail := rfl
  rw [engineDrain, hread, drainedCount, ← toNat_drainCount]
  set n := e.drainCount max s.cqTail
  by_cases hn : n = 0
  · rw [if_pos hn, hn]
    simp
  · have hloop : drainLoop e m out n.toNat =
        fun i => if i < n.toNat then undrained e m i else out i := by
      funext i
      rw [drainLoop_eq, cqe_eq_undrained hpow]
    have hword : BitVec.ofNat 32 n.toNat = n := by
      rw [BitVec.ofNat_toNat, BitVec.setWidth_eq]
    rw [if_neg hn, hloop, hword, ← BitVec.ofNat_toNat]

theorem eng_engineDrain {e : Engine} (hpow : e.cqDepth.toNat.isPowerOfTwo) (s : DmaEngineState)
    (m : Mem) (out : ℕ → Cqe) (max : BitVec 64) :
    (engineDrain e s m out max).eng =
      { e with cqHead := e.cqHead + BitVec.ofNat 32 (drainedCount e s max) } := by
  rw [engineDrain_eq hpow]

theorem drainedCount_lt (e : Engine) (s : DmaEngineState) (max : BitVec 64) :
    drainedCount e s max < 2 ^ 32 := by
  have := Nat.mod_lt max.toNat (show 0 < 2 ^ 32 by decide)
  rw [drainedCount]
  omega

theorem toNat_ret {e : Engine} (hpow : e.cqDepth.toNat.isPowerOfTwo) (s : DmaEngineState)
    (m : Mem) (out : ℕ → Cqe) (max : BitVec 64) :
    (engineDrain e s m out max).ret.toNat = drainedCount e s max := by
  have := drainedCount_lt e s max
  rw [engineDrain_eq hpow, BitVec.toNat_ofNat, Nat.mod_eq_of_lt (by omega)]

theorem cqes_engineDrain {e : Engine} (hpow : e.cqDepth.toNat.isPowerOfTwo) (s : DmaEngineState)
    (m : Mem) (out : ℕ → Cqe) (max : BitVec 64) :
    (engineDrain e s m out max).cqes =
      (List.range (drainedCount e s max)).map (undrained e m) := by
  rw [DrainResult.cqes, toNat_ret hpow, engineDrain_eq hpow]
  refine List.map_congr_left fun i hi => ?_
  exact if_pos (List.mem_range.mp hi)

/-! ### When it is all that the call may return -/

theorem drainedCount_eq_iff (e : Engine) (s : DmaEngineState) (max : BitVec 64) :
    drainedCount e s max = min (undrainedCount e s) max.toNat ↔
      max.toNat < 2 ^ 32 ∨ undrainedCount e s ≤ max.toNat % 2 ^ 32 := by
  rw [drainedCount]
  omega

theorem drainsAll_iff {e : Engine} (hpow : e.cqDepth.toNat.isPowerOfTwo) (s : DmaEngineState)
    (m : Mem) (out : ℕ → Cqe) (max : BitVec 64) :
    DrainsAll e s m out max ↔
      max.toNat < 2 ^ 32 ∨ undrainedCount e s ≤ max.toNat % 2 ^ 32 := by
  rw [← drainedCount_eq_iff]
  constructor
  · intro h
    rw [← toNat_ret hpow s m out, h.returns]
  · intro h
    constructor
    · rw [toNat_ret hpow, h]
    · intro i
      rw [engineDrain_eq hpow, h]
    · rw [engineDrain_eq hpow, h]

theorem undrainedCount_engineDrain {e : Engine} (hpow : e.cqDepth.toNat.isPowerOfTwo)
    (s : DmaEngineState) (m : Mem) (out : ℕ → Cqe) (max : BitVec 64) :
    undrainedCount (engineDrain e s m out max).eng s =
      undrainedCount e s - drainedCount e s max := by
  have hle : drainedCount e s max ≤ undrainedCount e s := Nat.min_le_left ..
  rw [engineDrain_eq hpow]
  simp only [undrainedCount] at hle ⊢
  bv_omega

theorem undrained_engineDrain {e : Engine} (hpow : e.cqDepth.toNat.isPowerOfTwo)
    (s : DmaEngineState) (m : Mem) (out : ℕ → Cqe) (max : BitVec 64) (i : ℕ) :
    undrained (engineDrain e s m out max).eng m i = undrained e m (drainedCount e s max + i) := by
  set e' : Engine := { e with cqHead := e.cqHead + BitVec.ofNat 32 (drainedCount e s max) } with he'
  have heng : (engineDrain e s m out max).eng = e' := by
    rw [engineDrain_eq hpow]
  have hidx : e'.cqHead + BitVec.ofNat 32 i =
      e.cqHead + BitVec.ofNat 32 (drainedCount e s max + i) := by
    rw [he', BitVec.add_assoc, ← BitVec.ofNat_add]
  rw [heng, ← cqe_eq_undrained (e := e') hpow, Engine.cqe, hidx]
  exact cqe_eq_undrained hpow m _

theorem drainedCount_engineDrain {e : Engine} (hpow : e.cqDepth.toNat.isPowerOfTwo)
    (s : DmaEngineState) (m : Mem) (out : ℕ → Cqe) (x y : BitVec 64) :
    drainedCount (engineDrain e s m out x).eng s y =
      min (undrainedCount e s - drainedCount e s x) (y.toNat % 2 ^ 32) := by
  rw [drainedCount, undrainedCount_engineDrain hpow]

theorem isPowerOfTwo_engineDrain {e : Engine} (hpow : e.cqDepth.toNat.isPowerOfTwo)
    (s : DmaEngineState) (m : Mem) (out : ℕ → Cqe) (max : BitVec 64) :
    (engineDrain e s m out max).eng.cqDepth.toNat.isPowerOfTwo := by
  rw [engineDrain_eq hpow]
  exact hpow

theorem cqes_append {e : Engine} (hpow : e.cqDepth.toNat.isPowerOfTwo) (s : DmaEngineState)
    (m : Mem) (out out' : ℕ → Cqe) (x y : BitVec 64) :
    (engineDrain e s m out x).cqes ++
        (engineDrain (engineDrain e s m out x).eng s m out' y).cqes =
      (List.range (drainedCount e s x +
        drainedCount (engineDrain e s m out x).eng s y)).map (undrained e m) := by
  have hnext := undrained_engineDrain hpow s m out x
  rw [cqes_engineDrain (isPowerOfTwo_engineDrain hpow s m out x), cqes_engineDrain hpow,
    List.range_add, List.map_append, List.map_map]
  exact congrArg (_ ++ ·) (List.map_congr_left fun i _ => hnext i)

theorem eng_engineDrain_engineDrain {e : Engine} (hpow : e.cqDepth.toNat.isPowerOfTwo)
    (s : DmaEngineState) (m : Mem) (out out' : ℕ → Cqe) (x y : BitVec 64) :
    (engineDrain (engineDrain e s m out x).eng s m out' y).eng =
      { e with cqHead := e.cqHead + BitVec.ofNat 32 (drainedCount e s x +
          drainedCount (engineDrain e s m out x).eng s y) } := by
  have hfirst := eng_engineDrain hpow s m out x
  have hsecond := eng_engineDrain (isPowerOfTwo_engineDrain hpow s m out x) s m out' y
  have hword : ∀ n, e.cqHead + BitVec.ofNat 32 (drainedCount e s x) + BitVec.ofNat 32 n =
      e.cqHead + BitVec.ofNat 32 (drainedCount e s x + n) := by
    intro n
    rw [BitVec.add_assoc, BitVec.ofNat_add]
  rw [hsecond, ← hword]
  simp only [hfirst]

theorem drainsSplit_iff {e : Engine} (hpow : e.cqDepth.toNat.isPowerOfTwo) (s : DmaEngineState)
    (m : Mem) (out out₁ out₂ : ℕ → Cqe) {x y : BitVec 64} (hsum : x.toNat + y.toNat < 2 ^ 64) :
    DrainsSplit e s m out out₁ out₂ x y ↔
      x.toNat % 2 ^ 32 + y.toNat % 2 ^ 32 < 2 ^ 32 ∨
        undrainedCount e s + 2 ^ 32 ≤ x.toNat % 2 ^ 32 + y.toNat % 2 ^ 32 := by
  have hadd : (x + y).toNat = x.toNat + y.toNat := by
    rw [BitVec.toNat_add, Nat.mod_eq_of_lt hsum]
  have hcount : drainedCount e s x + drainedCount (engineDrain e s m out₁ x).eng s y =
          drainedCount e s (x + y) ↔
      x.toNat % 2 ^ 32 + y.toNat % 2 ^ 32 < 2 ^ 32 ∨
        undrainedCount e s + 2 ^ 32 ≤ x.toNat % 2 ^ 32 + y.toNat % 2 ^ 32 := by
    rw [drainedCount_engineDrain hpow, drainedCount, drainedCount, hadd]
    omega
  rw [← hcount]
  constructor
  · rintro ⟨hcqes, -⟩
    rw [cqes_append hpow, cqes_engineDrain hpow] at hcqes
    have hlen := congrArg List.length hcqes
    rwa [List.length_map, List.length_map, List.length_range, List.length_range] at hlen
  · intro h
    constructor
    · rw [cqes_append hpow, cqes_engineDrain hpow, h]
    · rw [eng_engineDrain_engineDrain hpow, h, engineDrain_eq hpow]

/-- **`engine_drain` returns everything it may exactly when the narrowed limit
covers it**, and two calls do the work of one under the same reservation. -/
theorem drain_exact_iff {e : Engine} (hpow : e.cqDepth.toNat.isPowerOfTwo) (s : DmaEngineState)
    (m : Mem) :
    (∀ out max, DrainsAll e s m out max ↔
      max.toNat < 2 ^ 32 ∨ undrainedCount e s ≤ max.toNat % 2 ^ 32) ∧
    ∀ out out₁ out₂ x y, x.toNat + y.toNat < 2 ^ 64 →
      (DrainsSplit e s m out out₁ out₂ x y ↔
        x.toNat % 2 ^ 32 + y.toNat % 2 ^ 32 < 2 ^ 32 ∨
          undrainedCount e s + 2 ^ 32 ≤ x.toNat % 2 ^ 32 + y.toNat % 2 ^ 32) :=
  ⟨drainsAll_iff hpow s m, fun out out₁ out₂ _ _ => drainsSplit_iff hpow s m out out₁ out₂⟩

def postedOne : DmaEngineState := { DmaEngineState.fresh with cqDepth := 2, cqTail := 1 }

/-- The engine that has not drained it. -/
def undrainedOne : Engine where
  sq := 0
  sqDepth := 2
  sqTail := 1
  cq := 0x1000
  cqDepth := 2
  cqHead := 0

theorem drain_exact_iff_undrainedOne :
    DrainsAll undrainedOne postedOne (fun _ => 0) (fun _ => ⟨0, 0, 0⟩) 1 ∧
      DrainsSplit undrainedOne postedOne (fun _ => 0) (fun _ => ⟨0, 0, 0⟩) (fun _ => ⟨0, 0, 0⟩)
        (fun _ => ⟨0, 0, 0⟩) 1 1 := by
  have h := drain_exact_iff (e := undrainedOne) ⟨1, rfl⟩ postedOne fun _ => 0
  exact ⟨(h.1 _ 1).mpr (by decide), (h.2 _ _ _ 1 1 (by decide)).mpr (by decide)⟩

theorem drain_limit_narrowed :
    undrainedOne.cqDepth.toNat.isPowerOfTwo ∧
      undrainedCount undrainedOne postedOne = 1 ∧
      (engineDrain undrainedOne postedOne (fun _ => 0) (fun _ => ⟨0, 0, 0⟩) 0x100000000).ret = 0 ∧
      ¬ DrainsAll undrainedOne postedOne (fun _ => 0) (fun _ => ⟨0, 0, 0⟩) 0x100000000 ∧
      ¬ DrainsSplit undrainedOne postedOne (fun _ => 0) (fun _ => ⟨0, 0, 0⟩)
        (fun _ => ⟨0, 0, 0⟩) (fun _ => ⟨0, 0, 0⟩) 0xFFFFFFFF 1 := by
  have hpow : undrainedOne.cqDepth.toNat.isPowerOfTwo := ⟨1, rfl⟩
  refine ⟨hpow, rfl, rfl, ?_, ?_⟩
  · rw [drainsAll_iff hpow]
    decide
  · rw [drainsSplit_iff hpow _ _ _ _ _ (by decide)]
    decide

/-! ### The driver thread left to itself -/

theorem exec_copyOut {w : World} {n : Word} {i j : ℕ} (hle : i + j ≤ n.toNat)
    (hd : w.driver = .copyOut w.eng.cqHead n ((List.range i).map (w.eng.cqe w.mem))) :
    exec step w (List.replicate j .driver) =
      some { w with
        driver := .copyOut w.eng.cqHead n ((List.range (i + j)).map (w.eng.cqe w.mem)) } := by
  induction j generalizing w i with
  | zero =>
      rw [Nat.add_zero, ← hd]
      rfl
  | succ j ih =>
      have hstep : step w .driver = some { w with
          driver := .copyOut w.eng.cqHead n ((List.range (i + 1)).map (w.eng.cqe w.mem)) } := by
        simp only [step, driverStep, hd, List.length_map, List.length_range]
        rw [if_pos (by omega), List.range_succ, List.map_append]
        rfl
      rw [List.replicate_succ, exec, hstep, Option.bind_some, ih (by omega) rfl]
      rw [Nat.add_right_comm, Nat.add_assoc]

/-- The actions of a call: enter it, read the device's tail, copy, and store `cq_head`. -/
def drainCall (w : World) (max : BitVec 64) : List Action :=
  let n := w.eng.drainCount max w.dev.cqTail
  [.drain max, .driver] ++ if n = 0 then [] else List.replicate n.toNat .driver ++ [.driver]

theorem cqes_engineDrain_eq (e : Engine) (s : DmaEngineState) (m : Mem) (out : ℕ → Cqe)
    (max : BitVec 64) :
    (engineDrain e s m out max).cqes =
      (List.range (e.drainCount max s.cqTail).toNat).map (e.cqe m) := by
  have hread : ioread32 s Reg.cqTail.offset = s.cqTail := rfl
  rw [engineDrain, hread]
  set n := e.drainCount max s.cqTail
  by_cases hn : n = 0
  · rw [if_pos hn, hn]
    simp [DrainResult.cqes]
  · have hret : (n.setWidth 64).toNat = n.toNat :=
      BitVec.toNat_setWidth_of_le (by decide)
    rw [if_neg hn, DrainResult.cqes, hret]
    refine List.map_congr_left fun i hi => ?_
    have hcopied := drainLoop_eq e m out n.toNat i
    rwa [if_pos (List.mem_range.mp hi)] at hcopied

/-- **A call of the driver that nothing interrupts does what `engineDrain` says.** -/
theorem exec_drainCall {w : World} (hout : w.driver.outside = true) (max : BitVec 64)
    (out : ℕ → Cqe) :
    exec step w (drainCall w max) =
      some { w with
        eng := (engineDrain w.eng w.dev w.mem out max).eng
        driver := .returned (.size (w.eng.drainCount max w.dev.cqTail)
          (engineDrain w.eng w.dev w.mem out max).cqes)
        drained := w.drained ++ (engineDrain w.eng w.dev w.mem out max).cqes } := by
  have henter : step w (.drain max) = some { w with driver := .readTail max } := by
    simp only [step, enter]
    cases hd : w.driver <;> simp_all [Driver.outside]
  have hread : ioread32 w.dev Reg.cqTail.offset = w.dev.cqTail := rfl
  have hcqes := cqes_engineDrain_eq w.eng w.dev w.mem out max
  rw [hcqes, engineDrain, hread, drainCall]
  set n := w.eng.drainCount max w.dev.cqTail with hn
  have htail : step { w with driver := .readTail max } .driver =
      some { w with driver := w.eng.drainCheck max w.dev.cqTail } := rfl
  rw [exec_append, exec, henter, Option.bind_some, exec, htail, Option.bind_some, exec_nil,
    Option.bind_some]
  by_cases hzero : n = 0
  · rw [if_pos hzero, if_pos hzero, hzero]
    simp [Engine.drainCheck, ← hn, hzero]
  · have hcheck : w.eng.drainCheck max w.dev.cqTail = .copyOut w.eng.cqHead n [] :=
      if_neg hzero
    rw [if_neg hzero, if_neg hzero, exec_append, hcheck,
      exec_copyOut (i := 0) (n := n) (by omega) rfl, Option.bind_some]
    simp [exec, step, driverStep]

end SystemsPrep.Dma
