import SystemsPrep.Base.Halting
import SystemsPrep.Dma.Process

/-!
Transfers of the device that hit its own registers.

A `pci_dma_read` or `pci_dma_write` of the timer callback may be aimed at BAR0 of the
device itself, where it is carried out as register accesses, a word at a time. The
addresses come from the guest. The bound of the loop is one of those registers: a
submission that has the device write its doorbell moves the end of the loop away.
-/

namespace SystemsPrep.Dma

open Base

def barSize : ℕ := 4096

/-! ### Transfers -/

/-- Byte `i` of a `pci_dma_read` of `len` bytes. A register answers for whole aligned
words only. -/
def dmaReadByte (bar : Addr) (s : DmaEngineState) (m : Mem) (addr : Addr) (len i : ℕ) : Byte :=
  let a := addr + BitVec.ofNat 64 i
  let off := (a - bar).toNat
  if Covers bar barSize a then
    if off % 4 ≤ i ∧ i + 4 ≤ len + off % 4 then
      (toLE 4 (dmaEngineMmioRead s (off - off % 4)).toNat).getD (off % 4) 0
    else 0
  else m a

/-- A `pci_dma_write`, with those bytes of it that are carried out. -/
structure DmaWrite where
  addr : Addr
  len : ℕ
  bytes : ℕ → Option Byte

namespace DmaWrite

def word (x : DmaWrite) (i : ℕ) : Option (BitVec 64) :=
  match x.bytes i, x.bytes (i + 1), x.bytes (i + 2), x.bytes (i + 3) with
  | some b₀, some b₁, some b₂, some b₃ => some (BitVec.ofNat 64 (ofLE [b₀, b₁, b₂, b₃]))
  | _, _, _, _ => none

/-- The register access that begins with byte `i`: its offset and value. -/
def access (x : DmaWrite) (bar : Addr) (i : ℕ) : Option (ℕ × BitVec 64) :=
  let a := x.addr + BitVec.ofNat 64 i
  if Covers bar barSize a ∧ (a - bar).toNat % 4 = 0 ∧ i + 4 ≤ x.len then
    (x.word i).map fun v => ((a - bar).toNat, v)
  else none

def accesses (x : DmaWrite) (bar : Addr) : List (ℕ × BitVec 64) :=
  (List.range x.len).filterMap (x.access bar)

def dev (x : DmaWrite) (bar : Addr) (s : DmaEngineState) : DmaEngineState :=
  (x.accesses bar).foldl (fun s p => dmaEngineMmioWrite s p.1 p.2) s

def mem (x : DmaWrite) (bar : Addr) (m : Mem) : Mem :=
  m.patch x.addr x.len fun i =>
    if Covers bar barSize (x.addr + BitVec.ofNat 64 i) then none else x.bytes i

/-- The write sets `REG_SQ_DOORBELL`. -/
def RingsDoorbell (x : DmaWrite) (bar : Addr) : Prop :=
  ∃ p ∈ x.accesses bar, p.1 = Reg.sqDoorbell.offset

end DmaWrite

/-- `pci_dma_write(pdev, sqe.buf_addr, s->dev_buf, len)`. -/
def rxWrite (s : DmaEngineState) (sqe : Sqe) (r : DmaResult) : DmaWrite where
  addr := sqe.bufAddr
  len := (clampLen sqe.len).toNat
  bytes := match r with
    | .ok => fun i => some (s.devBuf i)
    | .error landed => landed

/-- `pci_dma_write(pdev, cqe_addr, &cqe, sizeof(cqe))`. -/
def cqeWrite (s : DmaEngineState) (cqe : Cqe) : DmaWrite where
  addr := s.cqeAddr
  len := 16
  bytes i := (cqeLayout.bytes cqe)[i]?

/-- The device buffer after `pci_dma_read(pdev, sqe.buf_addr, s->dev_buf, len)`. -/
def txRead (bar : Addr) (s : DmaEngineState) (m : Mem) (sqe : Sqe) : DmaResult → ℕ → Byte
  | .ok, i =>
      if i < (clampLen sqe.len).toNat then
        dmaReadByte bar s m sqe.bufAddr (clampLen sqe.len).toNat i
      else s.devBuf i
  | .error landed, i =>
      if i < (clampLen sqe.len).toNat then (landed i).getD (s.devBuf i) else s.devBuf i

/-- Step 2 of the loop body, wherever the data buffer is. -/
def loopbackDma (bar : Addr) (s : DmaEngineState) (m : Mem) (sqe : Sqe) (r : DmaResult) :
    DmaEngineState × Mem × Cqe :=
  let len := clampLen sqe.len
  let cqe (status : Word) : Cqe :=
    { cookie := sqe.cookie, status := status, bytesXferred := if status = 0 then len else 0 }
  if sqe.op = opTx then
    ({ s with devBuf := txRead bar s m sqe r }, m, cqe (if r.failed then dmaError else 0))
  else if sqe.op = opRx then
    ((rxWrite s sqe r).dev bar s, (rxWrite s sqe r).mem bar m,
      cqe (if r.failed then dmaError else 0))
  else (s, m, cqe unknownOp)

/-- The next step of `dma_engine_process` on a device whose BAR0 is at `bar`. -/
def loopbackStep (bar : Addr) (p : Processing) (b : Bus) : Option Processing :=
  match p.callback with
  | .idle => none
  | .loop didWork =>
      if p.dev.sqHead = p.dev.sqTail ∨ p.dev.cqFull then
        some { p with
          dev := if didWork then dmaEngineRaiseIrq p.dev else p.dev
          callback := .idle }
      else
        some { p with
          callback := .transfer
            (if b.master then
              sqeLayout.ofBytes
                ((List.range 24).map (dmaReadByte bar p.dev p.mem p.dev.sqeAddr 24))
            else b.stack) }
  | .transfer sqe =>
      let (dev, mem, cqe) := loopbackDma bar p.dev p.mem sqe b.outcome
      some { dev := dev, callback := .writeCqe cqe, mem := mem }
  | .writeCqe cqe =>
      some
        (if b.master then
          { dev := (cqeWrite p.dev cqe).dev bar p.dev
            callback := .advance cqe
            mem := (cqeWrite p.dev cqe).mem bar p.mem }
        else { p with callback := .advance cqe })
  | .advance _ =>
      some { p with
        dev := { p.dev with sqHead := p.dev.sqHead + 1, cqTail := p.dev.cqTail + 1 }
        callback := .loop true }

def Processing.dmaWrite (p : Processing) (b : Bus) : Option DmaWrite :=
  match p.callback with
  | .transfer sqe => if sqe.op = opRx then some (rxWrite p.dev sqe b.outcome) else none
  | .writeCqe cqe => if b.master then some (cqeWrite p.dev cqe) else none
  | _ => none

/-- The next step of the callback has the device write its own doorbell. -/
def Processing.RingsDoorbell (bar : Addr) (p : Processing) (b : Bus) : Prop :=
  ∃ x ∈ p.dmaWrite b, x.RingsDoorbell bar

theorem loopbackStep_eq_none {bar : Addr} {p : Processing} {b : Bus} :
    loopbackStep bar p b = none ↔ p.callback = .idle := by
  unfold loopbackStep
  cases hc : p.callback with
  | loop =>
      simp only [reduceCtorEq, iff_false]
      split <;> simp
  | _ => simp

/-! ### Transfers that miss BAR0 -/

theorem dmaReadByte_of_apart {bar : Addr} {s : DmaEngineState} {m : Mem} {addr : Addr} {len i : ℕ}
    (h : Apart addr len bar barSize) (hi : i < len) :
    dmaReadByte bar s m addr len i = m (addr + BitVec.ofNat 64 i) :=
  if_neg (h _ (covers_add hi))

theorem map_dmaReadByte_of_apart {bar : Addr} {s : DmaEngineState} {m : Mem} {addr : Addr}
    {len : ℕ} (h : Apart addr len bar barSize) :
    (List.range len).map (dmaReadByte bar s m addr len) = m.read addr len :=
  List.map_congr_left fun _ hi => dmaReadByte_of_apart h (List.mem_range.mp hi)

namespace DmaWrite

variable {x : DmaWrite} {bar : Addr}

theorem accesses_of_apart (h : Apart x.addr x.len bar barSize) : x.accesses bar = [] := by
  refine List.filterMap_eq_nil_iff.mpr fun i hi => if_neg fun haccess => ?_
  exact h _ (covers_add (List.mem_range.mp hi)) haccess.1

theorem dev_of_apart (h : Apart x.addr x.len bar barSize) (s : DmaEngineState) :
    x.dev bar s = s := by
  rw [dev, accesses_of_apart h]
  rfl

theorem mem_of_apart (h : Apart x.addr x.len bar barSize) (m : Mem) :
    x.mem bar m = m.patch x.addr x.len x.bytes := by
  funext a
  unfold mem Mem.patch
  by_cases ha : Covers x.addr x.len a
  · have hmiss := h _ (@covers_add x.addr x.len (a - x.addr).toNat ha)
    simp only [if_pos ha, if_neg hmiss]
  · simp only [if_neg ha]

end DmaWrite

/-- The transfer of the next step, if it makes one, misses BAR0. -/
def Processing.MissesBar0 (bar : Addr) (p : Processing) : Prop :=
  match p.callback with
  | .loop _ => Apart p.dev.sqeAddr 24 bar barSize
  | .transfer sqe => Apart sqe.bufAddr (clampLen sqe.len).toNat bar barSize
  | .writeCqe _ => Apart p.dev.cqeAddr 16 bar barSize
  | .advance _ | .idle => True

theorem loopbackDma_eq_dataDma {bar : Addr} {sqe : Sqe}
    (h : Apart sqe.bufAddr (clampLen sqe.len).toNat bar barSize) (s : DmaEngineState) (m : Mem)
    (r : DmaResult) : loopbackDma bar s m sqe r = dataDma s m sqe r := by
  have htx : txRead bar s m sqe r = dmaReadBuf m sqe.bufAddr (clampLen sqe.len) s.devBuf r := by
    funext i
    cases r with
    | ok =>
        simp only [txRead, dmaReadBuf]
        split <;> rename_i hi
        · exact dmaReadByte_of_apart h hi
        · rfl
    | error landed => rfl
  have hmem : (rxWrite s sqe r).mem bar m =
      dmaWriteBuf m sqe.bufAddr (clampLen sqe.len) s.devBuf r := by
    rw [DmaWrite.mem_of_apart (x := rxWrite s sqe r) h]
    cases r <;> rfl
  unfold loopbackDma dataDma
  rw [htx, hmem, DmaWrite.dev_of_apart (x := rxWrite s sqe r) h]

/-- A step whose transfer misses BAR0 is a step of the callback on ordinary memory. -/
theorem loopbackStep_eq_processStep {bar : Addr} {p : Processing} (h : p.MissesBar0 bar)
    (b : Bus) : loopbackStep bar p b = processStep p b := by
  unfold Processing.MissesBar0 at h
  unfold loopbackStep processStep callbackStep
  cases hc : p.callback with
  | idle => rfl
  | loop didWork =>
      simp only [hc] at h
      simp only [map_dmaReadByte_of_apart h]
      split <;> rfl
  | transfer sqe =>
      simp only [hc] at h
      simp only [loopbackDma_eq_dataDma h]
      rfl
  | writeCqe cqe =>
      simp only [hc] at h
      have hlen : (cqeLayout.bytes cqe).length = 16 := cqeLayout.length_bytes cqe
      have hmem : (cqeWrite p.dev cqe).mem bar p.mem =
          p.mem.write p.dev.cqeAddr (cqeLayout.bytes cqe) := by
        rw [DmaWrite.mem_of_apart (x := cqeWrite p.dev cqe) h, Mem.write, hlen]
        rfl
      simp only [hmem, DmaWrite.dev_of_apart (x := cqeWrite p.dev cqe) h]
      split <;> rfl
  | advance cqe => rfl

/-- So is a run, and what is proved of those holds of it. -/
theorem exec_loopbackStep {bar : Addr} {p : Processing} {bus : List Bus}
    (h : Steps processStep (fun p _ _ => p.MissesBar0 bar) p bus) :
    exec (loopbackStep bar) p bus = exec processStep p bus := by
  induction bus generalizing p with
  | nil => rfl
  | cons b bus ih =>
      rw [steps_cons] at h
      cases hs : processStep p b with
      | none =>
          have hidle : p.callback = .idle := by
            cases hc : p.callback with
            | idle => rfl
            | loop => simp [processStep, callbackStep, hc] at hs; split at hs <;> cases hs
            | _ => simp [processStep, callbackStep, hc] at hs
          simp [exec, hs, loopbackStep_eq_none.mpr hidle]
      | some p' =>
          obtain ⟨hmiss, hrest⟩ := h p' hs
          simp only [exec, loopbackStep_eq_processStep hmiss, hs, Option.bind_some]
          exact ih hrest

/-! ### Registers -/

theorem Reg.offset_of_ofOffset {r : Reg} {off : ℕ} (h : Reg.ofOffset off = some r) :
    r.offset = off := by
  simpa using List.find?_some h

theorem lowerIrq_indices (s : DmaEngineState) :
    (dmaEngineLowerIrq s).sqHead = s.sqHead ∧ (dmaEngineLowerIrq s).sqTail = s.sqTail := by
  rw [dmaEngineLowerIrq]
  split <;> exact ⟨rfl, rfl⟩

/-- The device's indices are read-only, and only a doorbell sets `sq_tail`. -/
theorem mmioWrite_indices (s : DmaEngineState) (off : ℕ) (v : BitVec 64) :
    (dmaEngineMmioWrite s off v).sqHead = s.sqHead ∧
      (off ≠ Reg.sqDoorbell.offset → (dmaEngineMmioWrite s off v).sqTail = s.sqTail) := by
  unfold dmaEngineMmioWrite
  split <;> rename_i hreg
  case h_7 => exact ⟨rfl, fun hne => absurd (Reg.offset_of_ofOffset hreg).symm hne⟩
  case h_8 => exact ⟨(lowerIrq_indices s).1, fun _ => (lowerIrq_indices s).2⟩
  all_goals exact ⟨rfl, fun _ => rfl⟩

theorem foldl_mmioWrite_indices (ps : List (ℕ × BitVec 64)) (s : DmaEngineState) :
    (ps.foldl (fun s p => dmaEngineMmioWrite s p.1 p.2) s).sqHead = s.sqHead ∧
      ((∀ p ∈ ps, p.1 ≠ Reg.sqDoorbell.offset) →
        (ps.foldl (fun s p => dmaEngineMmioWrite s p.1 p.2) s).sqTail = s.sqTail) := by
  induction ps generalizing s with
  | nil => exact ⟨rfl, fun _ => rfl⟩
  | cons p ps ih =>
      obtain ⟨hhead, htail⟩ := mmioWrite_indices s p.1 p.2
      obtain ⟨ihHead, ihTail⟩ := ih (dmaEngineMmioWrite s p.1 p.2)
      refine ⟨ihHead.trans hhead, fun hne => ?_⟩
      rw [List.foldl_cons, ihTail fun q hq => hne q (List.mem_cons_of_mem p hq),
        htail (hne p (List.mem_cons_self ..))]

theorem DmaWrite.dev_indices (x : DmaWrite) (bar : Addr) (s : DmaEngineState) :
    (x.dev bar s).sqHead = s.sqHead ∧
      (¬ x.RingsDoorbell bar → (x.dev bar s).sqTail = s.sqTail) := by
  obtain ⟨hhead, htail⟩ := foldl_mmioWrite_indices (x.accesses bar) s
  exact ⟨hhead, fun hrings => htail fun p hp heq => hrings ⟨p, hp, heq⟩⟩

theorem loopbackDma_indices (bar : Addr) (s : DmaEngineState) (m : Mem) (sqe : Sqe)
    (r : DmaResult) :
    (loopbackDma bar s m sqe r).1.sqHead = s.sqHead ∧
      ((sqe.op = opRx → ¬ (rxWrite s sqe r).RingsDoorbell bar) →
        (loopbackDma bar s m sqe r).1.sqTail = s.sqTail) := by
  unfold loopbackDma
  by_cases htx : sqe.op = opTx
  · simp [htx]
  · by_cases hrx : sqe.op = opRx
    · obtain ⟨hhead, htail⟩ := (rxWrite s sqe r).dev_indices bar s
      simp only [if_neg htx, if_pos hrx]
      exact ⟨hhead, fun hquiet => htail (hquiet hrx)⟩
    · simp [htx, hrx]

/-! ### What a step does to the distance -/

/-- The number of steps the callback has left, if nobody rings. -/
def Processing.left (p : Processing) : ℕ :=
  match p.callback with
  | .idle => 0
  | .loop _ => 4 * (p.dev.sqTail - p.dev.sqHead).toNat + 1
  | .transfer _ => 4 * (p.dev.sqTail - (p.dev.sqHead + 1)).toNat + 4
  | .writeCqe _ => 4 * (p.dev.sqTail - (p.dev.sqHead + 1)).toNat + 3
  | .advance _ => 4 * (p.dev.sqTail - (p.dev.sqHead + 1)).toNat + 2

theorem left_loopbackStep (bar : Addr) (p : Processing) (b : Bus) (p' : Processing)
    (hrings : ¬ p.RingsDoorbell bar b) (hs : loopbackStep bar p b = some p') :
    p'.left < p.left := by
  unfold loopbackStep at hs
  split at hs <;> rename_i hc
  · cases hs
  · split at hs <;> rename_i htest <;> cases hs <;> simp only [Processing.left, hc]
    · omega
    · rw [not_or] at htest
      have hne := htest.1
      bv_omega
  · rename_i sqe
    obtain ⟨hhead, htail⟩ := loopbackDma_indices bar p.dev p.mem sqe b.outcome
    have hquiet : sqe.op = opRx → ¬ (rxWrite p.dev sqe b.outcome).RingsDoorbell bar :=
      fun hrx hx => hrings ⟨_, by simp [Processing.dmaWrite, hc, hrx], hx⟩
    rw [Option.some.injEq] at hs
    rw [← hs]
    simp only [Processing.left, hc, hhead, htail hquiet]
    omega
  · rename_i cqe
    cases hs
    split <;> rename_i hmaster <;> simp only [Processing.left, hc]
    · obtain ⟨hhead, htail⟩ := (cqeWrite p.dev cqe).dev_indices bar p.dev
      have hquiet : ¬ (cqeWrite p.dev cqe).RingsDoorbell bar :=
        fun hx => hrings ⟨_, by simp [Processing.dmaWrite, hc, hmaster], hx⟩
      rw [hhead, htail hquiet]
      omega
    · omega
  · cases hs
    simp only [Processing.left, hc]
    omega

/-! ### The loop -/

def Ends (bar : Addr) (s : DmaEngineState) (m : Mem) (bus : ℕ → Bus) : Prop :=
  ∃ n p, along (loopbackStep bar) bus (.start s m) n = some p ∧ p.callback = .idle

/-- Up to the first time that the device rings its own doorbell, the loop has no more turns
than `sq_tail` is ahead of `sq_head`. -/
theorem ends_or_rings (bar : Addr) (s : DmaEngineState) (m : Mem) (bus : ℕ → Bus) :
    ∃ n ≤ 4 * (s.sqTail - s.sqHead).toNat + 1, ∃ p,
      along (loopbackStep bar) bus (.start s m) n = some p ∧
        (p.callback = .idle ∨ p.RingsDoorbell bar (bus n)) := by
  obtain ⟨n, hn, p, hp, hend⟩ := halts_or_breaks bus
    (fun p b p' => left_loopbackStep bar p b p') (.start s m)
  rw [loopbackStep_eq_none, not_not] at hend
  exact ⟨n, hn, p, hp, hend⟩

/-- The write of the next step, if it makes one, misses `REG_SQ_DOORBELL`. -/
def Processing.MissesDoorbell (bar : Addr) (p : Processing) : Prop :=
  let doorbell := bar + BitVec.ofNat 64 Reg.sqDoorbell.offset
  match p.callback with
  | .transfer sqe => sqe.op = opRx → Apart sqe.bufAddr (clampLen sqe.len).toNat doorbell 4
  | .writeCqe _ => Apart p.dev.cqeAddr 16 doorbell 4
  | .idle | .loop _ | .advance _ => True

theorem DmaWrite.not_ringsDoorbell_of_apart {x : DmaWrite} {bar : Addr}
    (h : Apart x.addr x.len (bar + BitVec.ofNat 64 Reg.sqDoorbell.offset) 4) :
    ¬ x.RingsDoorbell bar := by
  rintro ⟨q, hq, hoff⟩
  obtain ⟨i, hi, haccess⟩ := List.mem_filterMap.mp hq
  simp only [DmaWrite.access] at haccess
  split at haccess
  · obtain ⟨v, -, rfl⟩ := Option.map_eq_some_iff.mp haccess
    -- the access is to the first byte of the register
    have hfirst : x.addr + BitVec.ofNat 64 i = bar + BitVec.ofNat 64 Reg.sqDoorbell.offset := by
      have hsub : (x.addr + BitVec.ofNat 64 i - bar) = BitVec.ofNat 64 Reg.sqDoorbell.offset :=
        BitVec.eq_of_toNat_eq hoff
      rw [← hsub, BitVec.add_comm bar, BitVec.sub_add_cancel]
    refine h _ (covers_add (List.mem_range.mp hi)) ?_
    rw [hfirst, Covers, BitVec.sub_self]
    exact Nat.zero_lt_succ 3
  · cases haccess

theorem not_ringsDoorbell_of_misses {bar : Addr} {p : Processing} (h : p.MissesDoorbell bar)
    (b : Bus) : ¬ p.RingsDoorbell bar b := by
  rintro ⟨x, hx, hrings⟩
  unfold Processing.MissesDoorbell at h
  unfold Processing.dmaWrite at hx
  cases hc : p.callback with
  | transfer sqe =>
      simp only [hc, Option.mem_def, Option.ite_none_right_eq_some, Option.some.injEq] at h hx
      obtain ⟨hop, rfl⟩ := hx
      exact DmaWrite.not_ringsDoorbell_of_apart (x := rxWrite _ _ _) (h hop) hrings
  | writeCqe cqe =>
      simp only [hc, Option.mem_def, Option.ite_none_right_eq_some, Option.some.injEq] at h hx
      obtain ⟨-, rfl⟩ := hx
      exact DmaWrite.not_ringsDoorbell_of_apart (x := cqeWrite _ _) h hrings
  | idle | loop | advance => simp [hc] at hx

/-- The loop ends if no transfer that it makes and no completion that it writes reaches the
doorbell, wherever the rings and the buffers are by then. -/
theorem ends_of_missesDoorbell (bar : Addr) (s : DmaEngineState) (m : Mem) (bus : ℕ → Bus)
    (h : ∀ n p, along (loopbackStep bar) bus (.start s m) n = some p → p.MissesDoorbell bar) :
    ∃ n ≤ 4 * (s.sqTail - s.sqHead).toNat + 1, ∃ p,
      along (loopbackStep bar) bus (.start s m) n = some p ∧ p.callback = .idle := by
  obtain ⟨n, hn, p, hp, hend⟩ := ends_or_rings bar s m bus
  exact ⟨n, hn, p, hp, hend.resolve_right (not_ringsDoorbell_of_misses (h n p hp) (bus n))⟩

/-- **The loop ends exactly when the device rings its own doorbell finitely often.** Up to
the first time it does, there are no more turns than `sq_tail` is ahead of `sq_head`. -/
theorem ends_iff_rings_finitely (bar : Addr) (s : DmaEngineState) (m : Mem) (bus : ℕ → Bus) :
    (Ends bar s m bus ↔
      ∃ N, ∀ n ≥ N, ∀ p, along (loopbackStep bar) bus (.start s m) n = some p →
        ¬ p.RingsDoorbell bar (bus n)) ∧
      ∃ n ≤ 4 * (s.sqTail - s.sqHead).toNat + 1, ∃ p,
        along (loopbackStep bar) bus (.start s m) n = some p ∧
          (p.callback = .idle ∨ p.RingsDoorbell bar (bus n)) := by
  constructor
  · rw [← halts_iff_eventually (C := fun p b => ¬ p.RingsDoorbell bar b)
      (fun p b p' => left_loopbackStep bar p b p')]
    simp only [Ends, Halts, loopbackStep_eq_none]
  · exact ends_or_rings bar s m bus

/-! ### Two submissions that never end -/

theorem Reg.offset_le (r : Reg) : r.offset ≤ 48 ∧ r.offset % 4 = 0 := by
  cases r <;> decide

theorem toNat_add_add_sub (bar : Addr) {m n : ℕ} (h : m + n < 2 ^ 64) :
    (bar + BitVec.ofNat 64 m + BitVec.ofNat 64 n - bar).toNat = m + n := by
  rw [BitVec.add_assoc, ← BitVec.ofNat_add, add_ofNat_sub, BitVec.toNat_ofNat, Nat.mod_eq_of_lt h]

theorem dmaReadByte_reg (bar : Addr) (s : DmaEngineState) (m : Mem) (r : Reg) {i : ℕ}
    (hi : i < 4) :
    dmaReadByte bar s m (bar + BitVec.ofNat 64 r.offset) 4 i =
      (toLE 4 (dmaEngineMmioRead s r.offset).toNat).getD i 0 := by
  obtain ⟨hle, hmod⟩ := r.offset_le
  have hoff := toNat_add_add_sub bar (m := r.offset) (n := i) (by omega)
  have hrem : (r.offset + i) % 4 = i := by omega
  have hcovers : Covers bar barSize (bar + BitVec.ofNat 64 r.offset + BitVec.ofNat 64 i) := by
    rw [Covers, hoff, barSize]
    omega
  simp only [dmaReadByte, hoff, hrem, if_pos hcovers]
  rw [if_pos (by omega), Nat.add_sub_cancel]

theorem accesses_reg (bar : Addr) (r : Reg) (f : ℕ → Byte) :
    DmaWrite.accesses ⟨bar + BitVec.ofNat 64 r.offset, 4, fun i => some (f i)⟩ bar =
      [(r.offset, BitVec.ofNat 64 (ofLE [f 0, f 1, f 2, f 3]))] := by
  obtain ⟨hle, hmod⟩ := r.offset_le
  have hcovers : Covers bar barSize (bar + BitVec.ofNat 64 r.offset + BitVec.ofNat 64 0) := by
    rw [Covers, toNat_add_add_sub bar (by omega), barSize]
    omega
  have hfirst : DmaWrite.access ⟨bar + BitVec.ofNat 64 r.offset, 4, fun i => some (f i)⟩ bar 0 =
      some (r.offset, BitVec.ofNat 64 (ofLE [f 0, f 1, f 2, f 3])) := by
    simp only [DmaWrite.access, toNat_add_add_sub bar (m := r.offset) (n := 0) (by omega)]
    rw [if_pos ⟨hcovers, hmod, le_rfl⟩]
    rfl
  have hrest : ∀ i, i = 1 ∨ i = 2 ∨ i = 3 →
      DmaWrite.access ⟨bar + BitVec.ofNat 64 r.offset, 4, fun i => some (f i)⟩ bar i = none := by
    intro i hi
    simp only [DmaWrite.access, toNat_add_add_sub bar (m := r.offset) (n := i) (by omega)]
    exact if_neg (by omega)
  change List.filterMap _ [0, 1, 2, 3] = _
  simp [hfirst, hrest]

theorem mem_reg (bar : Addr) (r : Reg) (f : ℕ → Option Byte) (m : Mem) :
    DmaWrite.mem ⟨bar + BitVec.ofNat 64 r.offset, 4, f⟩ bar m = m := by
  obtain ⟨hle, -⟩ := r.offset_le
  funext a
  unfold DmaWrite.mem Mem.patch
  by_cases ha : Covers (bar + BitVec.ofNat 64 r.offset) 4 a
  · have hlt : (a - (bar + BitVec.ofNat 64 r.offset)).toNat < 4 := ha
    have hcovers : Covers bar barSize (bar + BitVec.ofNat 64 r.offset +
        BitVec.ofNat 64 (a - (bar + BitVec.ofNat 64 r.offset)).toNat) := by
      rw [Covers, toNat_add_add_sub bar (by omega), barSize]
      omega
    simp only [if_pos ha, if_pos hcovers]
    rfl
  · exact if_neg ha

def guestBar : Addr := 0xFEBF0000

def readsHead : Sqe :=
  { cookie := 1, bufAddr := guestBar + BitVec.ofNat 64 Reg.sqHead.offset, len := 4, op := opTx }

def ringsBack : Sqe :=
  { cookie := 2, bufAddr := guestBar + BitVec.ofNat 64 Reg.sqDoorbell.offset, len := 4, op := opRx }

/-- The device with the two submissions in a ring of two, and a doorbell rung for them. -/
def chaser : DmaEngineState :=
  { DmaEngineState.fresh with
    sqBase := 0x1000
    cqBase := 0x2000
    sqDepth := 2
    cqDepth := 2
    sqTail := 2 }

def chaserMem : Mem :=
  sqeLayout.store (sqeLayout.store (fun _ => 0) 0x1000 0 readsHead) 0x1000 1 ringsBack

def DmaEngineState.bufWord (s : DmaEngineState) : Word :=
  BitVec.ofNat 32 (ofLE [s.devBuf 0, s.devBuf 1, s.devBuf 2, s.devBuf 3])

/-- The rings stay as they are, and the two indices go together. -/
structure Chasing (p : Processing) : Prop where
  sqBase : p.dev.sqBase = 0x1000
  cqBase : p.dev.cqBase = 0x2000
  sqDepth : p.dev.sqDepth = 2
  cqDepth : p.dev.cqDepth = 2
  cqTail : p.dev.cqTail = p.dev.sqHead
  first : p.mem.read 0x1000 24 = sqeLayout.bytes readsHead
  second : p.mem.read 0x1018 24 = sqeLayout.bytes ringsBack

/-- On even turns the buffer gets the value of `sq_head`, on odd ones `sq_tail` gets what is
by then the value before: `sq_tail` is never met. -/
def NeverMeets (p : Processing) : Prop :=
  match p.callback with
  | .idle => False
  | .loop _ => p.dev.sqTail ≠ p.dev.sqHead ∧
      if p.dev.sqHead &&& 1 = 0 then p.dev.sqTail ≠ p.dev.sqHead + 1
      else p.dev.bufWord = p.dev.sqHead - 1
  | .transfer sqe =>
      if p.dev.sqHead &&& 1 = 0 then sqe = readsHead ∧ p.dev.sqTail ≠ p.dev.sqHead + 1
      else sqe = ringsBack ∧ p.dev.bufWord = p.dev.sqHead - 1
  | .writeCqe _ | .advance _ =>
      if p.dev.sqHead &&& 1 = 0 then
        p.dev.bufWord = p.dev.sqHead ∧ p.dev.sqTail ≠ p.dev.sqHead + 1
      else p.dev.sqTail = p.dev.sqHead - 1

section Chase

variable {p : Processing}

theorem toNat_and_one (x : Word) : (x &&& 1).toNat = x.toNat % 2 := by
  rw [BitVec.toNat_and]
  exact Nat.and_one_is_mod _

theorem and_one_eq_zero_iff (x : Word) : x &&& 1 = 0 ↔ x.toNat % 2 = 0 := by
  rw [← BitVec.toNat_inj, toNat_and_one]
  rfl

theorem succ_and_one (x : Word) : (x + 1) &&& 1 = 0 ↔ ¬ x &&& 1 = 0 := by
  have := x.isLt
  rw [and_one_eq_zero_iff, and_one_eq_zero_iff, BitVec.toNat_add]
  change (x.toNat + 1) % 2 ^ 32 % 2 = 0 ↔ _
  omega

theorem Chasing.sqeAddr (h : Chasing p) :
    p.dev.sqeAddr = if p.dev.sqHead &&& 1 = 0 then 0x1000 else 0x1018 := by
  rw [sqeAddr_eq, h.sqBase, h.sqDepth]
  have hmask : (2 : Word) - 1 = 1 := rfl
  rw [hmask, toNat_and_one]
  split <;> rename_i heven <;> rw [and_one_eq_zero_iff] at heven
  · rw [heven]
    rfl
  · rw [show p.dev.sqHead.toNat % 2 = 1 by omega]
    rfl

theorem Chasing.cqeAddr (h : Chasing p) : p.dev.cqeAddr = 0x2000 ∨ p.dev.cqeAddr = 0x2010 := by
  rw [cqeAddr_eq, h.cqBase, h.cqDepth]
  have hmask : (2 : Word) - 1 = 1 := rfl
  rw [hmask, toNat_and_one]
  rcases Nat.mod_two_eq_zero_or_one p.dev.cqTail.toNat with heven | hodd
  · rw [heven]
    exact Or.inl rfl
  · rw [hodd]
    exact Or.inr rfl

theorem Chasing.fetched (h : Chasing p) :
    sqeLayout.ofBytes
        ((List.range 24).map (dmaReadByte guestBar p.dev p.mem p.dev.sqeAddr 24)) =
      if p.dev.sqHead &&& 1 = 0 then readsHead else ringsBack := by
  rw [h.sqeAddr]
  split
  · rw [map_dmaReadByte_of_apart (apart_of_le (by decide) (by decide)), h.first,
      sqeLayout.ofBytes_bytes]
  · rw [map_dmaReadByte_of_apart (apart_of_le (by decide) (by decide)), h.second,
      sqeLayout.ofBytes_bytes]

theorem chase_loop (h : Chasing p) (hn : NeverMeets p) {didWork : Bool}
    (hc : p.callback = .loop didWork) :
    ∃ p', loopbackStep guestBar p (Bus.granted .ok) = some p' ∧ Chasing p' ∧ NeverMeets p' := by
  simp only [NeverMeets, hc] at hn
  obtain ⟨hwork, hturn⟩ := hn
  have hroom : p.dev.cqFull = false := cqFull_of_eq h.cqTail (by rw [h.cqDepth]; decide)
  refine ⟨{ p with
    callback := .transfer (if p.dev.sqHead &&& 1 = 0 then readsHead else ringsBack) }, ?_,
    { h with }, ?_⟩
  · simp [loopbackStep, hc, hwork.symm, hroom, Bus.granted, h.fetched]
  · simp only [NeverMeets]
    split <;> rename_i heven
    · rw [if_pos heven] at hturn
      exact ⟨rfl, hturn⟩
    · rw [if_neg heven] at hturn
      exact ⟨rfl, hturn⟩

theorem bufWord_txRead (s : DmaEngineState) (m : Mem) :
    DmaEngineState.bufWord { s with devBuf := txRead guestBar s m readsHead .ok } = s.sqHead := by
  have hbyte : ∀ i < 4, txRead guestBar s m readsHead .ok i =
      (toLE 4 s.sqHead.toNat).getD i 0 := by
    intro i hi
    have hread := dmaReadByte_reg guestBar s m .sqHead hi
    exact (if_pos hi).trans hread
  rw [DmaEngineState.bufWord]
  simp only [hbyte 0 (by decide), hbyte 1 (by decide), hbyte 2 (by decide), hbyte 3 (by decide)]
  exact ofNat_ofLE_toLE (n := 4) rfl s.sqHead

theorem rxWrite_ringsBack (s : DmaEngineState) (m : Mem) :
    (rxWrite s ringsBack .ok).dev guestBar s = { s with sqTail := s.bufWord, timerArmed := true } ∧
      (rxWrite s ringsBack .ok).mem guestBar m = m := by
  have hx : rxWrite s ringsBack .ok =
      ⟨guestBar + BitVec.ofNat 64 Reg.sqDoorbell.offset, 4, fun i => some (s.devBuf i)⟩ := rfl
  rw [hx, mem_reg, DmaWrite.dev, accesses_reg]
  refine ⟨?_, rfl⟩
  change { s with
    sqTail := (BitVec.ofNat 64 (ofLE _)).setWidth 32
    timerArmed := true } = _
  rw [BitVec.setWidth_ofNat_of_le (by decide)]
  rfl

theorem chase_transfer (h : Chasing p) (hn : NeverMeets p) {sqe : Sqe}
    (hc : p.callback = .transfer sqe) :
    ∃ p', loopbackStep guestBar p (Bus.granted .ok) = some p' ∧ Chasing p' ∧ NeverMeets p' := by
  simp only [NeverMeets, hc] at hn
  split at hn <;> rename_i heven
  · obtain ⟨rfl, htail⟩ := hn
    refine ⟨{ dev := { p.dev with devBuf := txRead guestBar p.dev p.mem readsHead .ok }
              callback := .writeCqe { cookie := 1, status := 0, bytesXferred := 4 }
              mem := p.mem }, ?_, { h with }, ?_⟩
    · simp only [loopbackStep, hc]
      rfl
    · simp only [NeverMeets]
      rw [if_pos heven]
      exact ⟨bufWord_txRead p.dev p.mem, htail⟩
  · obtain ⟨rfl, hword⟩ := hn
    obtain ⟨hdev, hmem⟩ := rxWrite_ringsBack p.dev p.mem
    have hdma : loopbackDma guestBar p.dev p.mem ringsBack (Bus.granted .ok).outcome =
        ((rxWrite p.dev ringsBack .ok).dev guestBar p.dev,
          (rxWrite p.dev ringsBack .ok).mem guestBar p.mem,
          { cookie := 2, status := 0, bytesXferred := 4 }) := rfl
    refine ⟨{ dev := { p.dev with sqTail := p.dev.bufWord, timerArmed := true }
              callback := .writeCqe { cookie := 2, status := 0, bytesXferred := 4 }
              mem := p.mem }, ?_, { h with }, ?_⟩
    · simp only [loopbackStep, hc, hdma, hdev, hmem]
    · simp only [NeverMeets]
      rw [if_neg heven]
      exact hword

theorem chase_writeCqe (h : Chasing p) (hn : NeverMeets p) {cqe : Cqe}
    (hc : p.callback = .writeCqe cqe) :
    ∃ p', loopbackStep guestBar p (Bus.granted .ok) = some p' ∧ Chasing p' ∧ NeverMeets p' := by
  simp only [NeverMeets, hc] at hn
  have hbar : Apart p.dev.cqeAddr 16 guestBar barSize := by
    rcases h.cqeAddr with heq | heq <;> rw [heq] <;> exact apart_of_le (by decide) (by decide)
  have hsq : Apart 0x1000 24 p.dev.cqeAddr 16 ∧ Apart 0x1018 24 p.dev.cqeAddr 16 := by
    rcases h.cqeAddr with heq | heq <;> rw [heq] <;>
      exact ⟨apart_of_le (by decide) (by decide), apart_of_le (by decide) (by decide)⟩
  have hdev : (cqeWrite p.dev cqe).dev guestBar p.dev = p.dev :=
    DmaWrite.dev_of_apart (x := cqeWrite p.dev cqe) hbar p.dev
  have hread : ∀ a, Apart a 24 p.dev.cqeAddr 16 →
      ((cqeWrite p.dev cqe).mem guestBar p.mem).read a 24 = p.mem.read a 24 := by
    intro a ha
    rw [DmaWrite.mem_of_apart (x := cqeWrite p.dev cqe) hbar]
    exact Mem.read_congr fun i hi => Mem.patch_of_not_covers (ha _ (covers_add hi))
  refine ⟨{ p with
    callback := .advance cqe
    mem := (cqeWrite p.dev cqe).mem guestBar p.mem }, ?_, ?_, ?_⟩
  · simp [loopbackStep, hc, Bus.granted, hdev]
  · exact { h with
      first := (hread _ hsq.1).trans h.first
      second := (hread _ hsq.2).trans h.second }
  · simpa only [NeverMeets] using hn

theorem chase_advance (h : Chasing p) (hn : NeverMeets p) {cqe : Cqe}
    (hc : p.callback = .advance cqe) :
    ∃ p', loopbackStep guestBar p (Bus.granted .ok) = some p' ∧ Chasing p' ∧ NeverMeets p' := by
  simp only [NeverMeets, hc] at hn
  refine ⟨{ p with
    dev := { p.dev with sqHead := p.dev.sqHead + 1, cqTail := p.dev.cqTail + 1 }
    callback := .loop true }, ?_, { h with cqTail := congrArg (· + 1) h.cqTail }, ?_⟩
  · simp only [loopbackStep, hc]
  · simp only [NeverMeets, succ_and_one]
    split at hn <;> rename_i heven
    · rw [if_neg (not_not.mpr heven)]
      refine ⟨hn.2, ?_⟩
      rw [BitVec.add_sub_cancel]
      exact hn.1
    · rw [if_pos heven, hn]
      constructor <;> bv_omega

end Chase

/-- The device goes round for ever. -/
theorem along_chaser (n : ℕ) :
    ∃ p, along (loopbackStep guestBar) (fun _ => Bus.granted .ok) (.start chaser chaserMem) n =
      some p ∧ Chasing p ∧ NeverMeets p := by
  induction n with
  | zero =>
      have hrings : Chasing (.start chaser chaserMem) :=
        { sqBase := rfl
          cqBase := rfl
          sqDepth := rfl
          cqDepth := rfl
          cqTail := rfl
          first := by decide +kernel
          second := by decide +kernel }
      refine ⟨_, rfl, hrings, ?_⟩
      refine ⟨by decide, ?_⟩
      rw [if_pos (by decide)]
      decide
  | succ n ih =>
      obtain ⟨p, hp, h, hn⟩ := ih
      have hnext : ∃ p', loopbackStep guestBar p (Bus.granted .ok) = some p' ∧ Chasing p' ∧
          NeverMeets p' := by
        cases hc : p.callback with
        | idle =>
            simp only [NeverMeets, hc] at hn
        | loop didWork => exact chase_loop h hn hc
        | transfer sqe => exact chase_transfer h hn hc
        | writeCqe cqe => exact chase_writeCqe h hn hc
        | advance cqe => exact chase_advance h hn hc
      obtain ⟨p', hp', h', hn'⟩ := hnext
      exact ⟨p', along_succ_eq_some.mpr ⟨p, hp, hp'⟩, h', hn'⟩

/-- The depths are powers of two, the doorbell says two, and the callback never returns. -/
theorem chaser_never_ends :
    chaser.sqDepth.toNat.isPowerOfTwo ∧ chaser.cqDepth.toNat.isPowerOfTwo ∧
      ¬ Ends guestBar chaser chaserMem fun _ => Bus.granted .ok := by
  refine ⟨⟨1, rfl⟩, ⟨1, rfl⟩, ?_⟩
  rintro ⟨n, p, hp, hidle⟩
  obtain ⟨q, hq, -, hn⟩ := along_chaser n
  obtain rfl : p = q := Option.some.inj (hp.symm.trans hq)
  simp only [NeverMeets, hidle] at hn

end SystemsPrep.Dma
