import SystemsPrep.Dma.Order

/-!
What the device buffer and the data buffers hold.

All transfers share one buffer of 4096 bytes on the device, and a TX replaces only as much of
it as it is long. So an RX may hand out bytes of many earlier TXs: byte `j` comes from the
latest one that was longer than `j`, as memory stood when that one was made. The law is
stated over the history of all data transfers of a run.
-/

namespace SystemsPrep.Dma

open Base

/-! ### One transfer -/

theorem toNat_clampLen (len : Word) : (clampLen len).toNat = min len.toNat 4096 := by
  have := len.isLt
  rw [clampLen_eq, BitVec.toNat_ofNat, Nat.mod_eq_of_lt (by omega)]

section DataDma

variable {s : DmaEngineState} {m : Mem} {sqe : Sqe} {r : DmaResult}

theorem dataDma_tx (h : sqe.op = opTx) : dataDma s m sqe r =
    ({ s with devBuf := dmaReadBuf m sqe.bufAddr (clampLen sqe.len) s.devBuf r }, m,
      completion sqe r.failed) := by
  rw [← dataDma_cqe s m]
  simp only [dataDma, h, if_true]

theorem dataDma_rx (h : sqe.op = opRx) : dataDma s m sqe r =
    (s, dmaWriteBuf m sqe.bufAddr (clampLen sqe.len) s.devBuf r, completion sqe r.failed) := by
  rw [← dataDma_cqe s m]
  simp only [dataDma, h, if_true, if_false, show opRx ≠ opTx by decide]

theorem dataDma_unknown (htx : sqe.op ≠ opTx) (hrx : sqe.op ≠ opRx) :
    dataDma s m sqe r = (s, m, completion sqe r.failed) := by
  rw [← dataDma_cqe s m]
  simp only [dataDma, htx, hrx, if_false]

end DataDma

theorem deviceStep_transfer {w w' : World} {r : DmaResult} {sqe : Sqe}
    (hc : w.callback = .transfer sqe) (h : deviceStep w r = some w') :
    w' = { w with
      dev := (dataDma w.dev w.mem sqe r).1
      callback := .writeCqe (completion sqe r.failed)
      mem := (dataDma w.dev w.mem sqe r).2.1
      failures := w.failures ++ [r.failed] } := by
  unfold deviceStep at h
  obtain ⟨⟨dev, callback, mem⟩, hstep, rfl⟩ := Option.map_eq_some_iff.mp h
  have houtcome : (Bus.granted r).outcome = r := if_pos rfl
  rw [hc, callbackStep, houtcome] at hstep
  simp only [Option.some.injEq, Prod.mk.injEq] at hstep
  obtain ⟨rfl, rfl, rfl⟩ := hstep
  rw [dataDma_cqe]
  simp only [hc, Callback.fetching, Callback.transferring, Callback.posting, List.append_nil]

/-! ### The history of the transfers -/

/-- A data transfer: how it ended, and the device buffer and memory before and after it. -/
structure Transfer where
  sqe : Sqe
  result : DmaResult
  devBuf : ℕ → Byte
  mem : Mem
  devBuf' : ℕ → Byte
  mem' : Mem

def noteTransfer (w : World) (a : Action) (w' : World) : List Transfer :=
  match a, w.callback with
  | .device r, .transfer sqe => [⟨sqe, r, w.dev.devBuf, w.mem, w'.dev.devBuf, w'.mem⟩]
  | _, _ => []

def transfers (w : World) (as : List Action) : List Transfer := record step noteTransfer w as

def Callback.movesData : Callback → Bool
  | .transfer sqe => sqe.op = opTx || sqe.op = opRx
  | _ => false

def Succeeds (w : World) (a : Action) (_ : World) : Prop :=
  match a with
  | .device r => w.callback.movesData = true → r.failed = false
  | _ => True

instance (w : World) (a : Action) (w' : World) : Decidable (Succeeds w a w') :=
  match a with
  | .device _ => inferInstanceAs (Decidable (_ → _))
  | .submit _ | .doorbell | .drain _ | .driver | .timer | .host _ _ => isTrue trivial

namespace Transfer

def size (t : Transfer) : ℕ := min t.sqe.len.toNat 4096

/-- A TX that reaches byte `j` of the device buffer. -/
def fills (j : ℕ) (t : Transfer) : Bool := t.sqe.op = opTx ∧ j < t.size

theorem fills_iff {j : ℕ} {t : Transfer} :
    t.fills j = true ↔ t.sqe.op = opTx ∧ j < t.size := decide_eq_true_iff

theorem fills_of_not_tx {t : Transfer} (h : t.sqe.op ≠ opTx) (j : ℕ) : t.fills j = false := by
  simp [fills, h]

/-- The byte that memory held at offset `j` of the data buffer when the transfer was made. -/
def source (t : Transfer) (j : ℕ) : Byte := t.mem (t.sqe.bufAddr + BitVec.ofNat 64 j)

def target (t : Transfer) (j : ℕ) : Byte := t.mem' (t.sqe.bufAddr + BitVec.ofNat 64 j)

end Transfer

/-- What byte `j` of the device buffer is after the transfers `past`: the byte of the latest
TX that reaches it, and what the buffer held at first if there is none. -/
def heldByte (devBuf : ℕ → Byte) (past : List Transfer) (j : ℕ) : Byte :=
  match past.reverse.find? (Transfer.fills j) with
  | some t => t.source j
  | none => devBuf j

theorem heldByte_concat (devBuf : ℕ → Byte) (past : List Transfer) (t : Transfer) (j : ℕ) :
    heldByte devBuf (past ++ [t]) j =
      if t.fills j then t.source j else heldByte devBuf past j := by
  cases ht : t.fills j with
  | true => simp [heldByte, ht]
  | false => simp [heldByte, ht]

/-- Transfers that do not reach a byte do not matter for it. -/
theorem heldByte_append (devBuf : ℕ → Byte) (past later : List Transfer) {j : ℕ}
    (h : ∀ t ∈ later, t.fills j = false) :
    heldByte devBuf (past ++ later) j = heldByte devBuf past j := by
  have hnone : later.reverse.find? (Transfer.fills j) = none := by
    rw [List.find?_eq_none]
    intro t ht
    simp [h t (List.mem_reverse.mp ht)]
  rw [heldByte, List.reverse_append, List.find?_append, hnone, Option.none_or]
  rfl

/-- What the law says of a transfer that comes after the transfers `past`, on a device whose
buffer held `devBuf` at first. -/
structure Lawful (devBuf : ℕ → Byte) (past : List Transfer) (t : Transfer) : Prop where
  /-- An RX hands out the latest bytes. -/
  rx : t.sqe.op = opRx → ∀ j < t.size, t.target j = heldByte devBuf past j
  /-- And writes nothing beyond its length. -/
  rx_only : t.sqe.op = opRx → ∀ a, ¬ Covers t.sqe.bufAddr t.size a → t.mem' a = t.mem a
  mem_eq : t.sqe.op ≠ opRx → t.mem' = t.mem
  devBuf_eq : t.sqe.op ≠ opTx → t.devBuf' = t.devBuf
  /-- No transfer writes to the device buffer beyond its end. -/
  writes : ∀ j, 4096 ≤ j → t.devBuf' j = t.devBuf j
  /-- What lies beyond the end of the device buffer does not reach memory. -/
  reads : t.sqe.op = opRx → ∀ buf : ℕ → Byte, (∀ j < 4096, buf j = t.devBuf j) →
    dmaWriteBuf t.mem t.sqe.bufAddr (clampLen t.sqe.len) buf t.result = t.mem'

/-! ### The law -/

theorem dmaReadBuf_ok {m : Mem} {addr : Addr} {len : Word} {buf : ℕ → Byte} {j : ℕ} :
    dmaReadBuf m addr len buf .ok j =
      if j < len.toNat then m (addr + BitVec.ofNat 64 j) else buf j := rfl

theorem dmaReadBuf_of_le {m : Mem} {addr : Addr} {len : Word} {buf : ℕ → Byte} {r : DmaResult}
    {j : ℕ} (hj : len.toNat ≤ j) : dmaReadBuf m addr len buf r j = buf j := by
  cases r with
  | ok => exact if_neg (Nat.not_lt.mpr hj)
  | error landed => exact if_neg (Nat.not_lt.mpr hj)

theorem dmaWriteBuf_congr {m : Mem} {addr : Addr} {len : Word} {buf buf' : ℕ → Byte}
    {r : DmaResult} (h : ∀ j < len.toNat, buf' j = buf j) :
    dmaWriteBuf m addr len buf' r = dmaWriteBuf m addr len buf r := by
  cases r with
  | ok =>
      funext a
      simp only [dmaWriteBuf, Mem.patch]
      by_cases ha : Covers addr len.toNat a
      · rw [if_pos ha, if_pos ha, h _ ha]
      · rw [if_neg ha, if_neg ha]
  | error landed => rfl

theorem dmaWriteBuf_ok {m : Mem} {addr : Addr} {len : Word} {buf : ℕ → Byte} {j : ℕ}
    (hj : j < len.toNat) :
    dmaWriteBuf m addr len buf .ok (addr + BitVec.ofNat 64 j) = buf j := by
  have hoff : (addr + BitVec.ofNat 64 j - addr).toNat = j := by
    have := len.isLt
    rw [add_ofNat_sub, BitVec.toNat_ofNat, Nat.mod_eq_of_lt (by omega)]
  rw [dmaWriteBuf, Mem.patch, if_pos (covers_add hj), hoff]
  rfl

/-- The buffer holds what the transfers so far have put there, and each of them was lawful. -/
structure MemoryLaw (devBuf : ℕ → Byte) (w : World) (l : List Transfer) : Prop where
  fetched : w.fetched = l.map Transfer.sqe ++ w.callback.fetching
  held : w.dev.devBuf = heldByte devBuf l
  lawful : ∀ past t later, l = past ++ t :: later → Lawful devBuf past t

section Steps

variable {devBuf : ℕ → Byte} {w w' : World} {l : List Transfer}

theorem MemoryLaw.quiet (h : MemoryLaw devBuf w l) (hbuf : w'.dev.devBuf = w.dev.devBuf)
    (hfetched : w'.fetched = l.map Transfer.sqe ++ w'.callback.fetching) :
    MemoryLaw devBuf w' (l ++ []) := by
  rw [List.append_nil]
  exact ⟨hfetched, hbuf.trans h.held, h.lawful⟩

theorem eq_ok_of_failed {r : DmaResult} (h : r.failed = false) : r = .ok := by
  cases r with
  | ok => rfl
  | error landed => cases h

theorem opRx_ne_opTx : opRx ≠ opTx := by decide

/-- A TX puts the bytes of its data buffer into the device buffer. -/
theorem lawful_tx {sqe : Sqe} {m m' : Mem} {buf buf' : ℕ → Byte} (htx : sqe.op = opTx)
    (hbuf : buf = heldByte devBuf l) (hm : m' = m)
    (hbuf' : buf' = dmaReadBuf m sqe.bufAddr (clampLen sqe.len) buf .ok) :
    Lawful devBuf l ⟨sqe, .ok, buf, m, buf', m'⟩ ∧
      buf' = heldByte devBuf (l ++ [⟨sqe, .ok, buf, m, buf', m'⟩]) := by
  have hnrx : sqe.op ≠ opRx := by
    rw [htx]
    exact opRx_ne_opTx.symm
  have hlen := toNat_clampLen sqe.len
  refine ⟨?_, ?_⟩
  · exact
      { rx := fun h => absurd h hnrx
        rx_only := fun h => absurd h hnrx
        mem_eq := fun _ => hm
        devBuf_eq := fun h => absurd htx h
        writes := by
          intro j hj
          change buf' j = buf j
          exact (congrFun hbuf' j).trans (dmaReadBuf_of_le (by omega))
        reads := fun h => absurd h hnrx }
  · funext j
    rw [heldByte_concat, hbuf', dmaReadBuf_ok, hlen, hbuf]
    simp [Transfer.fills, Transfer.size, Transfer.source, htx]

/-- An RX hands out what the device buffer holds, and leaves it as it is. -/
theorem lawful_rx {sqe : Sqe} {m m' : Mem} {buf buf' : ℕ → Byte} (hrx : sqe.op = opRx)
    (hheld : buf = heldByte devBuf l) (hbuf : buf' = buf)
    (hm : m' = dmaWriteBuf m sqe.bufAddr (clampLen sqe.len) buf .ok) :
    Lawful devBuf l ⟨sqe, .ok, buf, m, buf', m'⟩ := by
  have hlen := toNat_clampLen sqe.len
  have hle : (clampLen sqe.len).toNat ≤ 4096 := by omega
  exact
    { rx := by
        intro _ j hj
        change m' (sqe.bufAddr + BitVec.ofNat 64 j) = _
        rw [hm, dmaWriteBuf_ok (by rw [hlen]; exact hj), hheld]
      rx_only := by
        intro _ a ha
        change m' a = m a
        rw [hm]
        refine dmaWriteBuf_of_not_inBuffer m buf .ok ?_
        rw [Sqe.InBuffer, hlen]
        exact ha
      mem_eq := fun h => absurd hrx h
      devBuf_eq := fun _ => hbuf
      writes := fun j _ => congrFun hbuf j
      reads := by
        intro _ buf'' hbuf''
        change dmaWriteBuf m _ _ buf'' .ok = m'
        rw [hm]
        exact dmaWriteBuf_congr fun j hj => hbuf'' j (hj.trans_le hle) }

theorem lawful_unknown {sqe : Sqe} {r : DmaResult} {m : Mem} {buf : ℕ → Byte}
    (hrx : sqe.op ≠ opRx) : Lawful devBuf l ⟨sqe, r, buf, m, buf, m⟩ where
  rx h := absurd h hrx
  rx_only h := absurd h hrx
  mem_eq _ := rfl
  devBuf_eq _ := rfl
  writes _ _ := rfl
  reads h := absurd h hrx

theorem heldByte_concat_of_not_tx {t : Transfer} (h : t.sqe.op ≠ opTx) :
    heldByte devBuf (l ++ [t]) = heldByte devBuf l := by
  funext j
  rw [heldByte_concat, if_neg (by rw [Transfer.fills_of_not_tx h]; decide)]

/-- The transfer of a submission is lawful, and leaves the buffer as the law says. -/
theorem lawful_transfer {sqe : Sqe} {r : DmaResult} (hheld : w.dev.devBuf = heldByte devBuf l)
    (hok : sqe.op = opTx ∨ sqe.op = opRx → r.failed = false)
    (hbuf : w'.dev.devBuf = (dataDma w.dev w.mem sqe r).1.devBuf)
    (hm : w'.mem = (dataDma w.dev w.mem sqe r).2.1) :
    Lawful devBuf l ⟨sqe, r, w.dev.devBuf, w.mem, w'.dev.devBuf, w'.mem⟩ ∧
      w'.dev.devBuf =
        heldByte devBuf (l ++ [⟨sqe, r, w.dev.devBuf, w.mem, w'.dev.devBuf, w'.mem⟩]) := by
  by_cases htx : sqe.op = opTx
  · obtain rfl := eq_ok_of_failed (hok (Or.inl htx))
    rw [dataDma_tx htx] at hbuf hm
    exact lawful_tx htx hheld hm hbuf
  · rw [heldByte_concat_of_not_tx htx, ← hheld]
    by_cases hrx : sqe.op = opRx
    · obtain rfl := eq_ok_of_failed (hok (Or.inr hrx))
      rw [dataDma_rx hrx] at hbuf hm
      exact ⟨lawful_rx hrx hheld hbuf hm, hbuf⟩
    · rw [dataDma_unknown htx hrx] at hbuf hm
      rw [hbuf, hm]
      exact ⟨lawful_unknown hrx, rfl⟩

theorem MemoryLaw.concat (h : MemoryLaw devBuf w l) {t : Transfer}
    (hfetched : w'.fetched = (l ++ [t]).map Transfer.sqe ++ w'.callback.fetching)
    (hlawful : Lawful devBuf l t) (hheld : w'.dev.devBuf = heldByte devBuf (l ++ [t])) :
    MemoryLaw devBuf w' (l ++ [t]) := by
  refine ⟨hfetched, hheld, fun past t' later heq => ?_⟩
  rcases List.eq_nil_or_concat later with rfl | ⟨later, t'', rfl⟩
  · obtain ⟨rfl, ht⟩ := List.append_inj' heq rfl
    cases ht
    exact hlawful
  · rw [List.concat_eq_append, ← List.cons_append, ← List.append_assoc] at heq
    obtain ⟨rfl, -⟩ := List.append_inj' heq rfl
    exact h.lawful past t' later rfl

theorem memoryLaw_driverMove (h : MemoryLaw devBuf w l) (hm : DriverMove w w') :
    MemoryLaw devBuf w' (l ++ []) := by
  cases hm <;> exact h.quiet rfl h.fetched

/-- A step of the callback that is not a transfer leaves the device buffer alone. -/
theorem memoryLaw_deviceMove {r : DmaResult} (h : MemoryLaw devBuf w l)
    (hc : ∀ sqe, w.callback ≠ .transfer sqe) (hm : DeviceMove r w w') :
    MemoryLaw devBuf w' (l ++ []) := by
  have hfetched := h.fetched
  cases hm with
  | stop didWork hcb htest =>
      obtain ⟨_, _, _, hirq⟩ := raiseIrq_eq didWork w.dev
      rw [hcb] at hfetched
      exact h.quiet (by rw [hirq]) hfetched
  | fetch didWork hcb hne hroom =>
      rw [hcb] at hfetched
      change w.fetched = l.map Transfer.sqe ++ [] at hfetched
      rw [List.append_nil] at hfetched
      exact h.quiet rfl (by rw [hfetched]; rfl)
  | transfer sqe buf m hcb hmem => exact absurd hcb (hc sqe)
  | writeCqe cqe hcb =>
      rw [hcb] at hfetched
      exact h.quiet rfl hfetched
  | advance cqe hcb =>
      rw [hcb] at hfetched
      exact h.quiet rfl hfetched

theorem memoryLaw_deviceStep {r : DmaResult} (h : MemoryLaw devBuf w l)
    (hok : Succeeds w (.device r) w') (hs : deviceStep w r = some w') :
    MemoryLaw devBuf w' (l ++ noteTransfer w (.device r) w') := by
  cases hc : w.callback with
  | transfer sqe =>
      have hfetched := h.fetched
      have hok' : sqe.op = opTx ∨ sqe.op = opRx → r.failed = false := by
        intro hop
        apply hok
        rw [hc, Callback.movesData, Bool.or_eq_true, decide_eq_true_iff, decide_eq_true_iff]
        exact hop
      have hw' := deviceStep_transfer hc hs
      have hbuf : w'.dev.devBuf = (dataDma w.dev w.mem sqe r).1.devBuf := by rw [hw']
      have hm : w'.mem = (dataDma w.dev w.mem sqe r).2.1 := by rw [hw']
      obtain ⟨hlawful, hheld⟩ := lawful_transfer h.held hok' hbuf hm
      have hnote : noteTransfer w (.device r) w' =
          [⟨sqe, r, w.dev.devBuf, w.mem, w'.dev.devBuf, w'.mem⟩] := by
        simp only [noteTransfer, hc]
      rw [hnote]
      refine h.concat ?_ hlawful hheld
      rw [hc] at hfetched
      rw [hw', List.map_append]
      exact hfetched.trans (List.append_nil _).symm
  | _ =>
      have hnote : noteTransfer w (.device r) w' = [] := by simp only [noteTransfer, hc]
      rw [hnote]
      refine memoryLaw_deviceMove h (fun sqe hsqe => ?_) (deviceMove_of_deviceStep hs)
      rw [hc] at hsqe
      cases hsqe

theorem memoryLaw_step {a : Action} (hok : Succeeds w a w') (h : MemoryLaw devBuf w l)
    (hs : step w a = some w') : MemoryLaw devBuf w' (l ++ noteTransfer w a w') := by
  cases a with
  | device r => exact memoryLaw_deviceStep h hok hs
  | submit sqe =>
      obtain rfl := enter_eq_some hs
      exact h.quiet rfl h.fetched
  | doorbell =>
      obtain rfl := enter_eq_some hs
      exact h.quiet rfl h.fetched
  | drain max =>
      obtain rfl := enter_eq_some hs
      exact h.quiet rfl h.fetched
  | driver =>
      exact memoryLaw_driverMove h (driverMove_of_driverStep hs)
  | timer =>
      obtain ⟨hc, -, rfl⟩ := timerStep_eq_some hs
      have hfetched := h.fetched
      rw [hc] at hfetched
      exact h.quiet rfl hfetched
  | host a b =>
      cases hs
      exact h.quiet rfl h.fetched

end Steps

/-! ### Whole runs -/

/-- The device writes to memory outside the completion ring only when it transfers data. -/
def Framed (e : Engine) (w : World) (a : Action) (w' : World) : Prop :=
  ∀ r, a = .device r → (∀ sqe, w.callback ≠ .transfer sqe) →
    w'.dev.devBuf = w.dev.devBuf ∧ ∀ x, ¬ e.InCq x → w'.mem x = w.mem x

structure Slotted (e : Engine) (w : World) : Prop where
  rings : OnRings e w
  cqDepth : ∀ cqe, w.callback = .writeCqe cqe → e.cqDepth ≠ 0
  cqDepth' : ∀ sqe, w.callback = .transfer sqe → e.cqDepth ≠ 0

theorem slotted_create (d : DmaEngineState) (m : Mem) (sqDma cqDma : Addr) (msi : Bool)
    (sqDepth cqDepth : Word) :
    Slotted (engineCreate sqDma cqDma msi d sqDepth cqDepth).1
      (.create d m sqDma cqDma msi sqDepth cqDepth) where
  rings := onRings_create ..
  cqDepth _ hc := by cases hc
  cqDepth' _ hc := by cases hc

theorem slotted_deviceMove {e : Engine} {w w' : World} {r : DmaResult} (h : Slotted e w)
    (hm : DeviceMove r w w') : Slotted e w' := by
  have hrings := onRings_deviceMove h.rings hm
  cases hm with
  | stop didWork hc htest => exact ⟨hrings, nofun, nofun⟩
  | fetch didWork hc hne hroom =>
      have hdepth := cqDepth_ne_zero hroom
      rw [h.rings.devCqDepth] at hdepth
      exact ⟨hrings, nofun, fun _ _ => hdepth⟩
  | transfer sqe buf m hc hmem => exact ⟨hrings, fun _ _ => h.cqDepth' sqe hc, nofun⟩
  | writeCqe cqe hc => exact ⟨hrings, nofun, nofun⟩
  | advance cqe hc => exact ⟨hrings, nofun, nofun⟩

theorem slotted_step {e : Engine} {w w' : World} {a : Action} (h : Slotted e w)
    (hs : step w a = some w') : Slotted e w' := by
  have hrings := onRings_step h.rings hs
  cases move_of_step hs with
  | enter | host => exact ⟨hrings, h.cqDepth, h.cqDepth'⟩
  | driver w' hm => cases hm <;> exact ⟨hrings, h.cqDepth, h.cqDepth'⟩
  | timer hc harmed => exact ⟨hrings, nofun, nofun⟩
  | device r w' hm => exact slotted_deviceMove h hm

theorem framed_step {e : Engine} {w w' : World} {a : Action} (h : Slotted e w)
    (hs : step w a = some w') : Framed e w a w' := by
  rintro r rfl hc
  cases deviceMove_of_deviceStep hs with
  | stop didWork hcb htest =>
      obtain ⟨_, _, _, hirq⟩ := raiseIrq_eq didWork w.dev
      rw [hirq]
      exact ⟨rfl, fun _ _ => rfl⟩
  | transfer sqe buf m hcb hmem => exact absurd hcb (hc sqe)
  | writeCqe cqe hcb =>
      refine ⟨rfl, fun x hx => ?_⟩
      change w.mem.write w.dev.cqeAddr (cqeLayout.bytes cqe) x = w.mem x
      rw [cqeAddr_eq, h.rings.devCq, h.rings.devCqDepth]
      exact Layout.store_of_not_covers (toNat_and_sub_one_lt (h.cqDepth cqe hcb) _) hx
  | fetch | advance => exact ⟨rfl, fun _ _ => rfl⟩

/-- A TX followed by an RX that is no longer, with no TX between them. -/
def RoundTrip (l : List Transfer) : Prop :=
  ∀ past t mid t' later, l = past ++ t :: (mid ++ t' :: later) → t.sqe.op = opTx →
    t'.sqe.op = opRx → (∀ u ∈ mid, u.sqe.op ≠ opTx) → t'.size ≤ t.size →
      ∀ j < t'.size, t'.target j = t.source j

theorem roundTrip_of_lawful {devBuf : ℕ → Byte} {l : List Transfer}
    (h : ∀ past t later, l = past ++ t :: later → Lawful devBuf past t) : RoundTrip l := by
  intro past t mid t' later hl htx hrx hmid hle j hj
  have hlawful := h (past ++ t :: mid) t' later (by rw [hl]; simp)
  rw [hlawful.rx hrx j hj, ← List.singleton_append, ← List.append_assoc,
    heldByte_append devBuf (past ++ [t]) mid fun u hu => Transfer.fills_of_not_tx (hmid u hu) j,
    heldByte_concat, if_pos (Transfer.fills_iff.mpr ⟨htx, hj.trans_le hle⟩)]

/-- **The device memory law.** In a run whose data transfers succeed, every RX hands out at
each offset the byte of the latest earlier TX that was longer, as memory held it when that
TX was made, and nothing else of memory is changed by a transfer, nothing of the device
buffer by anything but a TX, and nothing beyond the end of the device buffer is looked at.
The transfers are those of the submissions fetched, and between them the device writes to
the completion ring only. -/
theorem memory_law {d : DmaEngineState} {m : Mem} {sqDma cqDma : Addr} {msi : Bool}
    {sqDepth cqDepth : Word} {as : List Action} {w : World}
    (hok : Steps step Succeeds (.create d m sqDma cqDma msi sqDepth cqDepth) as)
    (hw : exec step (.create d m sqDma cqDma msi sqDepth cqDepth) as = some w) :
    let l := transfers (.create d m sqDma cqDma msi sqDepth cqDepth) as
    w.fetched = l.map Transfer.sqe ++ w.callback.fetching ∧
      (∀ past t later, l = past ++ t :: later → Lawful d.devBuf past t) ∧ RoundTrip l ∧
      Steps step (Framed (engineCreate sqDma cqDma msi d sqDepth cqDepth).1)
        (.create d m sqDma cqDma msi sqDepth cqDepth) as := by
  have hstart : MemoryLaw d.devBuf (.create d m sqDma cqDma msi sqDepth cqDepth) [] := by
    refine ⟨rfl, ?_, fun past t later h => by simp at h⟩
    rw [World.create, engineCreate_device]
    rfl
  have hstep : ∀ s l a s', Succeeds s a s' → MemoryLaw d.devBuf s l → step s a = some s' →
      MemoryLaw d.devBuf s' (l ++ noteTransfer s a s') :=
    fun _ _ _ _ hc h hs => memoryLaw_step hc h hs
  have hlaw : MemoryLaw d.devBuf w
      (transfers (.create d m sqDma cqDma msi sqDepth cqDepth) as) :=
    hok.record_invariant hstep hw hstart
  have hslotted := slotted_create d m sqDma cqDma msi sqDepth cqDepth
  refine ⟨hlaw.fetched, hlaw.lawful, roundTrip_of_lawful hlaw.lawful, ?_⟩
  intro bs a t t' hbs ht hs
  exact framed_step (exec_invariant (I := Slotted _) (fun _ _ _ h hs => slotted_step h hs) ht
    hslotted) hs

def completeCall (sqe : Sqe) : List Action :=
  submitCall sqe ++ [.doorbell, .driver, .timer] ++ List.replicate 5 (.device .ok)

def mixedTransfers : List Action :=
  completeCall ⟨1, 0x3000, 3, opTx⟩ ++ completeCall ⟨2, 0x5000, 1, opTx⟩ ++
    completeCall ⟨3, 0x4000, 3, opRx⟩

/-- Byte `j` of the buffer at `0x3000` is `j + 1`, every other byte is 9. -/
def mixedMem : Mem := fun a =>
  if a = 0x3000 then 1 else if a = 0x3001 then 2 else if a = 0x3002 then 3 else 9

theorem memory_law_mixedTransfers :
    ∃ w, exec step (.create .fresh mixedMem 0x1000 0x2000 true 4 4) mixedTransfers = some w ∧
      w.mem.read 0x4000 3 = [9, 2, 3] ∧
      w.fetched = (transfers (.create .fresh mixedMem 0x1000 0x2000 true 4 4)
        mixedTransfers).map Transfer.sqe ++ w.callback.fetching := by
  have hw : exec step (.create .fresh mixedMem 0x1000 0x2000 true 4 4) mixedTransfers =
      some _ := rfl
  exact ⟨_, hw, by decide +kernel, (memory_law (by decide +kernel) hw).1⟩

end SystemsPrep.Dma
