import SystemsPrep.Dma.Submission

/-!
Submissions reach the device in order.

At every point of every interleaving the submissions the device has fetched are
the first accepted ones, none of them fetched before a doorbell has announced it,
and a submission is refused exactly when the ring is full.
-/

namespace SystemsPrep.Dma

open Base

/-- The driver ends a call with `-EAGAIN` exactly when a submission reads the
device's head while as many accepted submissions as the ring has slots are not
consumed. -/
def RefusedFull (e : Engine) (w : World) (a : Action) (w' : World) : Prop :=
  a = .driver → (w'.driver = .returned (.int eagain) ↔
    ∃ sqe, w.driver = .readHead sqe ∧ w.accepted.length = w.posted.length + e.sqDepth.toNat)

namespace Submission

variable {e : Engine} {w w' : World}

theorem refusedFull_driverMove (h : Submission e w) (hm : DriverMove w w') :
    w'.driver = .returned (.int eagain) ↔
      ∃ sqe, w.driver = .readHead sqe ∧
        w.accepted.length = w.posted.length + e.sqDepth.toNat := by
  cases hm with
  | readHead sqe hd =>
      rw [hd, h.submitCheck_eq]
      split <;> rename_i hfull
      · exact ⟨fun _ => ⟨sqe, rfl, hfull⟩, fun _ => rfl⟩
      · simp [hfull]
  | advanceTail sqe hd => simp [hd, eagain]
  | readTail max hd =>
      rw [hd, Engine.drainCheck]
      split_ifs <;> simp
  | _ => simp_all

theorem refusedFull {a : Action} (h : Submission e w) (hs : Dma.step w a = some w') :
    RefusedFull e w a w' := by
  rintro rfl
  exact h.refusedFull_driverMove (driverMove_of_driverStep hs)

end Submission

variable {m : Mem} {sqDma cqDma : Addr} {msi : Bool} {sqDepth cqDepth : Word}

/-- **No submission is lost, overwritten or fetched early.** The device fetches
the accepted submissions in order; its head, its tail and the driver's tail count
the completed, the announced and the accepted ones; and only a full ring refuses. -/
theorem submissions_in_order {as : List Action} {w : World}
    (hsq : sqDepth.toNat.isPowerOfTwo) (hcq : cqDepth ≠ 0)
    (hrings : Apart sqDma (sqDepth.toNat * 24) cqDma (cqDepth.toNat * 16))
    (has : ∀ a ∈ as, a.Apart (engineCreate sqDma cqDma msi .fresh sqDepth cqDepth).1)
    (hw : exec step (.create .fresh m sqDma cqDma msi sqDepth cqDepth) as = some w) :
    w.fetched <+: w.accepted ∧ w.fetched.length ≤ w.announced ∧
      w.dev.sqHead = BitVec.ofNat 32 w.posted.length ∧
      w.dev.sqTail = BitVec.ofNat 32 w.announced ∧
      w.eng.sqTail = BitVec.ofNat 32 w.accepted.length ∧
      w.posted.length ≤ w.announced ∧ w.announced ≤ w.accepted.length ∧
      w.dev.sqTail - w.dev.sqHead ≤ w.eng.sqTail - w.dev.sqHead ∧
      w.eng.sqTail - w.dev.sqHead ≤ sqDepth ∧
      Steps step (RefusedFull (engineCreate sqDma cqDma msi .fresh sqDepth cqDepth).1)
        (.create .fresh m sqDma cqDma msi sqDepth cqDepth) as := by
  have he : (engineCreate sqDma cqDma msi .fresh sqDepth cqDepth).1.WellFormed :=
    engineCreate_wellFormed hsq hcq hrings
  have hstart := submission_create inStep_fresh m sqDma cqDma msi sqDepth cqDepth
  have h := hstart.exec he has hw
  have hroom := h.room
  refine ⟨h.fifo, h.fetched_le.2, h.sqHead, h.doorbell, h.sqTail, h.posted_le, h.announced_le,
    ?_, ?_, ?_⟩
  · rw [BitVec.le_def, h.toNat_doorbell_sub_sqHead, h.toNat_sqTail_sub_sqHead]
    exact Nat.sub_le_sub_right h.announced_le _
  · rw [BitVec.le_def, h.toNat_sqTail_sub_sqHead]
    exact Nat.sub_le_of_le_add (by rw [Nat.add_comm]; exact hroom)
  · exact Steps.of_invariant (fun _ _ _ ha hI hs => hI.step he ha hs)
      (fun _ _ _ hI hs => hI.refusedFull hs) has hstart

/-! ### A run -/

/-- The two submissions of `dma_engine_probe`. -/
def txSqe : Sqe := { cookie := 0xCAFE, bufAddr := 0x3000, len := 18, op := opTx }
def rxSqe : Sqe := { cookie := 0xBEEF, bufAddr := 0x4000, len := 18, op := opRx }

/-- An `engine_submit` that is not refused. -/
def submitCall (sqe : Sqe) : List Action := [.submit sqe, .driver, .driver, .driver]

theorem probeSqes_apart {e : Engine} (hsq : e.sq = 0x1000) (hcq : e.cq = 0x2000)
    (hsqDepth : e.sqDepth.toNat ≤ 16) (hcqDepth : e.cqDepth.toNat ≤ 16) :
    txSqe.Apart e ∧ rxSqe.Apart e := by
  have habove : ∀ sqe : Sqe, 0x3000 ≤ sqe.bufAddr.toNat → sqe.bufAddr.toNat + 18 ≤ 2 ^ 64 →
      (clampLen sqe.len).toNat = 18 → sqe.Apart e := by
    intro sqe hlo hhi hlen a hbuf
    rw [Sqe.InBuffer, Covers, BitVec.toNat_sub, hlen] at hbuf
    rw [Engine.InSq, Engine.InCq, hsq, hcq, Covers, Covers, BitVec.toNat_sub, BitVec.toNat_sub,
      show sqeLayout.size = 24 from rfl, show cqeLayout.size = 16 from rfl]
    have hsq' : (0x1000 : Addr).toNat = 0x1000 := rfl
    have hcq' : (0x2000 : Addr).toNat = 0x2000 := rfl
    have := a.isLt
    omega
  exact ⟨habove txSqe (by decide) (by decide) rfl, habove rxSqe (by decide) (by decide) rfl⟩

/-- Two submissions fill a ring of two, the third is refused, and after a
doorbell the device fetches the first. -/
def fillAndFetch : List Action :=
  submitCall txSqe ++ submitCall rxSqe ++
    [.submit txSqe, .driver, .doorbell, .driver, .timer, .device .ok]

theorem fillAndFetch_apart {e : Engine} (h : txSqe.Apart e ∧ rxSqe.Apart e) :
    ∀ a ∈ fillAndFetch, a.Apart e := by
  simp [fillAndFetch, submitCall, Action.Apart, h]

theorem submissions_in_order_fillAndFetch :
    ∃ w, exec step (.create .fresh (fun _ => 0) 0x1000 0x2000 true 2 2) fillAndFetch = some w ∧
      w.accepted = [txSqe, rxSqe] ∧ w.fetched = [txSqe] ∧ w.fetched <+: w.accepted := by
  have hs : exec step (.create .fresh (fun _ => 0) 0x1000 0x2000 true 2 2) fillAndFetch =
      some _ := rfl
  refine ⟨_, hs, rfl, by decide +kernel, ?_⟩
  refine (submissions_in_order ⟨1, rfl⟩ (by decide) (apart_of_le (by decide) (by decide)) ?_ hs).1
  exact fillAndFetch_apart (probeSqes_apart rfl rfl (by decide) (by decide))

end SystemsPrep.Dma
