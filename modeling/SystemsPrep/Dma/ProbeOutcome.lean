import SystemsPrep.Dma.SmokeTest

/-!
What the smoke test of `dma_engine_probe` says, and what it leaves behind.

On a device whose indices are zero the probe tells the truth: it passes exactly when no
wait has failed and both transfers have succeeded, and the bytes are never found
different. Whatever happens it gives back what it has mapped and allocated, once. If no
wait has failed, the device is done with the buffers and the rings by then.
-/

namespace SystemsPrep.Dma

open Base

/-! ### Runs of the probe -/

section Runs

variable {hz : ℕ} {p p' : Probe} {e : Engine} {a : ProbeAction}

theorem Probe.at_accepted {stage : ProbeStage} (hp : p.At stage) :
    p.world.accepted <+: p.upto .rx := by
  have hbefore : ∀ d, p.before d <+: p.upto .rx := fun d =>
    (List.prefix_append ..).trans (p.upto_isPrefix d)
  cases stage with
  | call c d =>
      rw [hp.1.accepted]
      cases c with
      | submit => exact hbefore d
      | doorbell | wait | drain => exact p.upto_isPrefix d
  | inCall c d =>
      cases c with
      | submit =>
          obtain ⟨-, ⟨hstand, -⟩ | ⟨hstand, -⟩⟩ := hp
          · exact hstand.accepted ▸ hbefore d
          · exact hstand.accepted ▸ p.upto_isPrefix d
      | doorbell =>
          obtain ⟨hstand, -⟩ | ⟨hstand, -⟩ := hp
          · exact hstand.accepted ▸ p.upto_isPrefix d
          · exact hstand.accepted ▸ p.upto_isPrefix d
      | wait => exact hp.1.accepted ▸ p.upto_isPrefix d
      | drain =>
          obtain ⟨-, ⟨hstand, -⟩ | ⟨c, hstand, -⟩⟩ := hp
          · exact hstand.accepted ▸ p.upto_isPrefix d
          · exact hstand.accepted ▸ p.upto_isPrefix d
  | unmap d => exact hp.1.accepted ▸ p.upto_isPrefix d
  | compare | returned => exact hp.accepted ▸ List.prefix_refl _
  | errUnmap d | destroy => exact hp.accepted
  | free d passed =>
      cases passed with
      | true => exact hp.accepted ▸ List.prefix_refl _
      | false => exact hp.accepted

theorem apart_of_submit (hp : p.At p.stage)
    (hapart : ∀ d x, Covers (p.buffer d) 64 x → ¬ e.InSq x ∧ ¬ e.InCq x) {d : Direction}
    (hstage : p.stage = .call .submit d) : (transferSqe (p.dmaAddr d) d).Apart e := by
  rw [hstage] at hp
  have haddr : p.dmaAddr d = p.buffer d := by rw [hp.1.mapped, p.mapped_self]
  rw [haddr]
  exact fun x hx => hapart d x (by_contra fun hnot => not_inBuffer_transferSqe hnot hx)

/-- What holds throughout a probe of a device in step. -/
structure Sound (e : Engine) (p : Probe) : Prop where
  completion : Completion e p.world
  order : p.world.InOrder
  sqDepth : e.sqDepth = 16
  cqDepth : e.cqDepth = 16
  apart : ∀ d x, Covers (p.buffer d) 64 x → ¬ e.InSq x ∧ ¬ e.InCq x
  buffers : Apart (p.buffer .tx) 64 (p.buffer .rx) 64
  stage : p.At p.stage
  carried : (∀ d, p.stage.holds d = true) → Carried (p.buffer .tx) (p.buffer .rx) p.world

theorem Sound.lap (h : Sound e p) :
    p.world.fetched.length ≤ p.world.drained.length + e.cqDepth.toNat := by
  have haccepted := (Probe.at_accepted h.stage).length_le
  have hfetched := h.completion.submission.fetched_le.2
  have hle := h.completion.submission.announced_le
  have htwo : (p.upto .rx).length = 2 := rfl
  rw [h.cqDepth]
  change _ ≤ _ + 16
  omega

theorem Sound.roundtripped (h : Sound e p) (hstage : p.stage = .compare)
    (hfail : p.world.failures = [false, false]) : p.roundtripped = true := by
  have hcarried := h.carried fun d => by cases d <;> rw [hstage] <;> rfl
  exact decide_eq_true (hcarried.src.trans (hcarried.stored hfail).symm)

theorem Sound.world (h : Sound e p) {b : Action} (hb : b.Apart e)
    (hhost : ∀ x v, b = .host x v → ∀ d, p.stage.holds d = true → ¬ Covers (p.buffer d) 64 x)
    {w : World} (hs : step p.world b = some w) :
    Completion e w ∧ w.InOrder ∧
      ((∀ d, p.stage.holds d = true) → Carried (p.buffer .tx) (p.buffer .rx) w) := by
  refine ⟨h.completion.step hb hs, h.completion.inOrder_step hs h.order h.lap, fun hholds => ?_⟩
  exact (h.carried hholds).step h.completion (Probe.at_accepted h.stage) h.buffers (h.apart .tx)
    (h.apart .rx) (fun x v hv => ⟨hhost x v hv .tx (hholds .tx), hhost x v hv .rx (hholds .rx)⟩) hs

theorem Sound.next (h : Sound e p) (hm : ProbeMove hz p p') : Sound e p' := by
  obtain ⟨hbuffer, hholds⟩ := buffer_of_move hm
  have hworld : Completion e p'.world ∧ p'.world.InOrder ∧
      ((∀ d, p.stage.holds d = true) → Carried (p.buffer .tx) (p.buffer .rx) p'.world) := by
    rcases world_of_move hm with heq | ⟨b, hdriver, hstep, hsubmit⟩
    · rw [heq]
      exact ⟨h.completion, h.order, h.carried⟩
    · refine h.world ?_ (fun x v hv => by rw [hv] at hdriver; cases hdriver) hstep
      cases b with
      | submit sqe =>
          obtain ⟨d, hstage, rfl⟩ := hsubmit sqe rfl
          exact apart_of_submit h.stage h.apart hstage
      | doorbell | drain | driver => trivial
      | timer | device | host => cases hdriver
  obtain ⟨hcompletion, horder, hcarried⟩ := hworld
  exact
    { completion := hcompletion
      order := horder
      sqDepth := h.sqDepth
      cqDepth := h.cqDepth
      apart := by rw [hbuffer]; exact h.apart
      buffers := by rw [hbuffer]; exact h.buffers
      stage := at_next h.completion h.order h.sqDepth h.roundtripped h.stage hm
      carried := fun hall => by
        rw [hbuffer]
        exact hcarried fun d => hholds d (hall d) }

theorem Sound.around (h : Sound e p) (halone : LeavesAlone p a p') {host : Waiting}
    (hr : Around p a host) : Sound e { p with host := host } := by
  have hrings := h.completion.submission.rings
  have hworld : Completion e host.world ∧ host.world.InOrder ∧
      ((∀ d, p.stage.holds d = true) → Carried (p.buffer .tx) (p.buffer .rx) host.world) := by
    cases hr with
    | world b w hdriver hstep =>
        cases b with
        | host x v =>
            -- the rings of the engine are those of the device
            obtain ⟨hsq, hcq, hbuf⟩ := halone
            refine h.world (b := .host x v) ⟨?_, ?_⟩ (fun y u hy d => ?_) hstep
            · rwa [Engine.InSq, ← hrings.sq, ← hrings.sqDepth]
            · rwa [Engine.InCq, ← hrings.cq, ← hrings.cqDepth]
            · cases hy
              exact hbuf d
        | timer => exact h.world (b := .timer) trivial (fun x v hv => by cases hv) hstep
        | device r => exact h.world (b := .device r) trivial (fun x v hv => by cases hv) hstep
        | submit | doorbell | drain | driver => cases hdriver
    | tick | signal | wake => exact ⟨h.completion, h.order, h.carried⟩
  obtain ⟨hcompletion, horder, hcarried⟩ := hworld
  exact
    { completion := hcompletion
      order := horder
      sqDepth := h.sqDepth
      cqDepth := h.cqDepth
      apart := h.apart
      buffers := h.buffers
      stage := hr.keeps hcompletion h.stage
      carried := hcarried }

theorem sound_step (halone : LeavesAlone p a p') (h : Sound e p)
    (hs : probeStep hz p a = some p') : Sound e p' := by
  rcases move_of_probeStep hs with ⟨-, hm⟩ | ⟨host, rfl, hr⟩
  · exact h.next hm
  · exact h.around halone hr

end Runs

/-! ### The verdict -/

section Verdict

variable {d : DmaEngineState} {m : Mem} {sqDma cqDma src dst : Addr} {msi : Bool} {hz : ℕ}
  {p : Probe} {as : List ProbeAction}

def Probe.create (d : DmaEngineState) (m : Mem) (sqDma cqDma src dst : Addr) (msi : Bool) :
    Probe :=
  .start (.create d (fillBuffers m src dst) sqDma cqDma msi 16 16) src dst

theorem read_fillBuffers (hbuffers : Apart src 64 dst 64) :
    (fillBuffers m src dst).read src 18 = message := by
  have hread : (m.write src message).read src 18 = message := Mem.read_write (by decide)
  rw [← hread]
  refine Mem.read_congr fun i hi => Mem.write_of_not_covers ?_
  rw [List.length_replicate]
  exact hbuffers _ (covers_add (by omega))

theorem sound_create (hd : d.InStep) (h : Placed sqDma cqDma src dst) :
    Sound (engineCreate sqDma cqDma msi d 16 16).1 (.create d m sqDma cqDma src dst msi) where
  completion := completion_create hd ⟨4, rfl⟩ ⟨4, rfl⟩ h.rings
  order := List.prefix_refl _
  sqDepth := rfl
  cqDepth := rfl
  apart b x hx := by
    cases b with
    | tx => exact ⟨h.srcSq x hx, h.srcCq x hx⟩
    | rx => exact ⟨h.dstSq x hx, h.dstCq x hx⟩
  buffers := h.buffers
  stage := ⟨⟨rfl, rfl, rfl, rfl, rfl⟩, rfl, fun _ => le_rfl⟩
  carried _ :=
    { src := read_fillBuffers h.buffers
      loaded := fun l hl => by cases hl
      stored := fun hl => by cases hl }

theorem sound_exec (hd : d.InStep) (h : Placed sqDma cqDma src dst)
    (halone : Steps (probeStep hz) LeavesAlone (.create d m sqDma cqDma src dst msi) as)
    (hp : exec (probeStep hz) (.create d m sqDma cqDma src dst msi) as = some p) :
    Sound (engineCreate sqDma cqDma msi d 16 16).1 p :=
  halone.invariant (fun _ _ _ => sound_step) hp (sound_create hd h)

/-- **The probe tells the truth.** On a device whose indices are zero, while nobody else
writes to the rings and the buffers, the bytes that it compares are equal; it returns 0
only when no wait has failed and both transfers have succeeded; and it gives up only when
a wait or a transfer has failed. -/
theorem probe_verdict (hd : d.InStep) (h : Placed sqDma cqDma src dst)
    (halone : Steps (probeStep hz) LeavesAlone (.create d m sqDma cqDma src dst msi) as)
    (hp : exec (probeStep hz) (.create d m sqDma cqDma src dst msi) as = some p) :
    (p.stage = .compare → p.roundtripped = true) ∧
      (p.stage = .returned → p.timedOut = false ∧ p.world.failures = [false, false]) ∧
      (p.stage = .destroy → p.timedOut = true ∨ true ∈ p.world.failures) := by
  have hsound := sound_exec hd h halone hp
  have hstage := hsound.stage
  refine ⟨fun hcompare => ?_, fun hreturned => ?_, fun hdestroy => ?_⟩
  · rw [hcompare] at hstage
    exact hsound.roundtripped hcompare hstage.failures
  · rw [hreturned] at hstage
    exact ⟨hstage.inTime, hstage.failures⟩
  · rw [hdestroy] at hstage
    exact hstage.why.imp_right And.left

def transferCalls : List ProbeAction :=
  List.replicate 8 .next ++ (processOne .ok).map .world ++ List.replicate 9 .next

def smokeTest : List ProbeAction :=
  transferCalls ++ transferCalls ++ List.replicate 3 .next

def ProbeAction.quiet : ProbeAction → Bool
  | .world (.host _ _) => false
  | _ => true

theorem leavesAlone_of_quiet {q : Probe} (has : as.all ProbeAction.quiet = true) :
    Steps (probeStep hz) LeavesAlone q as := by
  refine fun bs a t t' hbs _ _ => ?_
  have ha : a.quiet = true := List.all_eq_true.mp has a (hbs.subset (by simp))
  cases a with
  | world b =>
      cases b with
      | host => cases ha
      | _ => trivial
  | _ => trivial

theorem placed_pages : Placed 0x1000 0x2000 0x3000 0x4000 where
  rings := apart_of_le (by decide) (by decide)
  srcSq x hx hsq := apart_of_le (n := 16 * 24) (by decide) (by decide) x hsq hx
  srcCq x hx hcq := apart_of_le (n := 16 * 16) (by decide) (by decide) x hcq hx
  dstSq x hx hsq := apart_of_le (n := 16 * 24) (by decide) (by decide) x hsq hx
  dstCq x hx hcq := apart_of_le (n := 16 * 16) (by decide) (by decide) x hcq hx
  buffers := apart_of_le (by decide) (by decide)

theorem probe_verdict_smokeTest :
    ∃ p, exec (probeStep 250) (.create .fresh (fun _ => 0) 0x1000 0x2000 0x3000 0x4000 true)
        smokeTest = some p ∧ p.stage = .returned ∧
      p.timedOut = false ∧ p.world.failures = [false, false] := by
  have hrun : (exec (probeStep 250) (.create .fresh (fun _ => 0) 0x1000 0x2000 0x3000 0x4000 true)
      smokeTest).any (fun p => p.stage = .returned) = true := by decide +kernel
  obtain ⟨p, hs, hreturned⟩ := (Option.any_eq_true _ _).mp hrun
  exact ⟨p, hs, of_decide_eq_true hreturned,
    (probe_verdict inStep_fresh placed_pages (leavesAlone_of_quiet rfl) hs).2.1
      (of_decide_eq_true hreturned)⟩

end Verdict

/-! ### What is given back -/

def unmappedBefore : Direction → List Release
  | .tx => []
  | .rx => [.unmap .tx]

def allReleases : List Release := [.unmap .tx, .unmap .rx, .free .tx, .free .rx]

/-- What has been given back at each statement. The probe takes an address of zero for a
buffer that is not mapped. -/
def Probe.Ledger (p : Probe) : ProbeStage → Prop
  | .call _ d | .inCall _ d | .unmap d =>
      p.dmaAddr = p.mapped d ∧ p.released = unmappedBefore d
  | .compare => p.released = allReleases.take 2
  | .errUnmap .tx => ∃ d, p.dmaAddr = p.mapped d ∧ p.released = unmappedBefore d
  | .errUnmap .rx => p.dmaAddr .rx = p.buffer .rx ∧
      (p.buffer .tx ≠ 0 → p.released = allReleases.take 1)
  | .free .tx _ => (∀ d, p.buffer d ≠ 0) → p.released = allReleases.take 2
  | .free .rx _ => (∀ d, p.buffer d ≠ 0) → p.released = allReleases.take 3
  | .returned | .destroy => (∀ d, p.buffer d ≠ 0) → p.released = allReleases

section Releases

variable {hz : ℕ} {p p' : Probe} {e : Engine} {a : ProbeAction}

theorem Probe.Ledger.next (h : p.Ledger p.stage) (hm : ProbeMove hz p p') :
    p'.Ledger p'.stage := by
  cases hm with
  | enter c d hstage | enterWait d hstage | found d hstage =>
      rw [hstage] at h
      exact h
  | driver c d w hstage =>
      simp only [Probe.setWorld, hstage] at h ⊢
      exact h
  | wait d host hstage =>
      simp only [hstage] at h ⊢
      exact h
  | leave c d ret hstage =>
      rw [hstage] at h
      cases c with
      | submit | doorbell | wait => exact h
      | drain =>
          simp only [Probe.afterCall]
          split
          · exact h
          · exact ⟨d, h⟩
  | late d v hstage =>
      rw [hstage] at h
      exact ⟨d, h⟩
  | unmap d hstage =>
      rw [hstage] at h
      obtain ⟨hmapped, hreleased⟩ := h
      cases d with
      | tx => exact ⟨congrArg (Function.update · .tx 0) hmapped, congrArg (· ++ _) hreleased⟩
      | rx => exact congrArg (· ++ _) hreleased
  | compare hstage =>
      rw [hstage] at h
      exact fun _ => h
  | errUnmap d hstage =>
      rw [hstage] at h
      cases d with
      | tx =>
          -- `b` is the transfer that has failed, and `src` may be unmapped already
          obtain ⟨b, hmapped, hreleased⟩ := h
          cases b with
          | tx =>
              refine ⟨congrFun hmapped .rx, fun hne => ?_⟩
              have haddr : p.dmaAddr .tx = p.buffer .tx := congrFun hmapped .tx
              simp only [hreleased, haddr, if_neg hne]
              rfl
          | rx =>
              refine ⟨congrFun hmapped .rx, fun hne => ?_⟩
              have haddr : p.dmaAddr .tx = 0 := congrFun hmapped .tx
              simp only [hreleased, haddr]
              rfl
      | rx =>
          obtain ⟨haddr, hreleased⟩ := h
          intro hne
          simp only [hreleased (hne .tx), haddr, if_neg (hne .rx)]
          rfl
  | free d passed hstage =>
      rw [hstage] at h
      cases d with
      | tx => exact fun hne => congrArg (· ++ _) (h hne)
      | rx => cases passed <;> exact fun hne => congrArg (· ++ _) (h hne)

theorem ledger_step (h : p.Ledger p.stage) (hs : probeStep hz p a = some p') :
    p'.Ledger p'.stage := by
  rcases move_of_probeStep hs with ⟨-, hm⟩ | ⟨host, rfl, -⟩
  · exact h.next hm
  · exact h

theorem buffer_step (hs : probeStep hz p a = some p') : p'.buffer = p.buffer := by
  rcases move_of_probeStep hs with ⟨-, hm⟩ | ⟨host, rfl, -⟩
  · exact (buffer_of_move hm).1
  · rfl

theorem released_isPrefix (hne : ∀ d, p.buffer d ≠ 0) (h : p.Ledger p.stage) :
    p.released <+: allReleases := by
  have hbefore : ∀ d, unmappedBefore d <+: allReleases := fun d => by
    cases d with
    | tx => exact List.nil_prefix
    | rx => exact ⟨_, rfl⟩
  cases hstage : p.stage with
  | call c d | inCall c d | unmap d =>
      rw [hstage] at h
      exact h.2 ▸ hbefore d
  | compare =>
      rw [hstage] at h
      exact h ▸ List.take_prefix _ _
  | errUnmap d =>
      rw [hstage] at h
      cases d with
      | tx =>
          obtain ⟨d, -, hreleased⟩ := h
          exact hreleased ▸ hbefore d
      | rx => exact h.2 (hne .tx) ▸ List.take_prefix _ _
  | free d passed =>
      rw [hstage] at h
      cases d <;> exact h hne ▸ List.take_prefix _ _
  | returned | destroy =>
      rw [hstage] at h
      exact h hne ▸ List.prefix_refl _

/-- **Everything is given back, once.** Whatever the device, the clock and the rest of the
system do, the probe unmaps `src`, then `dst`, then frees both, nothing else and nothing
twice, and has done all of it when it returns or enters `engine_destroy`. -/
theorem probe_releases {w : World} {src dst : Addr} (hsrc : src ≠ 0) (hdst : dst ≠ 0)
    {as : List ProbeAction} (hp : exec (probeStep hz) (.start w src dst) as = some p) :
    p.released <+: allReleases ∧
      (p.stage = .returned ∨ p.stage = .destroy → p.released = allReleases) := by
  have hledger : p.Ledger p.stage := exec_invariant (I := fun p => p.Ledger p.stage)
    (fun _ _ _ => ledger_step) hp ⟨rfl, rfl⟩
  have hbuffer : p.buffer = (Probe.start w src dst).buffer :=
    exec_invariant (I := fun p => p.buffer = (Probe.start w src dst).buffer)
      (fun _ _ _ h hs => (buffer_step hs).trans h) hp rfl
  have hne : ∀ d, p.buffer d ≠ 0 := by
    intro d
    rw [hbuffer]
    cases d with
    | tx => exact hsrc
    | rx => exact hdst
  refine ⟨released_isPrefix hne hledger, fun hends => ?_⟩
  rcases hends with hend | hend <;> rw [hend] at hledger <;> exact hledger hne

def interrupted : List ProbeAction :=
  transferCalls ++ List.replicate 8 .next ++ .signal :: List.replicate 9 .next

theorem probe_releases_interrupted :
    ∃ p, exec (probeStep 250) (.start (.create .fresh (fun _ => 0) 0x1000 0x2000 true 16 16)
        0x3000 0x4000) interrupted = some p ∧ p.stage = .destroy ∧ p.released = allReleases := by
  have hrun : (exec (probeStep 250) (.start (.create .fresh (fun _ => 0) 0x1000 0x2000 true 16 16)
      0x3000 0x4000) interrupted).any (fun p => p.stage = .destroy) = true := by decide +kernel
  obtain ⟨p, hs, hdestroy⟩ := (Option.any_eq_true _ _).mp hrun
  exact ⟨p, hs, of_decide_eq_true hdestroy,
    (probe_releases (by decide) (by decide) hs).2 (Or.inr (of_decide_eq_true hdestroy))⟩

end Releases

/-! ### What the device may still reach -/

def Access.Touches : Access → Addr → Prop
  | .read addr len, x | .write addr len, x => Covers addr len x

section Access

variable {hz : ℕ} {p : Probe} {e : Engine} {w : World}

def ProbeStage.transfer : ProbeStage → Option Direction
  | .call _ d | .inCall _ d | .unmap d => some d
  | _ => none

theorem Probe.at_drained {stage : ProbeStage} {d : Direction} (hp : p.At stage)
    (hstage : stage.transfer = some d) : good (p.before d) <+: p.world.drained := by
  cases stage with
  | call c b =>
      obtain rfl : b = d := Option.some.inj hstage
      rw [hp.1.drained]
  | inCall c b =>
      obtain rfl : b = d := Option.some.inj hstage
      cases c with
      | submit =>
          obtain ⟨-, ⟨hstand, -⟩ | ⟨hstand, -⟩⟩ := hp
          · rw [hstand.drained]
          · rw [hstand.drained]
      | doorbell =>
          obtain ⟨hstand, -⟩ | ⟨hstand, -⟩ := hp
          · rw [hstand.drained]
          · rw [hstand.drained]
      | wait => rw [hp.1.drained]
      | drain =>
          obtain ⟨-, ⟨hstand, -⟩ | ⟨c, hstand, -⟩⟩ := hp
          · rw [hstand.drained]
          · rw [hstand.drained]
            exact List.prefix_append ..
  | unmap b =>
      obtain rfl : b = d := Option.some.inj hstage
      rw [hp.1.drained, p.good_upto]
      exact List.prefix_append ..
  | compare | errUnmap | free | returned | destroy => cases hstage

/-- After the transfers, the device has done what was announced, unless a wait has failed. -/
theorem Probe.at_served {stage : ProbeStage} (hp : p.At stage) (hstage : stage.transfer = none)
    (hin : p.timedOut = false) : p.world.Served := by
  have hfailed : p.Failed → p.world.Served := by
    intro h
    rcases h.why with hout | ⟨-, hserved⟩
    · rw [hin] at hout
      cases hout
    · exact hserved
  cases stage with
  | call | inCall | unmap => cases hstage
  | compare | returned => exact hp.served
  | errUnmap | destroy => exact hfailed hp
  | free d passed =>
      cases passed with
      | true => exact hp.served
      | false => exact hfailed hp

/-- The device's next access is to the rings or to the buffer of the transfer in hand. -/
theorem Completion.access_cases (h : Completion e w) {acc : Access}
    (hacc : callbackAccess w.dev w.callback = some acc) {x : Addr} (hx : acc.Touches x) :
    e.InSq x ∨ e.InCq x ∨ ∃ sqe, w.callback = .transfer sqe ∧ sqe.InBuffer x := by
  have hrings := h.submission.rings
  cases hc : w.callback with
  | idle | advance =>
      rw [hc] at hacc
      cases hacc
  | loop didWork =>
      rw [hc, callbackAccess] at hacc
      split at hacc <;> cases hacc
      refine Or.inl ?_
      rw [Access.Touches, sqeAddr_eq, hrings.devSq, hrings.devSqDepth] at hx
      exact Layout.covers_of_covers_slot
        (toNat_and_sub_one_lt (ne_zero_of_isPowerOfTwo h.wellFormed.sqDepth) _) hx
  | transfer sqe =>
      rw [hc, callbackAccess] at hacc
      refine Or.inr (Or.inr ⟨sqe, rfl, ?_⟩)
      split at hacc
      · cases hacc
        exact hx
      · split at hacc <;> cases hacc
        exact hx
  | writeCqe cqe =>
      rw [hc] at hacc
      cases hacc
      refine Or.inr (Or.inl ?_)
      rw [Access.Touches, cqeAddr_eq, hrings.devCq, hrings.devCqDepth] at hx
      exact Layout.covers_of_covers_slot (toNat_and_sub_one_lt h.wellFormed.cqDepth _) hx

theorem Sound.untouched_src (h : Sound e p) (hdrained : 1 ≤ p.world.drained.length)
    {acc : Access} (hacc : callbackAccess p.world.dev p.world.callback = some acc) {x : Addr}
    (hx : Covers (p.buffer .tx) 64 x) : ¬ acc.Touches x := by
  intro htouch
  rcases h.completion.access_cases hacc htouch with hsq | hcq | ⟨sqe, hc, hbuf⟩
  · exact (h.apart .tx x hx).1 hsq
  · exact (h.apart .tx x hx).2 hcq
  · rcases h.completion.transfer_cases (Probe.at_accepted h.stage) hc with
      ⟨hnone, -⟩ | ⟨failed, -, rfl⟩
    · -- nothing is posted before the first transfer is over, but something is drained
      have hfail := h.completion.posting.failures
      have hle := h.completion.draining.drained_le
      rw [hnone] at hfail
      simp only [List.length_nil] at hfail
      omega
    · exact not_inBuffer_transferSqe (h.buffers x hx) hbuf

theorem Sound.untouched (h : Sound e p) (hledger : p.Ledger p.stage)
    (hin : p.timedOut = false) {d : Direction} (hd : .unmap d ∈ p.released) {acc : Access}
    (hacc : callbackAccess p.world.dev p.world.callback = some acc) {x : Addr}
    (hx : Covers (p.buffer d) 64 x) : ¬ acc.Touches x := by
  cases htransfer : p.stage.transfer with
  | none =>
      have hserved := Probe.at_served h.stage htransfer hin
      have hnone := callbackAccess_of_settled (h.completion.submission.settled hserved)
      rw [hnone] at hacc
      cases hacc
  | some b =>
      have hreleased : p.released = unmappedBefore b := by
        cases hstage : p.stage <;> rw [hstage] at hledger htransfer <;> cases htransfer <;>
          exact hledger.2
      rw [hreleased] at hd
      cases b with
      | tx => cases hd
      | rx =>
          obtain rfl : d = .tx := by simpa [unmappedBefore] using hd
          have hlen := (Probe.at_drained h.stage htransfer).length_le
          exact h.untouched_src hlen hacc hx

variable {d : DmaEngineState} {m : Mem} {sqDma cqDma src dst : Addr} {msi : Bool}
  {as : List ProbeAction}

/-- **Nothing is given back too early, unless a wait has failed.** While none has, the
device does not touch a buffer that has been unmapped, and it makes no access at all
during the `engine_destroy` of a smoke test that was told of a failed transfer. -/
theorem probe_untouched (hd : d.InStep) (h : Placed sqDma cqDma src dst)
    (halone : Steps (probeStep hz) LeavesAlone (.create d m sqDma cqDma src dst msi) as)
    (hp : exec (probeStep hz) (.create d m sqDma cqDma src dst msi) as = some p)
    (hin : p.timedOut = false) :
    (∀ b, .unmap b ∈ p.released → ∀ acc ∈ callbackAccess p.world.dev p.world.callback,
        ∀ x, Covers (p.buffer b) 64 x → ¬ acc.Touches x) ∧
      (p.stage = .destroy → ∀ bs t, exec teardownStep p.world.destroy bs = some t →
        callbackAccess t.dev t.callback = none) := by
  have hsound := sound_exec hd h halone hp
  have hledger : p.Ledger p.stage := exec_invariant (I := fun p => p.Ledger p.stage)
    (fun _ _ _ => ledger_step) hp ⟨rfl, rfl⟩
  refine ⟨fun b hb acc hacc x hx => hsound.untouched hledger hin hb hacc hx,
    fun hdestroy bs t ht => ?_⟩
  have hserved : p.world.Served := Probe.at_served hsound.stage (by rw [hdestroy]; rfl) hin
  have hsettled : Settled p.world.destroy.dev p.world.destroy.callback :=
    hsound.completion.submission.settled hserved
  exact callbackAccess_of_settled (exec_invariant (I := fun t => Settled t.dev t.callback)
    (fun _ _ _ => settled_teardownStep) ht hsettled)

def failedTest : List ProbeAction :=
  transferCalls ++ List.replicate 8 .next ++
    (processOne (.error fun _ => none)).map .world ++ List.replicate 12 .next

theorem probe_untouched_failedTest :
    ∃ p, exec (probeStep 250) (.create .fresh (fun _ => 0) 0x1000 0x2000 0x3000 0x4000 true)
        failedTest = some p ∧ p.stage = .destroy ∧
      ∀ bs t, exec teardownStep p.world.destroy bs = some t →
        callbackAccess t.dev t.callback = none := by
  have hrun : (exec (probeStep 250) (.create .fresh (fun _ => 0) 0x1000 0x2000 0x3000 0x4000 true)
      failedTest).any (fun p => p.stage = .destroy ∧ p.timedOut = false) = true := by
    decide +kernel
  obtain ⟨p, hs, hends⟩ := (Option.any_eq_true _ _).mp hrun
  obtain ⟨hdestroy, hin⟩ := of_decide_eq_true hends
  exact ⟨p, hs, hdestroy,
    (probe_untouched inStep_fresh placed_pages (leavesAlone_of_quiet rfl) hs hin).2 hdestroy⟩

/-- When a wait has failed, the device writes to `dst` although it has been freed and now
holds a byte of somebody else. -/
example : (exec (probeStep 250) (.create .fresh (fun _ => 0) 0x1000 0x2000 0x3000 0x4000 true)
    (interrupted ++ [.world (.host 0x4000 7)])).any (fun p =>
      .free .rx ∈ p.released ∧ p.world.mem 0x4000 = 7 ∧
        (exec (probeStep 250) p [.world .timer, .world (.device .ok), .world (.device .ok)]).any
          (fun q => q.world.mem 0x4000 = 104) = true) = true := by
  decide +kernel

end Access

end SystemsPrep.Dma
