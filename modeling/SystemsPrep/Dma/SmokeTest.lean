import SystemsPrep.Dma.Probe

/-!
The smoke test of `dma_engine_probe`, statement by statement.

On a device whose indices are zero each call of the probe does what it was made for: the
submissions are accepted, a wait that returns 0 has waited for the completion it is about,
and a drain brings that completion. At each statement this tells what has been submitted,
announced and drained, and at `err_unmap` why the probe has got there.
-/

namespace SystemsPrep.Dma

open Base

/-! ### The device between two calls -/

section Device

variable {e : Engine} {w w' : World}

/-- What the steps of others leave alone, and the completions that they may add. -/
structure SameCalls (w w' : World) : Prop where
  eng : w'.eng = w.eng
  driver : w'.driver = w.driver
  accepted : w'.accepted = w.accepted
  announced : w'.announced = w.announced
  drained : w'.drained = w.drained
  failures : w.failures <+: w'.failures
  posted : w.posted.length ≤ w'.posted.length

theorem sameCalls_of_step {a : Action} (ha : a.byDriver = false) (hs : step w a = some w') :
    SameCalls w w' := by
  cases move_of_step hs with
  | enter a d hentry =>
      rw [byDriver_of_entry hentry] at ha
      cases ha
  | driver => cases ha
  | timer | host => exact ⟨rfl, rfl, rfl, rfl, rfl, List.prefix_refl _, le_rfl⟩
  | device r w' hm =>
      cases hm with
      | advance cqe hc => exact ⟨rfl, rfl, rfl, rfl, rfl, List.prefix_refl _, by simp⟩
      | transfer => exact ⟨rfl, rfl, rfl, rfl, rfl, List.prefix_append .., le_rfl⟩
      | stop | fetch | writeCqe => exact ⟨rfl, rfl, rfl, rfl, rfl, List.prefix_refl _, le_rfl⟩

/-- The device has completed what was announced. -/
def World.Served (w : World) : Prop := w.announced ≤ w.posted.length

theorem SameCalls.served (h : SameCalls w w') (hserved : w.Served) : w'.Served := by
  rw [World.Served, h.announced]
  exact hserved.trans h.posted

theorem Submission.resting (h : Submission e w) (hserved : w.Served) :
    w.callback = .idle ∨ ∃ didWork, w.callback = .loop didWork := by
  have hfetch := h.fetch
  unfold World.Served at hserved
  cases hc : w.callback with
  | idle => exact Or.inl rfl
  | loop didWork => exact Or.inr ⟨didWork, rfl⟩
  | transfer | writeCqe | advance =>
      rw [hc] at hfetch
      simp only [FetchStage] at hfetch
      omega

theorem Submission.settled (h : Submission e w) (hserved : w.Served) :
    Settled w.dev w.callback := by
  have hstops : w.dev.Stops :=
    Or.inl (h.sqHead_eq_sqTail_iff.mpr (le_antisymm h.posted_le hserved))
  rcases h.resting hserved with hc | ⟨didWork, hc⟩ <;> rw [hc]
  · exact fun _ => hstops
  · exact hstops

/-- A settled device makes no access. -/
theorem callbackAccess_of_settled {s : DmaEngineState} {c : Callback} (h : Settled s c) :
    callbackAccess s c = none := by
  cases c with
  | loop didWork => exact if_pos h
  | idle | advance => rfl
  | transfer | writeCqe => exact h.elim

theorem Completion.of_drained (h : Completion e w) (ho : w.InOrder) {k : ℕ} {c : Cqe}
    (hc : w.drained[k]? = some c) :
    ∃ sqe failed, w.accepted[k]? = some sqe ∧ w.failures[k]? = some failed ∧
      c = completion sqe failed := by
  have hpre : w.drained <+: w.results :=
    ((List.prefix_append ..).trans ho).trans h.posted_isPrefix
  exact h.of_results (getElem?_of_isPrefix hpre hc)

theorem Completion.length_failures_le (h : Completion e w) :
    w.failures.length ≤ w.accepted.length := by
  have hfail := h.posting.failures
  have hfetch := h.submission.fetch
  have hle := h.submission.announced_le
  have hfetched := h.submission.fetched_le.2
  cases hc : w.callback <;> rw [hc] at hfail hfetch <;>
    simp only [Callback.held, FetchStage, List.length_nil, List.length_singleton]
      at hfail hfetch <;>
    omega

end Device

/-! ### The bytes on their way -/

structure Carried (src dst : Addr) (w : World) : Prop where
  src : w.mem.read src 18 = message
  loaded : ∀ l, w.failures = false :: l → (List.range 18).map w.dev.devBuf = message
  stored : w.failures = [false, false] → w.mem.read dst 18 = message

def probeSqes (src dst : Addr) : List Sqe := [transferSqe src .tx, transferSqe dst .rx]

section Carried

variable {e : Engine} {sqDma cqDma src dst : Addr} {w w' : World} {a : Action}

theorem covers_of_le {base : Addr} {len len' : ℕ} {x : Addr} (hle : len ≤ len')
    (h : Covers base len x) : Covers base len' x := lt_of_lt_of_le h hle

theorem read_eq_of_apart {m m' : Mem} {addr : Addr} {P : Addr → Prop}
    (hm : ∀ x, ¬ P x → m' x = m x) (hP : ∀ x, Covers addr 64 x → ¬ P x) :
    m'.read addr 18 = m.read addr 18 :=
  Mem.read_congr fun i hi => hm _ (hP _ (covers_add (by omega)))

theorem Carried.setMem (h : Carried src dst w) {P : Addr → Prop}
    (hm : ∀ x, ¬ P x → w'.mem x = w.mem x) (hsrc : ∀ x, Covers src 64 x → ¬ P x)
    (hdst : ∀ x, Covers dst 64 x → ¬ P x) (hbuf : w'.dev.devBuf = w.dev.devBuf)
    (hfail : w'.failures = w.failures) : Carried src dst w' where
  src := (read_eq_of_apart hm hsrc).trans h.src
  loaded l hl := by
    rw [hbuf]
    exact h.loaded l (hfail ▸ hl)
  stored hl := (read_eq_of_apart hm hdst).trans (h.stored (hfail ▸ hl))

theorem clampLen_transferSqe (addr : Addr) (d : Direction) :
    (clampLen (transferSqe addr d).len).toNat = 18 := by
  cases d <;> rfl

theorem not_inBuffer_transferSqe {addr x : Addr} {d : Direction} (h : ¬ Covers addr 64 x) :
    ¬ (transferSqe addr d).InBuffer x := by
  intro hx
  rw [Sqe.InBuffer, clampLen_transferSqe] at hx
  exact h (covers_of_le (by decide : 18 ≤ 64) (by cases d <;> exact hx))

/-- The transfer that the device is about to make is the next of the two. -/
theorem Completion.transfer_cases (h : Completion e w) (hsent : w.accepted <+: probeSqes src dst)
    {sqe : Sqe} (hc : w.callback = .transfer sqe) :
    (w.failures = [] ∧ sqe = transferSqe src .tx) ∨
      ∃ failed, w.failures = [failed] ∧ sqe = transferSqe dst .rx := by
  have hfetch := h.submission.fetch
  have hfail := h.posting.failures
  rw [hc] at hfetch hfail
  obtain ⟨-, -, hsqe⟩ := hfetch
  have hlen : w.failures.length = w.posted.length := hfail
  have hnext : (probeSqes src dst)[w.failures.length]? = some sqe := by
    rw [hlen]
    exact getElem?_of_isPrefix (h.submission.fifo.trans hsent) hsqe
  match hf : w.failures with
  | [] =>
      rw [hf] at hnext
      exact Or.inl ⟨rfl, (Option.some.inj hnext).symm⟩
  | [failed] =>
      rw [hf] at hnext
      exact Or.inr ⟨failed, rfl, (Option.some.inj hnext).symm⟩
  | _ :: _ :: _ =>
      rw [hf] at hnext
      cases hnext

theorem Carried.tx (h : Carried src dst w) {r : DmaResult} {cqe : Cqe} (hnone : w.failures = []) :
    Carried src dst { w with
      dev := (dataDma w.dev w.mem (transferSqe src .tx) r).1
      callback := .writeCqe cqe
      mem := (dataDma w.dev w.mem (transferSqe src .tx) r).2.1
      failures := w.failures ++ [r.failed] } := by
  rw [dataDma_tx rfl, hnone]
  refine ⟨h.src, fun l hl => ?_, fun hl => by simp at hl⟩
  obtain rfl : r = .ok := eq_ok_of_failed (List.cons.inj hl).1
  refine Eq.trans (List.map_congr_left fun i hi => ?_) h.src
  exact if_pos (by rw [clampLen_transferSqe]; exact List.mem_range.mp hi)

theorem Carried.rx (h : Carried src dst w) (hbuffers : Apart src 64 dst 64) {r : DmaResult}
    {cqe : Cqe} {failed : Bool} (hone : w.failures = [failed]) :
    Carried src dst { w with
      dev := (dataDma w.dev w.mem (transferSqe dst .rx) r).1
      callback := .writeCqe cqe
      mem := (dataDma w.dev w.mem (transferSqe dst .rx) r).2.1
      failures := w.failures ++ [r.failed] } := by
  have hsrc : (dataDma w.dev w.mem (transferSqe dst .rx) r).2.1.read src 18 = message := by
    rw [← h.src]
    refine Mem.read_congr fun i hi => dataDma_mem _ _ _ _ (not_inBuffer_transferSqe ?_)
    exact hbuffers _ (covers_add (by omega))
  rw [dataDma_rx rfl] at hsrc ⊢
  refine ⟨hsrc, fun l hl => ?_, fun hl => ?_⟩
  · rw [hone] at hl
    exact h.loaded [] (hone.trans (congrArg (fun b => [b]) (List.cons.inj hl).1))
  · rw [hone] at hl
    obtain ⟨rfl, hr⟩ : failed = false ∧ r.failed = false := by simpa using hl
    obtain rfl := eq_ok_of_failed hr
    refine Eq.trans (List.map_congr_left fun i hi => ?_) (h.loaded [] hone)
    exact dmaWriteBuf_ok (by rw [clampLen_transferSqe]; exact List.mem_range.mp hi)

/-- No step loses a byte of the message. -/
theorem Carried.step (h : Carried src dst w) (hw : Completion e w)
    (hsent : w.accepted <+: probeSqes src dst) (hbuffers : Apart src 64 dst 64)
    (hsrc : ∀ x, Covers src 64 x → ¬ e.InSq x ∧ ¬ e.InCq x)
    (hdst : ∀ x, Covers dst 64 x → ¬ e.InSq x ∧ ¬ e.InCq x)
    (hhost : ∀ x b, a = .host x b → ¬ Covers src 64 x ∧ ¬ Covers dst 64 x)
    (hs : Dma.step w a = some w') : Carried src dst w' := by
  have hwf := hw.wellFormed
  have hrings := hw.submission.rings
  cases move_of_step hs with
  | enter | timer => exact ⟨h.src, h.loaded, h.stored⟩
  | driver w' hm =>
      cases hm with
      | writeSlot sqe tail hd =>
          refine h.setMem (P := e.InSq) (fun x hx => ?_) (fun x hx => (hsrc x hx).1)
            (fun x hx => (hdst x hx).1) rfl rfl
          rw [sqSlot_eq, hrings.sq, hrings.sqDepth]
          exact Layout.store_of_not_covers
            (toNat_and_sub_one_lt (ne_zero_of_isPowerOfTwo hwf.sqDepth) tail) hx
      | readHead | advanceTail | writeDoorbell | readTail | copy | finish =>
          exact ⟨h.src, h.loaded, h.stored⟩
  | device r w' hm =>
      cases hm with
      | stop didWork hc htest =>
          obtain ⟨_, _, _, hirq⟩ := raiseIrq_eq didWork w.dev
          rw [hirq]
          exact ⟨h.src, h.loaded, h.stored⟩
      | fetch | advance => exact ⟨h.src, h.loaded, h.stored⟩
      | transfer sqe buf m hc hm =>
          rw [deviceStep_transfer hc hs]
          rcases hw.transfer_cases hsent hc with ⟨hnone, rfl⟩ | ⟨failed, hone, rfl⟩
          · exact h.tx hnone
          · exact h.rx hbuffers hone
      | writeCqe cqe hc =>
          refine h.setMem (P := e.InCq) (fun x hx => ?_) (fun x hx => (hsrc x hx).2)
            (fun x hx => (hdst x hx).2) rfl rfl
          rw [cqeAddr_eq, hrings.devCq, hrings.devCqDepth]
          exact Layout.store_of_not_covers (toNat_and_sub_one_lt hwf.cqDepth _) hx
  | host x b =>
      obtain ⟨hxsrc, hxdst⟩ := hhost x b rfl
      refine h.setMem (P := fun y => y = x) (fun y hy => Function.update_of_ne hy b w.mem)
        (fun y hy heq => hxsrc (heq ▸ hy)) (fun y hy heq => hxdst (heq ▸ hy)) rfl rfl

end Carried

/-! ### Where the probe stands -/

def good (l : List Sqe) : List Cqe := l.map fun sqe => completion sqe false

def Driver.submitting (sqe : Sqe) : Driver → Prop
  | .readHead s | .writeSlot s _ | .advanceTail s => s = sqe
  | _ => False

def Driver.drainingOne : Driver → Prop
  | .readTail max => max = 1
  | .copyOut _ n _ => n = 1
  | _ => False

namespace Probe

def before (p : Probe) : Direction → List Sqe
  | .tx => []
  | .rx => [transferSqe (p.buffer .tx) .tx]

def upto (p : Probe) (d : Direction) : List Sqe := p.before d ++ [transferSqe (p.buffer d) d]

def mapped (p : Probe) : Direction → Direction → Addr
  | .tx => p.buffer
  | .rx => Function.update p.buffer .tx 0

def acceptedBefore (p : Probe) (d : Direction) : ProbeCall → List Sqe
  | .submit => p.before d
  | .doorbell | .wait | .drain => p.upto d

def announcedBefore (p : Probe) (d : Direction) : ProbeCall → ℕ
  | .submit | .doorbell => (p.before d).length
  | .wait | .drain => (p.upto d).length

/-- What has been accepted, announced and drained so far, with no wait having failed. -/
structure Standing (p : Probe) (d : Direction) (accepted : List Sqe) (announced : ℕ)
    (drained : List Cqe) : Prop where
  accepted : p.world.accepted = accepted
  announced : p.world.announced = announced
  drained : p.world.drained = drained
  mapped : p.dmaAddr = p.mapped d
  inTime : p.timedOut = false

def Inside (p : Probe) (d : Direction) : ProbeCall → Prop
  | .submit => p.world.Served ∧
      ((p.Standing d (p.before d) (p.before d).length (good (p.before d)) ∧
          p.world.driver.submitting (transferSqe (p.buffer d) d)) ∨
        (p.Standing d (p.upto d) (p.before d).length (good (p.before d)) ∧
          p.world.driver.outside = true))
  | .doorbell =>
      (p.Standing d (p.upto d) (p.before d).length (good (p.before d)) ∧
          p.world.driver = .writeDoorbell) ∨
        (p.Standing d (p.upto d) (p.upto d).length (good (p.before d)) ∧
          p.world.driver.outside = true)
  | .wait => p.Standing d (p.upto d) (p.upto d).length (good (p.before d)) ∧
      p.world.driver.outside = true ∧ (p.host.stage = .returned 0 → p.world.Served)
  | .drain => p.world.Served ∧
      ((p.Standing d (p.upto d) (p.upto d).length (good (p.before d)) ∧
          p.world.driver.drainingOne) ∨
        ∃ c, p.Standing d (p.upto d) (p.upto d).length (good (p.before d) ++ [c]) ∧
          p.world.driver = .returned (.size 1 [c]))

structure Passed (p : Probe) : Prop where
  accepted : p.world.accepted = p.upto .rx
  failures : p.world.failures = [false, false]
  served : p.world.Served
  inTime : p.timedOut = false

structure Failed (p : Probe) : Prop where
  accepted : p.world.accepted <+: p.upto .rx
  why : p.timedOut = true ∨ (true ∈ p.world.failures ∧ p.world.Served)

def At (p : Probe) : ProbeStage → Prop
  | .call c d =>
      p.Standing d (p.acceptedBefore d c) (p.announcedBefore d c) (good (p.before d)) ∧
        p.world.driver.outside = true ∧ (c = .submit ∨ c = .drain → p.world.Served)
  | .inCall c d => p.Inside d c
  | .unmap d => p.Standing d (p.upto d) (p.upto d).length (good (p.upto d)) ∧
      p.world.driver.outside = true ∧ p.world.Served
  | .compare | .free _ true | .returned => p.Passed
  | .errUnmap _ | .free _ false | .destroy => p.Failed

end Probe

section Around

variable {hz : ℕ} {p p' : Probe} {a : ProbeAction} {h : Waiting} {e : Engine}

theorem Around.wait (hr : Around p a h) : h.stage = p.host.stage := by
  cases hr <;> rfl

theorem Around.sameCalls (hr : Around p a h) : SameCalls p.world h.world := by
  cases hr with
  | world b w hb hs => exact sameCalls_of_step hb hs
  | tick | signal | wake => exact ⟨rfl, rfl, rfl, rfl, rfl, List.prefix_refl _, le_rfl⟩

theorem Around.standing (hr : Around p a h) {d : Direction} {accepted : List Sqe}
    {announced : ℕ} {drained : List Cqe} (hp : p.Standing d accepted announced drained) :
    ({ p with host := h } : Probe).Standing d accepted announced drained where
  accepted := hr.sameCalls.accepted.trans hp.accepted
  announced := hr.sameCalls.announced.trans hp.announced
  drained := hr.sameCalls.drained.trans hp.drained
  mapped := hp.mapped
  inTime := hp.inTime

theorem Around.inside (hr : Around p a h) {d : Direction} {c : ProbeCall}
    (hp : p.Inside d c) : ({ p with host := h } : Probe).Inside d c := by
  have hcalls := hr.sameCalls
  have hdriver : ({ p with host := h } : Probe).world.driver = p.world.driver := hcalls.driver
  cases c with
  | submit =>
      obtain ⟨hserved, hp⟩ := hp
      refine ⟨hcalls.served hserved, ?_⟩
      rw [hdriver]
      exact hp.imp (And.imp_left hr.standing) (And.imp_left hr.standing)
  | doorbell =>
      simp only [Probe.Inside, hdriver] at hp ⊢
      exact hp.imp (And.imp_left hr.standing) (And.imp_left hr.standing)
  | wait =>
      obtain ⟨hstand, hout, hreturned⟩ := hp
      refine ⟨hr.standing hstand, hdriver ▸ hout, fun hret => ?_⟩
      exact hcalls.served (hreturned (hr.wait ▸ hret))
  | drain =>
      obtain ⟨hserved, hp⟩ := hp
      refine ⟨hcalls.served hserved, ?_⟩
      rw [hdriver]
      exact hp.imp (And.imp_left hr.standing) fun ⟨c, hc⟩ => ⟨c, hc.imp_left hr.standing⟩

theorem Around.passed (hr : Around p a h) (hw : Completion e h.world) (hp : p.Passed) :
    ({ p with host := h } : Probe).Passed where
  accepted := hr.sameCalls.accepted.trans hp.accepted
  failures := by
    have hlen := hw.length_failures_le
    rw [hr.sameCalls.accepted, hp.accepted] at hlen
    have hpre := hr.sameCalls.failures
    rw [hp.failures] at hpre
    exact (hpre.eq_of_length_le hlen).symm
  served := hr.sameCalls.served hp.served
  inTime := hp.inTime

theorem Around.failed (hr : Around p a h) (hp : p.Failed) :
    ({ p with host := h } : Probe).Failed where
  accepted := by
    have haccepted := hp.accepted
    rwa [← hr.sameCalls.accepted] at haccepted
  why := hp.why.imp_right fun ⟨hmem, hserved⟩ =>
    ⟨hr.sameCalls.failures.subset hmem, hr.sameCalls.served hserved⟩

theorem Around.keeps (hr : Around p a h) (hw : Completion e h.world) {stage : ProbeStage}
    (hp : p.At stage) : ({ p with host := h } : Probe).At stage := by
  have hcalls := hr.sameCalls
  have hdriver : ({ p with host := h } : Probe).world.driver = p.world.driver := hcalls.driver
  cases stage with
  | call c d =>
      obtain ⟨hstand, hout, hserved⟩ := hp
      exact ⟨hr.standing hstand, hdriver ▸ hout, fun hc => hcalls.served (hserved hc)⟩
  | inCall c d => exact hr.inside hp
  | unmap d =>
      obtain ⟨hstand, hout, hserved⟩ := hp
      exact ⟨hr.standing hstand, hdriver ▸ hout, hcalls.served hserved⟩
  | compare | returned => exact hr.passed hw hp
  | errUnmap d | destroy => exact hr.failed hp
  | free d passed =>
      cases passed with
      | true => exact hr.passed hw hp
      | false => exact hr.failed hp

end Around

/-! ### The steps of the probe -/

section Next

variable {hz : ℕ} {p p' : Probe} {e : Engine} {c : ProbeCall} {d : Direction}

theorem Probe.mapped_self (p : Probe) (d : Direction) : p.mapped d d = p.buffer d := by
  cases d <;> rfl

theorem Probe.at_stage {stage : ProbeStage} (hstage : p.stage = stage) (h : p.At stage) :
    p.At p.stage := by
  rw [hstage]
  exact h

theorem Probe.length_before_le (p : Probe) (d : Direction) : (p.before d).length ≤ 1 := by
  cases d <;> simp [Probe.before]

theorem inside_of_enter (hp : p.At (.call c d)) (hc : c ≠ .wait) :
    (Probe.setWorld { p with stage := .inCall c d }
      { p.world with driver := p.callEntry c d }).Inside d c := by
  obtain ⟨hstand, -, hserved⟩ := hp
  cases c with
  | wait => exact absurd rfl hc
  | submit =>
      refine ⟨hserved (Or.inl rfl), Or.inl ⟨{ hstand with }, ?_⟩⟩
      change transferSqe (p.dmaAddr d) d = transferSqe (p.buffer d) d
      rw [hstand.mapped, p.mapped_self]
  | doorbell => exact Or.inl ⟨{ hstand with }, rfl⟩
  | drain => exact ⟨hserved (Or.inr rfl), Or.inl ⟨{ hstand with }, rfl⟩⟩

theorem not_driverMove_of_outside {w w' : World} (hout : w.driver.outside = true) :
    ¬ DriverMove w w' := by
  intro hm
  cases hm with
  | readHead _ hd | writeSlot _ _ hd | advanceTail _ hd | writeDoorbell hd | readTail _ hd
  | copy _ _ _ hd | finish _ _ _ hd =>
      rw [hd] at hout
      cases hout

/-- The submission is accepted. -/
theorem inside_submit (hw : Completion e p.world) (he : e.sqDepth = 16)
    (hp : p.Inside d .submit) {w : World} (hm : DriverMove p.world w) :
    (p.setWorld w).Inside d .submit := by
  obtain ⟨hserved, ⟨hstand, hsub⟩ | ⟨-, hout⟩⟩ := hp
  · cases hm with
    | readHead sqe hd =>
        rw [hd] at hsub
        obtain rfl : sqe = _ := hsub
        have hroom : p.world.accepted.length ≠ p.world.posted.length + e.sqDepth.toNat := by
          have hlen := p.length_before_le d
          rw [hstand.accepted, he]
          change _ ≠ _ + 16
          omega
        refine ⟨hserved, Or.inl ⟨{ hstand with }, ?_⟩⟩
        change (p.world.eng.submitCheck _ p.world.dev.sqHead).submitting _
        rw [hw.submission.submitCheck_eq, if_neg hroom]
        rfl
    | writeSlot sqe tail hd =>
        rw [hd] at hsub
        exact ⟨hserved, Or.inl ⟨{ hstand with }, hsub⟩⟩
    | advanceTail sqe hd =>
        rw [hd] at hsub
        obtain rfl : sqe = _ := hsub
        refine ⟨hserved, Or.inr ⟨{ hstand with accepted := ?_ }, rfl⟩⟩
        exact congrArg (· ++ _) hstand.accepted
    | writeDoorbell hd | readTail _ hd | copy _ _ _ hd | finish _ _ _ hd =>
        rw [hd] at hsub
        exact hsub.elim
  · exact absurd hm (not_driverMove_of_outside hout)

theorem inside_doorbell (hp : p.Inside d .doorbell) {w : World} (hm : DriverMove p.world w) :
    (p.setWorld w).Inside d .doorbell := by
  obtain ⟨hstand, hbell⟩ | ⟨-, hout⟩ := hp
  · cases hm with
    | writeDoorbell hd =>
        refine Or.inr ⟨{ hstand with announced := ?_ }, rfl⟩
        exact congrArg List.length hstand.accepted
    | readHead _ hd | writeSlot _ _ hd | advanceTail _ hd | readTail _ hd | copy _ _ _ hd
    | finish _ _ _ hd =>
        rw [hd] at hbell
        cases hbell
  · exact absurd hm (not_driverMove_of_outside hout)

/-- The drain finds one completion and copies it. -/
theorem inside_drain (hw : Completion e p.world) (hp : p.Inside d .drain) {w : World}
    (hm : DriverMove p.world w) : (p.setWorld w).Inside d .drain := by
  obtain ⟨hserved, ⟨hstand, hone⟩ | ⟨c, -, hd⟩⟩ := hp
  · cases hm with
    | readTail max hd =>
        rw [hd] at hone
        obtain rfl : max = 1 := hone
        have hcount : (p.world.dev.cqTail - p.world.eng.cqHead).toNat = 1 := by
          have hle := hw.submission.posted_le
          have hposted : p.world.posted.length = p.world.drained.length + 1 := by
            unfold World.Served at hserved
            rw [hstand.announced] at hle hserved
            rw [hstand.drained, good, List.length_map, le_antisymm hle hserved, Probe.upto,
              List.length_append, List.length_singleton]
          rw [hw.submission.cqTail, hw.draining.cqHead,
            toNat_ofNat_sub hw.draining.drained_le (by omega)]
          omega
        have hn : p.world.eng.drainCount 1 p.world.dev.cqTail = 1 := by
          have hone : p.world.dev.cqTail - p.world.eng.cqHead = 1 := BitVec.eq_of_toNat_eq hcount
          rw [Engine.drainCount, hone]
          rfl
        refine ⟨hserved, Or.inl ⟨{ hstand with }, ?_⟩⟩
        change (p.world.eng.drainCheck 1 p.world.dev.cqTail).drainingOne
        rw [Engine.drainCheck, hn]
        rfl
    | copy cqHead n out hd hn =>
        rw [hd] at hone
        exact ⟨hserved, Or.inl ⟨{ hstand with }, hone⟩⟩
    | finish cqHead n out hd hn =>
        rw [hd] at hone
        obtain rfl : n = 1 := hone
        have hcopy := hw.draining.copy
        rw [hd] at hcopy
        obtain ⟨c, rfl⟩ : ∃ c, out = [c] :=
          List.length_eq_one_iff.mp (le_antisymm hcopy.2.2 hn)
        refine ⟨hserved, Or.inr ⟨c, { hstand with drained := ?_ }, rfl⟩⟩
        exact congrArg (· ++ [c]) hstand.drained
    | readHead _ hd | writeSlot _ _ hd | advanceTail _ hd | writeDoorbell hd =>
        rw [hd] at hone
        exact hone.elim
  · refine absurd hm (not_driverMove_of_outside ?_)
    rw [hd]
    rfl

/-- `engine_wait` returns 0 on a check that has found a completion. -/
theorem Waiting.condition_of_returned {h h' : Waiting} (hn : h.next = some h')
    (hret : h'.stage = .returned 0) : h.condition = true := by
  have hfinish : ∀ ret, (h.check.finish ret).stage = .returned 0 → 0 < ret := by
    intro ret hstage
    by_contra hneg
    rw [Waiting.finish, if_neg hneg] at hstage
    cases hstage
  have hends : h.ends = true → 0 < h.check.ret → h.condition = true := by
    intro hends hpos
    by_contra hcond
    rw [Bool.not_eq_true] at hcond
    simp only [Waiting.ends, hcond, Bool.false_or, decide_eq_true_eq] at hends
    simp [Waiting.check, hcond, hends] at hpos
  unfold Waiting.next at hn
  split at hn
  · cases hn
    split at hret <;> rename_i htest
    · exact hends htest (hfinish _ hret)
    · cases hret
  · cases hn
    split at hret <;> cases hret
  · cases hn
    split at hret <;> rename_i htest
    · exact hends htest (hfinish _ hret)
    · split at hret
      · exact absurd (hfinish _ hret) (by decide)
      · cases hret
  · cases hn
    split at hret
    · cases hret
    · split at hret <;> cases hret
  · split at hn <;> cases hn
    cases hret
  · cases hn

theorem served_of_condition {h : Waiting} (hw : Completion e h.world) (hcond : h.condition = true)
    (hlast : h.world.announced ≤ h.world.drained.length + 1) : h.world.Served := by
  have hne : h.world.dev.cqTail ≠ h.world.eng.cqHead := of_decide_eq_true hcond
  have hle := hw.draining.drained_le
  have hdiff : h.world.posted.length ≠ h.world.drained.length := by
    intro heq
    rw [hw.submission.cqTail, hw.draining.cqHead, heq] at hne
    exact hne rfl
  unfold World.Served
  omega

theorem inside_wait (hw : Completion e p.world) (hp : p.Inside d .wait) {h : Waiting}
    (hn : p.host.next = some h) : ({ p with host := h } : Probe).Inside d .wait := by
  obtain ⟨hstand, hout, -⟩ := hp
  have hworld : h.world = p.world := Waiting.world_next hn
  have hserved : h.stage = .returned 0 → p.world.Served := by
    intro hret
    refine served_of_condition hw (Waiting.condition_of_returned hn hret) ?_
    change p.world.announced ≤ p.world.drained.length + 1
    rw [hstand.announced, hstand.drained]
    simp [Probe.upto, good]
  refine ⟨⟨?_, ?_, ?_, hstand.mapped, hstand.inTime⟩, ?_, fun hret => ?_⟩
  · exact (congrArg World.accepted hworld).trans hstand.accepted
  · exact (congrArg World.announced hworld).trans hstand.announced
  · exact (congrArg World.drained hworld).trans hstand.drained
  · exact (congrArg (fun w => w.driver.outside) hworld).trans hout
  · change h.world.Served
    rw [hworld]
    exact hserved hret

theorem status_completion (addr : Addr) (d : Direction) (failed : Bool) :
    (completion (transferSqe addr d) failed).status = 0 ↔ failed = false := by
  cases d <;> cases failed <;> simp [completion, transferSqe, opTx, opRx, dmaError]

theorem drained_completion (hw : Completion e p.world) (ho : p.world.InOrder) {c : Cqe}
    (hstand : p.Standing d (p.upto d) (p.upto d).length (good (p.before d) ++ [c])) :
    ∃ failed ∈ p.world.failures, c = completion (transferSqe (p.buffer d) d) failed := by
  have hlast : p.world.drained[(p.before d).length]? = some c := by
    rw [hstand.drained, good]
    simp
  obtain ⟨sqe, failed, hsqe, hfailed, rfl⟩ := hw.of_drained ho hlast
  rw [hstand.accepted, Probe.upto, List.getElem?_concat_length, Option.some.injEq] at hsqe
  exact ⟨failed, List.mem_of_getElem? hfailed, by rw [hsqe]⟩

theorem Probe.upto_isPrefix (p : Probe) (d : Direction) : p.upto d <+: p.upto .rx := by
  cases d with
  | tx => exact List.prefix_append [transferSqe (p.buffer .tx) .tx] [transferSqe (p.buffer .rx) .rx]
  | rx => exact List.prefix_refl _

theorem Probe.good_upto (p : Probe) (d : Direction) : good (p.upto d) =
    good (p.before d) ++ [completion (transferSqe (p.buffer d) d) false] := List.map_append

/-- After a drain, its result is tested. -/
theorem at_afterDrain (hw : Completion e p.world) (ho : p.world.InOrder)
    (hp : p.Inside d .drain) {ret : Return} (hret : p.world.driver = .returned ret) :
    ({ p with stage := Probe.afterCall d ret .drain } : Probe).At
      (Probe.afterCall d ret .drain) := by
  obtain ⟨hserved, ⟨-, hone⟩ | ⟨c, hstand, hd⟩⟩ := hp
  · rw [hret] at hone
    exact hone.elim
  · rw [hret, Driver.returned.injEq] at hd
    subst hd
    obtain ⟨failed, hmem, rfl⟩ := drained_completion hw ho hstand
    have hgood : (Return.size 1 [completion (transferSqe (p.buffer d) d) failed]).oneGood =
        !failed := by
      have hstatus := status_completion (p.buffer d) d failed
      cases failed with
      | false => simpa [Return.oneGood] using hstatus
      | true => simpa [Return.oneGood] using hstatus
    simp only [Probe.afterCall, hgood]
    cases failed with
    | false =>
        refine ⟨{ hstand with drained := ?_ }, ?_, hserved⟩
        · exact hstand.drained.trans (p.good_upto d).symm
        · change p.world.driver.outside = true
          rw [hret]
          rfl
    | true =>
        refine ⟨?_, Or.inr ⟨hmem, hserved⟩⟩
        change p.world.accepted <+: p.upto .rx
        rw [hstand.accepted]
        exact p.upto_isPrefix d

theorem at_leave (hw : Completion e p.world) (ho : p.world.InOrder) (hp : p.Inside d c)
    (hc : c ≠ .wait) {ret : Return} (hret : p.world.driver = .returned ret) :
    ({ p with stage := Probe.afterCall d ret c } : Probe).At (Probe.afterCall d ret c) := by
  cases c with
  | wait => exact absurd rfl hc
  | submit =>
      obtain ⟨-, ⟨-, hsub⟩ | ⟨hstand, hout⟩⟩ := hp
      · rw [hret] at hsub
        exact hsub.elim
      · exact ⟨{ hstand with }, hout, fun hc => by simp at hc⟩
  | doorbell =>
      obtain ⟨-, hbell⟩ | ⟨hstand, hout⟩ := hp
      · rw [hret] at hbell
        cases hbell
      · exact ⟨{ hstand with }, hout, fun hc => by simp at hc⟩
  | drain => exact at_afterDrain hw ho hp hret

/-- Two transfers with good completions are all there are. -/
theorem passed_of_standing (hw : Completion e p.world) (ho : p.world.InOrder)
    (hstand : p.Standing .rx (p.upto .rx) (p.upto .rx).length (good (p.upto .rx)))
    (hserved : p.world.Served) : p.Passed := by
  refine ⟨hstand.accepted, ?_, hserved, hstand.inTime⟩
  have hlen : p.world.failures.length ≤ 2 := by
    have hle := hw.length_failures_le
    rwa [hstand.accepted] at hle
  have hall : ∀ k < 2, p.world.failures[k]? = some false := by
    intro k hk
    obtain ⟨c, hc⟩ : ∃ c, (good (p.upto .rx))[k]? = some c ∧ c.status = 0 := by
      obtain rfl | rfl : k = 0 ∨ k = 1 := by omega
      · exact ⟨_, rfl, (status_completion _ _ _).mpr rfl⟩
      · exact ⟨_, rfl, (status_completion _ _ _).mpr rfl⟩
    obtain ⟨sqe, failed, hsqe, hfailed, hcompletion⟩ :=
      hw.of_drained ho (hstand.drained ▸ hc.1)
    obtain ⟨d, hd⟩ : ∃ d, sqe = transferSqe (p.buffer d) d := by
      rw [hstand.accepted] at hsqe
      have hmem : sqe ∈ p.upto .rx := List.mem_of_getElem? hsqe
      simp only [Probe.upto, Probe.before, List.mem_append, List.mem_singleton] at hmem
      exact hmem.elim (fun h => ⟨_, h⟩) fun h => ⟨_, h⟩
    have hstatus := hc.2
    rw [hcompletion, hd, status_completion] at hstatus
    rw [hfailed, hstatus]
  match hf : p.world.failures with
  | [] =>
      have h0 := hall 0 (by omega)
      rw [hf] at h0
      cases h0
  | [b] =>
      have h1 := hall 1 (by omega)
      rw [hf] at h1
      cases h1
  | [b, b'] =>
      have h0 := hall 0 (by omega)
      have h1 := hall 1 (by omega)
      rw [hf] at h0 h1
      obtain rfl : b = false := Option.some.inj h0
      obtain rfl : b' = false := Option.some.inj h1
      rfl
  | _ :: _ :: _ :: _ =>
      rw [hf] at hlen
      simp only [List.length_cons] at hlen
      omega

/-- Where each statement of the probe leads. -/
theorem at_next (hw : Completion e p.world) (ho : p.world.InOrder) (he : e.sqDepth = 16)
    (hcarried : p.stage = .compare → p.world.failures = [false, false] → p.roundtripped = true)
    (hp : p.At p.stage) (hm : ProbeMove hz p p') : p'.At p'.stage := by
  cases hm with
  | enter c d hstage hc =>
      rw [hstage] at hp
      exact inside_of_enter hp hc
  | enterWait d hstage =>
      rw [hstage] at hp
      obtain ⟨hstand, hout, -⟩ := hp
      exact ⟨{ hstand with }, hout, fun hret => by cases hret⟩
  | driver c d w hstage hc hs =>
      rw [hstage] at hp
      have hm := driverMove_of_driverStep hs
      refine Probe.at_stage (p := p.setWorld w) hstage ?_
      cases c with
      | wait => exact absurd rfl hc
      | submit => exact inside_submit hw he hp hm
      | doorbell => exact inside_doorbell hp hm
      | drain => exact inside_drain hw hp hm
  | wait d h hstage hn =>
      rw [hstage] at hp
      exact Probe.at_stage (p := { p with host := h }) hstage (inside_wait hw hp hn)
  | leave c d ret hstage hc hret =>
      rw [hstage] at hp
      exact at_leave hw ho hp hc hret
  | found d hstage hret =>
      rw [hstage] at hp
      obtain ⟨hstand, hout, hserved⟩ := hp
      exact ⟨{ hstand with }, hout, fun _ => hserved hret⟩
  | late d v hstage =>
      rw [hstage] at hp
      refine ⟨?_, Or.inl rfl⟩
      change p.world.accepted <+: p.upto .rx
      rw [hp.1.accepted]
      exact p.upto_isPrefix d
  | unmap d hstage =>
      rw [hstage] at hp
      obtain ⟨hstand, hout, hserved⟩ := hp
      cases d with
      | tx =>
          refine ⟨{ hstand with mapped := ?_ }, hout, fun _ => hserved⟩
          exact congrArg (Function.update · .tx 0) hstand.mapped
      | rx => exact { passed_of_standing hw ho hstand hserved with }
  | compare hstage =>
      rw [hstage] at hp
      rw [hcarried hstage hp.failures]
      exact { hp with }
  | errUnmap d hstage =>
      rw [hstage] at hp
      cases d <;> exact ⟨hp.accepted, hp.why⟩
  | free d passed hstage =>
      rw [hstage] at hp
      cases d <;> cases passed <;> exact { hp with }

end Next

end SystemsPrep.Dma
