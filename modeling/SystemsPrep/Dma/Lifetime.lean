import SystemsPrep.Dma.Teardown

/-!
One device, several engines.

A new engine starts its two indices at zero. The device keeps its own from one
engine to the next, because programming the rings does not touch them, so they
count what it has processed since it was realized. The two agree exactly when
that number is a multiple of `2 ^ 32`.
-/

namespace SystemsPrep.Dma

open Base

/-- The device with the engine bound to it, or with the engine it is being
released from. -/
inductive Life
  | bound (w : World)
  | released (t : Teardown)

def Life.dev : Life → DmaEngineState
  | .bound w => w.dev
  | .released t => t.dev

def Life.callback : Life → Callback
  | .bound w => w.callback
  | .released t => t.callback

/-- A device over the lifetimes of its engines. It has completed `processed`
submissions so far. -/
structure Machine where
  life : Life
  processed : ℕ

/-- A device just realized, which no driver has used. -/
def Machine.start (m : Mem) : Machine where
  life := .released
    { eng := (engineCreate 0 0 false .fresh 0 0).1
      next := .done
      dev := .fresh
      callback := .idle
      mem := m
      master := false
      sqFreed := true
      cqFreed := true }
  processed := 0

/-- Bind a new engine, act on the bound one, start to destroy it, or go on
destroying it. -/
inductive LifeAction
  | create (sqDma cqDma : Addr) (msi : Bool) (sqDepth cqDepth : Word)
  | call (a : Action)
  | destroy
  | teardown (a : TeardownAction)

def LifeAction.completes (c : Callback) : LifeAction → ℕ
  | .call (.device _) | .teardown (.device _ _) => c.posting.length
  | _ => 0

def lifeNext (l : Life) : LifeAction → Option Life
  | .create sqDma cqDma msi sqDepth cqDepth =>
      match l with
      | .bound _ => none
      | .released t =>
          if t.next = .done then
            some (.bound { World.create t.dev t.mem sqDma cqDma msi sqDepth cqDepth with
              callback := t.callback })
          else none
  | .call a =>
      match l with
      | .bound w => (step w a).map .bound
      | .released _ => none
  | .destroy =>
      match l with
      | .bound w => if w.driver.AtRest then some (.released w.destroy) else none
      | .released _ => none
  | .teardown a =>
      match l with
      | .bound _ => none
      | .released t => (teardownStep t a).map .released

def lifeStep (x : Machine) (a : LifeAction) : Option Machine :=
  (lifeNext x.life a).map fun l =>
    { life := l, processed := x.processed + a.completes x.life.callback }

def LifeAction.HasSlots : LifeAction → Prop
  | .create _ _ _ _ cqDepth => cqDepth ≠ 0
  | _ => True

/-! ### The device's indices -/

/-- The device has completed `n` submissions, and it does not rest before it has
reached its tail. -/
structure Synced (n : ℕ) (s : DmaEngineState) (c : Callback) : Prop where
  sqHead : s.sqHead = BitVec.ofNat 32 n
  cqTail : s.cqTail = BitVec.ofNat 32 n
  slots : s.cqDepth ≠ 0 ∨ (c = .idle ∧ s.timerArmed = false)
  rest : c = .idle → s.timerArmed = false → s.sqHead = s.sqTail

namespace Synced

variable {n : ℕ} {s s' : DmaEngineState} {c c' : Callback} {m m' : Mem}

theorem not_cqFull (h : Synced n s c) (hslots : s.cqDepth ≠ 0) : s.cqFull = false :=
  cqFull_of_eq (h.cqTail.trans h.sqHead.symm) hslots

theorem callbackStep {b : Bus} (h : Synced n s c)
    (hs : Dma.callbackStep b s c m = some (s', c', m')) :
    Synced (n + c.posting.length) s' c' := by
  have hslots := h.slots
  cases c with
  | idle => cases hs
  | loop didWork =>
      have hdepth : s.cqDepth ≠ 0 := hslots.resolve_right (by simp)
      rw [Dma.callbackStep] at hs
      split at hs <;> rename_i htest <;> cases hs
      · rw [h.not_cqFull hdepth, or_iff_left (by simp)] at htest
        obtain ⟨_, _, _, hirq⟩ := raiseIrq_eq didWork s
        rw [hirq]
        exact ⟨h.sqHead, h.cqTail, Or.inl hdepth, fun _ _ => htest⟩
      · exact ⟨h.sqHead, h.cqTail, Or.inl hdepth, fun hidle => by cases hidle⟩
  | transfer sqe =>
      have hdepth : s.cqDepth ≠ 0 := hslots.resolve_right (by simp)
      rw [Dma.callbackStep, Option.some.injEq, Prod.mk.injEq, Prod.mk.injEq] at hs
      obtain ⟨rfl, rfl, -⟩ := hs
      obtain ⟨buf, hbuf⟩ := dataDma_state s m sqe b.outcome
      rw [hbuf]
      exact ⟨h.sqHead, h.cqTail, Or.inl hdepth, fun hidle => by cases hidle⟩
  | writeCqe cqe =>
      have hdepth : s.cqDepth ≠ 0 := hslots.resolve_right (by simp)
      cases hs
      exact ⟨h.sqHead, h.cqTail, Or.inl hdepth, fun hidle => by cases hidle⟩
  | advance cqe =>
      have hdepth : s.cqDepth ≠ 0 := hslots.resolve_right (by simp)
      cases hs
      refine ⟨?_, ?_, Or.inl hdepth, fun hidle => by cases hidle⟩
      · exact (congrArg (· + 1) h.sqHead).trans (ofNat_succ n).symm
      · exact (congrArg (· + 1) h.cqTail).trans (ofNat_succ n).symm

theorem timerFire (h : Synced n s c) (hs : Dma.timerFire s c = some (s', c')) :
    Synced n s' c' := by
  cases c with
  | idle =>
      rw [Dma.timerFire] at hs
      split at hs <;> rename_i harmed <;> cases hs
      have hdepth : s.cqDepth ≠ 0 := h.slots.resolve_right (by simp [harmed])
      exact ⟨h.sqHead, h.cqTail, Or.inl hdepth, fun hidle => by cases hidle⟩
  | _ => cases hs

theorem destroyStep {t t' : Teardown} (h : Synced n t.dev t.callback)
    (hs : Dma.destroyStep t = some t') : Synced n t'.dev t'.callback := by
  unfold Dma.destroyStep at hs
  split at hs <;> cases hs
  all_goals exact ⟨h.sqHead, h.cqTail, h.slots, h.rest⟩

theorem driverMove {w w' : World} (h : Synced n w.dev w.callback) (hslots : w.dev.cqDepth ≠ 0)
    (hm : DriverMove w w') : Synced n w'.dev w'.callback := by
  cases hm with
  | writeDoorbell hd =>
      exact ⟨h.sqHead, h.cqTail, Or.inl hslots, fun _ harmed => by cases harmed⟩
  | _ => exact h

theorem step {w w' : World} {a : Action} (h : Synced n w.dev w.callback)
    (hslots : w.dev.cqDepth ≠ 0) (hs : Dma.step w a = some w') :
    Synced (n + (LifeAction.call a).completes w.callback) w'.dev w'.callback := by
  cases a with
  | submit sqe => obtain rfl := enter_eq_some hs; exact h
  | doorbell => obtain rfl := enter_eq_some hs; exact h
  | drain max => obtain rfl := enter_eq_some hs; exact h
  | driver => exact h.driverMove hslots (driverMove_of_driverStep hs)
  | timer =>
      obtain ⟨⟨dev, callback⟩, hfire, rfl⟩ := Option.map_eq_some_iff.mp hs
      exact h.timerFire hfire
  | device r =>
      obtain ⟨⟨dev, callback, mem⟩, hstep, rfl⟩ := Option.map_eq_some_iff.mp hs
      exact h.callbackStep hstep
  | host a b => cases hs; exact h

theorem teardownStep {t t' : Teardown} {a : TeardownAction} (h : Synced n t.dev t.callback)
    (hs : Dma.teardownStep t a = some t') :
    Synced (n + (LifeAction.teardown a).completes t.callback) t'.dev t'.callback := by
  cases a with
  | destroy => exact h.destroyStep hs
  | timer =>
      obtain ⟨⟨dev, callback⟩, hfire, rfl⟩ := Option.map_eq_some_iff.mp hs
      exact h.timerFire hfire
  | device r stack =>
      obtain ⟨⟨dev, callback, mem⟩, hstep, rfl⟩ := Option.map_eq_some_iff.mp hs
      exact h.callbackStep hstep
  | host a b => cases hs; exact h

end Synced

structure Machine.InSync (x : Machine) : Prop where
  synced : Synced x.processed x.life.dev x.life.callback
  bound : ∀ w, x.life = .bound w → ∃ e, OnRings e w ∧ e.cqDepth ≠ 0

theorem inSync_start (m : Mem) : (Machine.start m).InSync where
  synced := ⟨rfl, rfl, Or.inr ⟨rfl, rfl⟩, fun _ _ => rfl⟩
  bound w hw := by cases hw

theorem Synced.create {n : ℕ} {t : Teardown} (h : Synced n t.dev t.callback)
    {sqDma cqDma : Addr} {msi : Bool} {sqDepth cqDepth : Word} (hcq : cqDepth ≠ 0) :
    Synced n (World.create t.dev t.mem sqDma cqDma msi sqDepth cqDepth).dev t.callback := by
  rw [World.create, engineCreate_device]
  exact ⟨h.sqHead, h.cqTail, Or.inl hcq, h.rest⟩

theorem inSync_lifeStep {x y : Machine} {a : LifeAction} (ha : a.HasSlots) (h : x.InSync)
    (hs : lifeStep x a = some y) : y.InSync := by
  obtain ⟨l, hnext, rfl⟩ := Option.map_eq_some_iff.mp hs
  have hsync := h.synced
  unfold lifeNext at hnext
  -- each action is enabled in one of the two phases
  cases a with
  | create sqDma cqDma msi sqDepth cqDepth =>
      cases hl : x.life with
      | bound w => simp [hl] at hnext
      | released t =>
          simp only [hl] at hnext
          split at hnext <;> cases hnext
          rw [hl] at hsync
          refine ⟨hsync.create ha, fun w hw => ?_⟩
          cases hw
          exact ⟨_, { onRings_create t.dev t.mem sqDma cqDma msi sqDepth cqDepth with }, ha⟩
  | call a =>
      cases hl : x.life with
      | bound w =>
          simp only [hl] at hnext
          obtain ⟨w', hstep, rfl⟩ := Option.map_eq_some_iff.mp hnext
          rw [hl] at hsync
          obtain ⟨e, hrings, hslots⟩ := h.bound _ hl
          have hdev : w.dev.cqDepth ≠ 0 := by rwa [hrings.devCqDepth]
          refine ⟨hsync.step hdev hstep, fun w hw => ?_⟩
          cases hw
          exact ⟨e, onRings_step hrings hstep, hslots⟩
      | released t => simp [hl] at hnext
  | destroy =>
      cases hl : x.life with
      | bound w =>
          simp only [hl] at hnext
          split at hnext <;> cases hnext
          rw [hl] at hsync
          exact ⟨hsync, fun w hw => by cases hw⟩
      | released t => simp [hl] at hnext
  | teardown a =>
      cases hl : x.life with
      | bound w => simp [hl] at hnext
      | released t =>
          simp only [hl] at hnext
          obtain ⟨t', hstep, rfl⟩ := Option.map_eq_some_iff.mp hnext
          rw [hl] at hsync
          exact ⟨hsync.teardownStep hstep, fun w hw => by cases hw⟩

/-! ### A new engine -/

/-- While fewer submissions are accepted than the ring has slots, none is
refused. -/
def AcceptsFirst (e : Engine) (w : World) (a : Action) (w' : World) : Prop :=
  a = .driver → w.accepted.length < e.sqDepth.toNat → w'.driver ≠ .returned (.int eagain)

/-- The device fetches what the engine has submitted and announced and nothing
else, and what is drained are completions of it. -/
structure World.ServesItself (w : World) : Prop where
  fetched : w.fetched <+: w.accepted.take w.announced
  rest : w.callback = .idle → w.dev.timerArmed = false →
    w.fetched = w.accepted.take w.announced
  drained : ∀ c ∈ w.drained, c ∈ List.zipWith completion w.accepted w.failures

/-- The indices of the two sides agree, the first submissions are accepted, and
the engine has the device to itself. -/
structure World.StartsInStep (w : World) : Prop where
  sqHead : w.eng.sqTail = w.dev.sqHead
  sqTail : w.eng.sqTail = w.dev.sqTail
  cqTail : w.eng.cqHead = w.dev.cqTail
  runs : ∀ as w', (∀ a ∈ as, a.Apart w.eng) → exec step w as = some w' →
    Steps step (AcceptsFirst w.eng) w as ∧ w'.ServesItself

theorem Submission.acceptsFirst {e : Engine} {w w' : World} {a : Action} (h : Submission e w)
    (hs : Dma.step w a = some w') : AcceptsFirst e w a w' := by
  intro ha hlt hret
  obtain ⟨sqe, -, hfull⟩ := (h.refusedFull hs ha).mp hret
  omega

theorem Completion.servesItself {e : Engine} {w : World} (h : Completion e w) :
    w.ServesItself where
  fetched := List.prefix_take_iff.mpr ⟨h.submission.fifo, h.submission.fetched_le.2⟩
  rest hc harmed := by
    have hfetch := h.submission.fetch
    rw [hc] at hfetch
    have hlen : w.fetched.length = w.posted.length := hfetch
    rw [← h.submission.rest hc harmed, ← hlen]
    exact List.prefix_iff_eq_take.mp h.submission.fifo
  drained c hc := by
    rw [← h.results_eq]
    exact h.draining.origin c (List.mem_append_left _ hc)

theorem startsInStep_create {d : DmaEngineState} {m : Mem} {sqDma cqDma : Addr} {msi : Bool}
    {sqDepth cqDepth : Word} (hd : d.InStep) (hsq : sqDepth.toNat.isPowerOfTwo)
    (hcq : cqDepth.toNat.isPowerOfTwo)
    (hrings : Apart sqDma (sqDepth.toNat * 24) cqDma (cqDepth.toNat * 16)) :
    (World.create d m sqDma cqDma msi sqDepth cqDepth).StartsInStep := by
  have h : Completion (engineCreate sqDma cqDma msi d sqDepth cqDepth).1
      (.create d m sqDma cqDma msi sqDepth cqDepth) := completion_create hd hsq hcq hrings
  refine
    { sqHead := h.submission.sqHead.symm
      sqTail := h.submission.doorbell.symm
      cqTail := h.submission.cqTail.symm
      runs := fun as w' has hw => ⟨?_, (h.exec has hw).servesItself⟩ }
  exact Steps.of_invariant (fun _ _ _ ha hI hs => hI.step ha hs)
    (fun _ _ _ hI hs => hI.submission.acceptsFirst hs) has h

/-- **When a new engine starts in step with the device.** After any history of
engines on the device, with no step of the device pending, the indices agree and
the new engine works as specified if and only if the number of submissions the
device has processed since it was realized is a multiple of `2 ^ 32`. -/
theorem startsInStep_iff_dvd {m : Mem} {as : List LifeAction} {sqDma cqDma : Addr} {msi : Bool}
    {sqDepth cqDepth : Word} {w : World} {n : ℕ} (has : ∀ a ∈ as, a.HasSlots)
    (hsq : sqDepth.toNat.isPowerOfTwo) (hcq : cqDepth.toNat.isPowerOfTwo)
    (hrings : Apart sqDma (sqDepth.toNat * 24) cqDma (cqDepth.toNat * 16))
    (hw : exec lifeStep (.start m) (as ++ [.create sqDma cqDma msi sqDepth cqDepth]) =
      some ⟨.bound w, n⟩)
    (hidle : w.callback = .idle) (harmed : w.dev.timerArmed = false) :
    w.StartsInStep ↔ 2 ^ 32 ∣ n := by
  obtain ⟨x, hx, hcreate⟩ := exec_concat_eq_some.mp hw
  have hsync : x.InSync :=
    exec_invariant_on (fun _ _ _ ha hI hs => inSync_lifeStep ha hI hs) has hx (inSync_start m)
  obtain ⟨l, hnext, hbound⟩ := Option.map_eq_some_iff.mp hcreate
  unfold lifeNext at hnext
  obtain ⟨life, processed⟩ := x
  cases life with
  | bound w₀ => cases hnext
  | released t =>
      dsimp only at hnext
      split at hnext <;> cases hnext
      cases hbound
      -- the indices of the device count what it has processed, modulo `2 ^ 32`
      have hsynced : Synced processed t.dev t.callback := hsync.synced
      have harmed' : t.dev.timerArmed = false := by
        rw [World.create, engineCreate_device] at harmed
        exact harmed
      constructor
      · intro hstart
        have hhead : (0 : Word) = BitVec.ofNat 32 processed := by
          have hdev := hstart.sqHead
          rw [World.create, engineCreate_device] at hdev
          exact hdev.trans hsynced.sqHead
        have hmod := congrArg BitVec.toNat hhead
        rw [BitVec.toNat_ofNat] at hmod
        exact Nat.dvd_of_mod_eq_zero hmod.symm
      · intro hdvd
        have hzero : BitVec.ofNat 32 processed = 0 := by
          apply BitVec.eq_of_toNat_eq
          rw [BitVec.toNat_ofNat]
          exact Nat.mod_eq_zero_of_dvd hdvd
        have hd : t.dev.InStep :=
          ⟨hsynced.sqHead.trans hzero, (hsynced.rest hidle harmed').symm.trans
            (hsynced.sqHead.trans hzero), hsynced.cqTail.trans hzero⟩
        have hcallback : t.callback = .idle := hidle
        rw [hcallback]
        exact startsInStep_create hd hsq hcq hrings

/-- A whole run of `engine_destroy`. -/
def destroyCall : List LifeAction := .destroy :: List.replicate 9 (.teardown .destroy)

def unusedEngine : List LifeAction := .create 0x1000 0x2000 true 16 16 :: destroyCall

theorem startsInStep_iff_dvd_unusedEngine :
    ∃ w, exec lifeStep (.start fun _ => 0)
        (unusedEngine ++ [.create 0x1000 0x2000 true 16 16]) = some ⟨.bound w, 0⟩ ∧
      w.StartsInStep := by
  have hs : exec lifeStep (.start fun _ => 0)
      (unusedEngine ++ [.create 0x1000 0x2000 true 16 16]) = some ⟨.bound _, 0⟩ := rfl
  have has : ∀ a ∈ unusedEngine, a.HasSlots := by
    simp [unusedEngine, destroyCall, LifeAction.HasSlots]
  exact ⟨_, hs, (startsInStep_iff_dvd has ⟨4, rfl⟩ ⟨4, rfl⟩
    (apart_of_le (by decide) (by decide)) hs rfl rfl).mpr (dvd_zero _)⟩

/-- `dma_engine_probe` and the removal of the driver. -/
def probeAndRemove : List LifeAction :=
  .create 0x1000 0x2000 true 16 16 :: probeCalls.map .call ++ destroyCall

/-- The second engine on a device disagrees with it and has its first submission
refused. -/
theorem reloaded_engine_refused :
    ∃ w w', exec lifeStep (.start fun _ => 0)
        (probeAndRemove ++ [.create 0x1000 0x2000 true 16 16]) = some ⟨.bound w, 2⟩ ∧
      w.callback = .idle ∧ w.dev.timerArmed = false ∧
      w.eng.sqTail = 0 ∧ w.dev.sqHead = 2 ∧ w.eng.cqHead = 0 ∧ w.dev.cqTail = 2 ∧
      exec step w [.submit txSqe, .driver] = some w' ∧
      w'.driver = .returned (.int eagain) ∧ ¬ w.StartsInStep := by
  have hs : exec lifeStep (.start fun _ => 0)
      (probeAndRemove ++ [.create 0x1000 0x2000 true 16 16]) = some ⟨.bound _, 2⟩ := rfl
  refine ⟨_, _, hs, rfl, rfl, rfl, rfl, rfl, rfl, rfl, rfl, fun hstart => ?_⟩
  exact absurd hstart.sqHead (by decide)

end SystemsPrep.Dma
