import SystemsPrep.Base.Simulation
import SystemsPrep.Dma.SmokeTest

/-!
The probe always ends.

A device that does nothing cannot keep the probe: each of its calls has a bounded number
of steps, apart from the rounds of a wait that wake-ups without a completion start again,
and what it waits for at most is the end of the two seconds.
-/

namespace SystemsPrep.Dma

open Base

/-! ### The steps that are left -/

/-- The steps left in a call of the engine other than `engine_wait`. -/
def Driver.left : Driver → ℕ
  | .idle | .returned _ => 0
  | .readHead _ => 3
  | .writeSlot _ _ => 2
  | .advanceTail _ | .writeDoorbell => 1
  | .readTail max => (max.setWidth 32).toNat + 2
  | .copyOut _ n out => n.toNat - out.length + 1

/-- Those left in `engine_wait` if nobody wakes it again. A wake-up that has come since the
thread joined the queue is good for another round. -/
def Waiting.left (h : Waiting) : ℕ :=
  match h.stage with
  | .entry => 7
  | .prepare => if h.signalled = true ∨ h.ret = 0 then 2 else 6
  | .test interrupted =>
      if interrupted = true ∨ h.ret = 0 then 1 else 5 + 4 * h.running.toNat
  | .schedule => 4 + 4 * h.running.toNat
  | .asleep _ => 3 + 4 * h.running.toNat
  | .returned _ => 0

def leftAfter : Direction → ℕ
  | .tx => 27
  | .rx => 4

def ProbeCall.left (d : Direction) : ProbeCall → ℕ
  | .submit => leftAfter d + 22
  | .doorbell => leftAfter d + 17
  | .wait => leftAfter d + 14
  | .drain => leftAfter d + 5

def ProbeCall.leftBehind (d : Direction) : ProbeCall → ℕ
  | .submit => ProbeCall.left d .doorbell
  | .doorbell => ProbeCall.left d .wait
  | .wait => ProbeCall.left d .drain
  | .drain => leftAfter d

def Probe.left (p : Probe) : ℕ :=
  match p.stage with
  | .call c d => c.left d
  | .inCall .wait d => p.host.left + 1 + ProbeCall.leftBehind d .wait
  | .inCall c d => p.world.driver.left + 1 + c.leftBehind d
  | .unmap d => leftAfter d
  | .compare => 3
  | .errUnmap .tx => 4
  | .errUnmap .rx => 3
  | .free .tx _ => 2
  | .free .rx _ => 1
  | .returned | .destroy => 0

def ProbeAction.isNext : ProbeAction → Bool
  | .next => true
  | _ => false

def ProbeAction.isWake : ProbeAction → Bool
  | .wake => true
  | _ => false

section Left

variable {hz : ℕ} {p p' : Probe} {a : ProbeAction} {w w' : World} {h h' : Waiting}

theorem left_driverMove (hm : DriverMove w w') : w'.driver.left < w.driver.left := by
  cases hm with
  | readHead sqe hd =>
      simp only [hd, Engine.submitCheck]
      split <;> simp [Driver.left]
  | writeSlot sqe tail hd | advanceTail sqe hd | writeDoorbell hd =>
      simp [hd, Driver.left]
  | readTail max hd =>
      have hle : (w.eng.drainCount max w.dev.cqTail).toNat ≤ (max.setWidth 32).toNat := by
        rw [Engine.drainCount]
        split <;> rename_i hlt
        · exact le_rfl
        · exact BitVec.le_def.mp (BitVec.not_lt.mp hlt)
      simp only [hd, Engine.drainCheck]
      split
      · simp [Driver.left]
      · simp only [Driver.left, List.length_nil]
        omega
  | copy cqHead n out hd hn =>
      simp only [hd, Driver.left, List.length_append, List.length_singleton]
      omega
  | finish cqHead n out hd hn =>
      simp only [hd, Driver.left]
      omega

@[simp] theorem Waiting.left_finish (h : Waiting) (ret : ℤ) : (h.finish ret).left = 0 := rfl

theorem Waiting.left_prepare_le (hstage : h.stage = .prepare) : h.left ≤ 6 := by
  simp only [left, hstage]
  split <;> omega

theorem Waiting.left_prepare_of_done (hstage : h.stage = .prepare)
    (hdone : h.signalled = true ∨ h.ret = 0) : h.left = 2 := by
  simp only [left, hstage, if_pos hdone]

theorem Waiting.left_next (hn : h.next = some h') : h'.left < h.left := by
  unfold Waiting.next at hn
  cases hstage : h.stage with
  | entry =>
      have hleft : h.left = 7 := by simp only [left, hstage]
      simp only [hstage] at hn
      cases hn
      split
      · simp [hleft]
      · exact lt_of_le_of_lt (left_prepare_le rfl) (by omega)
  | prepare =>
      simp only [hstage] at hn
      cases hn
      by_cases hsig : h.signalled = true
      · rw [left_prepare_of_done hstage (Or.inl hsig), if_pos hsig]
        simp [left]
      · simp only [left, hstage, hsig, Bool.false_eq_true, if_false, false_or, Bool.toNat_false]
        split <;> omega
  | test interrupted =>
      simp only [hstage] at hn
      cases hn
      have hpos : 0 < h.left := by
        simp only [left, hstage]
        split <;> omega
      by_cases hends : h.ends = true
      · simpa [hends] using hpos
      · have hret := (condition_of_not_ends (Bool.eq_false_of_not_eq_true hends)).2
        cases interrupted with
        | true => simpa [hends] using hpos
        | false =>
            simp only [hends, Bool.false_eq_true, if_false, left, hstage, false_or, hret,
              Waiting.check]
            omega
  | schedule =>
      have hleft : h.left = 4 + 4 * h.running.toNat := by simp only [left, hstage]
      simp only [hstage] at hn
      cases hn
      rw [hleft]
      split
      · simp only [left]
        omega
      · split
        · exact lt_of_le_of_lt (left_prepare_of_done rfl (Or.inr rfl)).le (by omega)
        · simp only [left]
          omega
  | asleep expire =>
      have hleft : h.left = 3 + 4 * h.running.toNat := by simp only [left, hstage]
      simp only [hstage] at hn
      split at hn <;> cases hn
      rename_i hroused
      rcases hroused with hrun | hsig | ⟨v, hv, hle⟩
      · refine lt_of_le_of_lt (left_prepare_le rfl) ?_
        rw [hleft, hrun, Bool.toNat_true]
        omega
      · have hdone : Waiting.left
            { h with ret := h.remaining expire, running := true, stage := .prepare } = 2 :=
          left_prepare_of_done rfl (Or.inl hsig)
        omega
      · have hzero : h.remaining expire = 0 := by
          obtain rfl : expire = some v := hv
          rw [Waiting.remaining]
          omega
        refine lt_of_le_of_lt (left_prepare_of_done rfl (Or.inr hzero)).le ?_
        omega
  | returned v =>
      simp only [hstage] at hn
      cases hn

theorem Probe.left_next (hm : ProbeMove hz p p') : p'.left < p.left := by
  cases hm with
  | enter c d hstage hc =>
      have hone : ((1 : BitVec 64).setWidth 32).toNat = 1 := rfl
      cases c with
      | wait => exact absurd rfl hc
      | submit | doorbell | drain =>
          simp only [left, hstage, Probe.setWorld, Probe.world, Probe.callEntry, Driver.left,
            ProbeCall.left, ProbeCall.leftBehind, hone]
          omega
  | enterWait d hstage =>
      simp only [left, hstage, Waiting.left, Waiting.start, ProbeCall.left, ProbeCall.leftBehind]
      omega
  | driver c d w hstage hc hs =>
      have hlt := left_driverMove (driverMove_of_driverStep hs)
      cases c with
      | wait => exact absurd rfl hc
      | submit | doorbell | drain =>
          simp only [left, hstage, Probe.setWorld]
          change w.driver.left + 1 + _ < p.world.driver.left + 1 + _
          omega
  | wait d h hstage hn =>
      have hlt := Waiting.left_next hn
      simp only [left, hstage]
      omega
  | leave c d ret hstage hc =>
      have hpos : 4 ≤ leftAfter d := by cases d <;> decide
      cases c with
      | wait => exact absurd rfl hc
      | submit | doorbell =>
          simp only [left, hstage, Probe.afterCall, ProbeCall.leftBehind]
          omega
      | drain =>
          have hleft : p.left = p.world.driver.left + 1 + leftAfter d := by
            simp only [left, hstage]
            rfl
          rw [hleft]
          simp only [Probe.afterCall]
          split
          · change leftAfter d < _
            omega
          · change 4 < _
            omega
  | found d hstage =>
      simp only [left, hstage, ProbeCall.leftBehind]
      omega
  | late d v hstage =>
      simp only [left, hstage, ProbeCall.leftBehind, ProbeCall.left]
      omega
  | unmap d hstage | errUnmap d hstage =>
      cases d <;>
        simp [left, hstage, leftAfter, ProbeCall.left, Probe.afterUnmap, Probe.afterErrUnmap]
  | compare hstage => simp [left, hstage]
  | free d passed hstage =>
      cases d <;> cases passed <;> simp [left, hstage, Probe.afterFree]

theorem Around.left_le (hr : Around p a h) : h.left ≤ p.host.left + 4 * a.isWake.toNat := by
  cases hr with
  | world | tick => exact Nat.le_add_right _ _
  | signal =>
      cases hstage : p.host.stage with
      | prepare =>
          simp only [Waiting.left, hstage, true_or, if_true]
          split <;> omega
      | entry | test | schedule | asleep | returned => simp [Waiting.left, hstage]
  | wake =>
      cases hstage : p.host.stage with
      | test interrupted =>
          simp only [Waiting.left, hstage, ProbeAction.isWake, Bool.toNat_true]
          split <;> omega
      | entry | prepare | schedule | asleep | returned =>
          simp only [Waiting.left, hstage, ProbeAction.isWake, Bool.toNat_true]
          omega

/-- What the others do takes no step off the probe, and only a wake-up adds any. -/
theorem Probe.left_around (hr : Around p a h) :
    Probe.left { p with host := h } ≤ p.left + 4 * a.isWake.toNat := by
  have hwait := hr.left_le
  have hdriver : h.world.driver = p.world.driver := hr.sameCalls.driver
  cases hstage : p.stage with
  | inCall c d =>
      cases c with
      | wait =>
          simp only [left, hstage]
          omega
      | submit | doorbell | drain =>
          simp only [left, hstage, Probe.world, hdriver]
          change p.world.driver.left + 1 + _ ≤ p.world.driver.left + 1 + _ + _
          omega
  | errUnmap d | free d passed =>
      cases d <;> simp [left, hstage]
  | call | unmap | compare | returned | destroy => simp [left, hstage]

theorem probe_left_step (hs : probeStep hz p a = some p') :
    a.isNext.toNat + p'.left ≤ p.left + 4 * a.isWake.toNat := by
  rcases move_of_probeStep hs with ⟨rfl, hm⟩ | ⟨h, rfl, hr⟩
  · have hlt := Probe.left_next hm
    simp only [ProbeAction.isNext, ProbeAction.isWake, Bool.toNat_true, Bool.toNat_false]
    omega
  · have hle := Probe.left_around hr
    have hnot : a.isNext = false := by cases hr <;> rfl
    rw [hnot, Bool.toNat_false]
    omega

end Left

/-! ### The next step comes -/

/-- A wait has no more than this time left, and a sleep in it ends by then. -/
def Waiting.Within (h : Waiting) (t : ℤ) : Prop :=
  match h.stage with
  | .entry | .prepare | .test _ | .schedule => h.ret ≤ t
  | .asleep expire => ∃ v, expire = some v ∧ v ≤ h.jiffies + t
  | .returned _ => True

/-- The thread is where the statement of the probe says. -/
def Probe.Ready (hz : ℕ) (p : Probe) : Prop :=
  match p.stage with
  | .call _ _ | .unmap _ => p.world.driver.outside = true
  | .inCall .wait _ => p.world.driver.outside = true ∧ p.host.Within (2 * hz)
  | .inCall _ _ => p.world.driver ≠ .idle
  | _ => True

section Ready

variable {hz : ℕ} {p p' : Probe} {a : ProbeAction} {w w' : World} {h h' : Waiting} {t : ℤ}

theorem Waiting.Within.next (hw : h.Within t) (hpos : 0 ≤ t) (ht : t < maxScheduleTimeout)
    (hn : h.next = some h') : h'.Within t := by
  unfold Waiting.next at hn
  cases hstage : h.stage with
  | entry =>
      simp only [Within, hstage] at hw
      simp only [hstage] at hn
      cases hn
      split <;> rename_i hends
      · trivial
      · exact (check_ret_of_not_ends (Bool.eq_false_of_not_eq_true hends)).trans_le hw
  | prepare =>
      simp only [Within, hstage] at hw
      simp only [hstage] at hn
      cases hn
      split <;> exact hw
  | test interrupted =>
      simp only [Within, hstage] at hw
      simp only [hstage] at hn
      cases hn
      split <;> rename_i hends
      · trivial
      · split
        · trivial
        · exact (check_ret_of_not_ends (Bool.eq_false_of_not_eq_true hends)).trans_le hw
  | schedule =>
      simp only [Within, hstage] at hw
      simp only [hstage] at hn
      cases hn
      split
      · omega
      · split
        · exact hpos
        · exact ⟨_, rfl, by simpa using hw⟩
  | asleep expire =>
      simp only [Within, hstage] at hw
      simp only [hstage] at hn
      obtain ⟨v, rfl, hv⟩ := hw
      split at hn <;> cases hn
      exact max_le hpos (by omega)
  | returned v =>
      simp only [hstage] at hn
      cases hn

theorem driver_ne_idle_of_move (hm : DriverMove w w') : w'.driver ≠ .idle := by
  cases hm with
  | readHead sqe hd =>
      simp only [Engine.submitCheck]
      split <;> exact fun hidle => by cases hidle
  | readTail max hd =>
      simp only [Engine.drainCheck]
      split <;> exact fun hidle => by cases hidle
  | writeSlot | advanceTail | writeDoorbell | copy | finish => exact fun hidle => by cases hidle

theorem ready_next (hhz : 2 * hz < maxScheduleTimeout) (hp : p.Ready hz)
    (hm : ProbeMove hz p p') : p'.Ready hz := by
  cases hm with
  | enter c d hstage hc =>
      cases c with
      | wait => exact absurd rfl hc
      | submit | doorbell | drain => exact fun hidle => by cases hidle
  | enterWait d hstage =>
      simp only [Probe.Ready, hstage] at hp
      exact ⟨hp, le_rfl⟩
  | driver c d w hstage hc hs =>
      have hne := driver_ne_idle_of_move (driverMove_of_driverStep hs)
      cases c with
      | wait => exact absurd rfl hc
      | submit | doorbell | drain =>
          simp only [Probe.Ready, Probe.setWorld, hstage]
          exact hne
  | wait d h hstage hn =>
      have hworld : h.world = p.world := Waiting.world_next hn
      simp only [Probe.Ready, Probe.world, hstage, hworld] at hp ⊢
      exact ⟨hp.1, hp.2.next (by omega) hhz hn⟩
  | leave c d ret hstage hc hret =>
      have hout : p.world.driver.outside = true := by
        rw [hret]
        rfl
      cases c with
      | wait => exact absurd rfl hc
      | submit | doorbell => exact hout
      | drain =>
          cases hgood : ret.oneGood with
          | true =>
              simp only [Probe.Ready, Probe.afterCall, hgood, if_true]
              exact hout
          | false =>
              simp only [Probe.Ready, Probe.afterCall, hgood, Bool.false_eq_true, if_false]
  | found d hstage =>
      simp only [Probe.Ready, hstage] at hp
      exact hp.1
  | late | compare => trivial
  | unmap d hstage =>
      simp only [Probe.Ready, hstage] at hp
      cases d with
      | tx => exact hp
      | rx => trivial
  | errUnmap d => cases d <;> trivial
  | free d passed => cases d <;> cases passed <;> trivial

theorem Around.within (hr : Around p a h) (hw : p.host.Within t) : h.Within t := by
  cases hr with
  | tick =>
      cases hstage : p.host.stage with
      | asleep expire =>
          simp only [Waiting.Within, hstage] at hw ⊢
          obtain ⟨v, rfl, hv⟩ := hw
          exact ⟨v, rfl, by omega⟩
      | entry | prepare | test | schedule =>
          simp only [Waiting.Within, hstage] at hw ⊢
          exact hw
      | returned => simp only [Waiting.Within, hstage]
  | world | signal | wake => exact hw

theorem ready_around (hr : Around p a h) (hp : p.Ready hz) :
    Probe.Ready hz { p with host := h } := by
  have hdriver : h.world.driver = p.world.driver := hr.sameCalls.driver
  cases hstage : p.stage with
  | call c d | unmap d =>
      simp only [Probe.Ready, Probe.world, hstage, hdriver] at hp ⊢
      exact hp
  | inCall c d =>
      cases c with
      | wait =>
          simp only [Probe.Ready, Probe.world, hstage, hdriver] at hp ⊢
          exact hp.imp_right hr.within
      | submit | doorbell | drain =>
          simp only [Probe.Ready, Probe.world, hstage, hdriver] at hp ⊢
          exact hp
  | compare | errUnmap | free | returned | destroy => simp only [Probe.Ready]

theorem ready_step (hhz : 2 * hz < maxScheduleTimeout) (hp : p.Ready hz)
    (hs : probeStep hz p a = some p') : p'.Ready hz := by
  rcases move_of_probeStep hs with ⟨-, hm⟩ | ⟨h, rfl, hr⟩
  · exact ready_next hhz hp hm
  · exact ready_around hr hp

theorem exec_ticks (p : Probe) (n : ℕ) : exec (probeStep hz) p (List.replicate n .tick) =
    some { p with host := { p.host with jiffies := p.host.jiffies + n } } := by
  induction n generalizing p with
  | zero => rfl
  | succ n ih =>
      have hs : probeStep hz p .tick =
          some { p with host := { p.host with jiffies := p.host.jiffies + 1 } } := rfl
      rw [List.replicate_succ, exec_cons_eq_some]
      refine ⟨_, hs, ?_⟩
      have hn : p.host.jiffies + 1 + n = p.host.jiffies + (n + 1) := by omega
      rw [ih]
      simp only [hn]

theorem driverStep_isSome (hne : w.driver ≠ .idle) (hret : ∀ r, w.driver ≠ .returned r) :
    ∃ w', driverStep w = some w' := by
  unfold driverStep
  cases hd : w.driver with
  | idle => exact absurd hd hne
  | returned r => exact absurd hd (hret r)
  | copyOut cqHead n out =>
      simp only
      split <;> exact ⟨_, rfl⟩
  | readHead | writeSlot | advanceTail | writeDoorbell | readTail => exact ⟨_, rfl⟩

/-- A sleep apart, the next step can be taken. -/
theorem Waiting.next_isSome (hret : ∀ v, h.stage ≠ .returned v)
    (hasleep : ∀ expire, h.stage = .asleep expire → h.Roused expire) :
    ∃ h', h.next = some h' := by
  unfold Waiting.next
  cases hstage : h.stage with
  | returned v => exact absurd hstage (hret v)
  | asleep expire => exact ⟨_, if_pos (hasleep expire hstage)⟩
  | entry | prepare | test | schedule => exact ⟨_, rfl⟩

/-- The probe does not sleep in a wait, or something has ended the sleep. -/
def Probe.Awake (p : Probe) : Prop :=
  ∀ d expire, p.stage = .inCall .wait d → p.host.stage = .asleep expire → p.host.Roused expire

theorem Probe.stepCall_isSome {c : ProbeCall} {d : Direction} (hstage : p.stage = .inCall c d)
    (hp : p.Ready hz) (hawake : p.Awake) : ∃ p', p.stepCall c d = some p' := by
  cases c with
  | wait =>
      simp only [Probe.stepCall]
      split
      · exact ⟨_, rfl⟩
      · obtain ⟨h, hn⟩ := Waiting.next_isSome ‹_› fun expire => hawake d expire hstage
        exact ⟨_, Option.map_eq_some_iff.mpr ⟨h, hn, rfl⟩⟩
  | submit | doorbell | drain =>
      simp only [Probe.Ready, hstage] at hp
      simp only [Probe.stepCall]
      split
      · exact ⟨_, rfl⟩
      · obtain ⟨w, hw⟩ := driverStep_isSome hp ‹_›
        exact ⟨_, Option.map_eq_some_iff.mpr ⟨w, hw, rfl⟩⟩

theorem Probe.next_isSome (hp : p.Ready hz) (hends : p.stage ≠ .returned ∧ p.stage ≠ .destroy)
    (hawake : p.Awake) : ∃ p', p.next hz = some p' := by
  unfold Probe.next
  cases hstage : p.stage with
  | call c d =>
      simp only [Probe.Ready, hstage] at hp
      cases c with
      | wait => exact ⟨_, rfl⟩
      | submit | doorbell | drain =>
          exact ⟨_, Option.map_eq_some_iff.mpr ⟨_, enter_of_outside hp _, rfl⟩⟩
  | inCall c d => exact Probe.stepCall_isSome hstage hp hawake
  | unmap | compare | errUnmap | free => exact ⟨_, rfl⟩
  | returned => exact absurd hstage hends.1
  | destroy => exact absurd hstage hends.2

/-- **The probe always ends.** Whatever the device does or does not do, a run has at most
49 steps of the probe and four more for each wake-up, and where the probe has neither
returned nor given up, its next step can be taken after at most two seconds. -/
theorem probe_ends {src dst : Addr} {as : List ProbeAction} (hhz : 2 * hz < maxScheduleTimeout)
    (hw : w.driver.outside = true)
    (hp : exec (probeStep hz) (.start w src dst) as = some p) :
    as.countP ProbeAction.isNext ≤ 49 + 4 * as.countP ProbeAction.isWake ∧
      (p.stage = .returned ∨ p.stage = .destroy ∨
        ∃ n ≤ 2 * hz, ∃ p',
          exec (probeStep hz) p (List.replicate n .tick ++ [.next]) = some p') := by
  constructor
  · have hsteps : Steps (probeStep hz) (fun _ _ _ => True) (.start w src dst) as :=
      Steps.of_forall_mem (A := fun _ => True) fun _ _ => trivial
    have hpaid := Steps.total_le (f := Probe.left) (c := fun _ a _ => a.isNext.toNat)
      (e := fun _ a _ => 4 * a.isWake.toNat) (fun _ _ _ _ hs => probe_left_step hs) hsteps hp
    rw [total_of_countP hp, total_mul, total_of_countP hp] at hpaid
    have hstart : (Probe.start w src dst).left = 49 := rfl
    omega
  · have hready : p.Ready hz :=
      exec_invariant (I := Probe.Ready hz) (fun _ _ _ => ready_step hhz) hp hw
    by_cases hends : p.stage ≠ .returned ∧ p.stage ≠ .destroy
    · refine Or.inr (Or.inr ⟨2 * hz, le_rfl, ?_⟩)
      have hlater : exec (probeStep hz) p (List.replicate (2 * hz) .tick) = some _ :=
        exec_ticks p (2 * hz)
      have hready' : Probe.Ready hz _ :=
        exec_invariant (I := Probe.Ready hz) (fun _ _ _ => ready_step hhz) hlater hready
      -- the timer of a sleep is due by then
      have hawake : Probe.Awake
          { p with host := { p.host with jiffies := p.host.jiffies + 2 * hz } } := by
        intro d expire (hstage : p.stage = _) (hasleep : p.host.stage = _)
        simp only [Probe.Ready, hstage, Waiting.Within, hasleep] at hready
        obtain ⟨-, v, rfl, hv⟩ := hready
        exact Or.inr (Or.inr ⟨v, rfl, by simpa using hv⟩)
      obtain ⟨p', hnext⟩ := Probe.next_isSome hready' hends hawake
      exact ⟨p', exec_append_eq_some.mpr ⟨_, hlater, exec_cons_eq_some.mpr ⟨p', hnext, rfl⟩⟩⟩
    · rw [not_and_or, not_not, not_not] at hends
      exact hends.imp_right Or.inl

def asleepInWait : List ProbeAction := List.replicate 13 .next

theorem probe_ends_asleepInWait :
    ∃ p, exec (probeStep 250) (.start (.create .fresh (fun _ => 0) 0x1000 0x2000 true 16 16)
        0x3000 0x4000) asleepInWait = some p ∧ (∃ e, p.host.stage = .asleep e) ∧
      (p.stage = .returned ∨ p.stage = .destroy ∨ ∃ n ≤ 2 * 250, ∃ p',
        exec (probeStep 250) p (List.replicate n .tick ++ [.next]) = some p') := by
  have hs : exec (probeStep 250) (.start (.create .fresh (fun _ => 0) 0x1000 0x2000 true 16 16)
      0x3000 0x4000) asleepInWait = some _ := rfl
  exact ⟨_, hs, ⟨_, rfl⟩, (probe_ends (by decide) rfl hs).2⟩

end Ready

end SystemsPrep.Dma
