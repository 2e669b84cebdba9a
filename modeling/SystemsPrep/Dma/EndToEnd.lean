import SystemsPrep.Dma.Completion
import SystemsPrep.Dma.Order

/-!
From submission to completion.

As long as the caller keeps no more submissions outstanding than the completion
ring has slots, draining returns the completions of the accepted submissions in
order, and a device at rest owes none.
-/

namespace SystemsPrep.Dma

open Base

variable {e : Engine} {w w' : World}

theorem Completion.results_eq (h : Completion e w) :
    w.results = List.zipWith completion w.accepted w.failures := by
  obtain ⟨rest, hrest⟩ := h.submission.fifo
  have hlen : w.failures.length ≤ w.fetched.length := by
    have hfail := h.posting.failures
    have hfetch := h.submission.fetch
    cases hc : w.callback <;> rw [hc] at hfail hfetch <;>
      simp only [Callback.held, FetchStage, List.length_nil, List.length_singleton]
        at hfail hfetch <;>
      omega
  rw [World.results, ← hrest, zipWith_append_left hlen]

theorem Completion.of_results (h : Completion e w) {k : ℕ} {c : Cqe}
    (hc : w.results[k]? = some c) :
    ∃ sqe failed, w.accepted[k]? = some sqe ∧ w.failures[k]? = some failed ∧
      c = completion sqe failed := by
  rw [h.results_eq] at hc
  obtain ⟨sqe, failed, hsqe, hfailed, rfl⟩ := List.getElem?_zipWith_eq_some.mp hc
  exact ⟨sqe, failed, hsqe, hfailed, rfl⟩

theorem Completion.posted_isPrefix (h : Completion e w) : w.posted <+: w.results := by
  rw [h.posting.results]
  exact List.prefix_append _ _

/-- A device at rest, told of every submission, has completed them all. -/
theorem Completion.posted_of_rest (h : Completion e w) (hc : w.callback = .idle)
    (harmed : w.dev.timerArmed = false) (hbell : w.dev.sqTail = w.eng.sqTail) :
    w.fetched = w.accepted ∧ w.posted = w.results ∧ w.posted.length = w.accepted.length := by
  have hs := h.submission
  have hnear := hs.near
  have hrest := hs.rest hc harmed
  have hann : w.accepted.length = w.announced := by
    rw [hs.doorbell, hs.sqTail, eq_comm,
      ofNat_inj_of_near hs.announced_le (by omega)] at hbell
    exact hbell
  have hfetch := hs.fetch
  have hres := h.posting.results
  rw [hc] at hfetch hres
  have hlen : w.fetched.length = w.posted.length := hfetch
  refine ⟨hs.fifo.eq_of_length (by omega), ?_, by omega⟩
  rw [hres]
  exact (List.append_nil _).symm

theorem completion_create {d : DmaEngineState} {m : Mem} {sqDma cqDma : Addr} {msi : Bool}
    {sqDepth cqDepth : Word} (hd : d.InStep) (hsq : sqDepth.toNat.isPowerOfTwo)
    (hcq : cqDepth.toNat.isPowerOfTwo)
    (hrings : Apart sqDma (sqDepth.toNat * 24) cqDma (cqDepth.toNat * 16)) :
    Completion (engineCreate sqDma cqDma msi d sqDepth cqDepth).1
      (.create d m sqDma cqDma msi sqDepth cqDepth) where
  wellFormed := engineCreate_wellFormed hsq (ne_zero_of_isPowerOfTwo hcq) hrings
  cqDepth := hcq
  submission := submission_create hd ..
  posting := posting_create ..
  draining := ⟨rfl, le_rfl, trivial, fun c hc => absurd hc (by simp [World.create, Driver.copied])⟩

variable {m : Mem} {sqDma cqDma : Addr} {msi : Bool} {sqDepth cqDepth : Word}

/-- **The contract of submitting, ringing and draining.** While the caller bounds
its outstanding work by the depth of the completion ring, the drained completions
are those of the first accepted submissions in order. When the device is at rest
and the last doorbell carried the tail, every accepted submission is completed
and those not drained are in the ring. -/
theorem drained_in_order {as : List Action}
    (hsq : sqDepth.toNat.isPowerOfTwo) (hcq : cqDepth.toNat.isPowerOfTwo)
    (hrings : Apart sqDma (sqDepth.toNat * 24) cqDma (cqDepth.toNat * 16))
    (has : ∀ a ∈ as, a.Apart (engineCreate sqDma cqDma msi .fresh sqDepth cqDepth).1)
    (hbound : Always step (.create .fresh m sqDma cqDma msi sqDepth cqDepth) as fun t =>
      t.accepted.length ≤ t.drained.length + cqDepth.toNat)
    (hw : exec step (.create .fresh m sqDma cqDma msi sqDepth cqDepth) as = some w) :
    w.drained <+: List.zipWith completion w.accepted w.failures ∧
      (w.dev.timerArmed = false → w.callback = .idle → w.dev.sqTail = w.eng.sqTail →
        w.fetched = w.accepted ∧
        w.posted = List.zipWith completion w.accepted w.failures ∧
        w.posted.length = w.accepted.length ∧
        (w.dev.cqTail - w.eng.cqHead).toNat = w.accepted.length - w.drained.length ∧
        Window cqDepth.toNat (cqeLayout.load w.mem cqDma) w.posted
          w.drained.length w.posted.length) := by
  have hstart : Completion (engineCreate sqDma cqDma msi .fresh sqDepth cqDepth).1
      (.create .fresh m sqDma cqDma msi sqDepth cqDepth) :=
    completion_create inStep_fresh hsq hcq hrings
  -- what the device has fetched was accepted, so it stays within a lap too
  have hlap : Always step (.create .fresh m sqDma cqDma msi sqDepth cqDepth) as fun t =>
      t.fetched.length ≤ t.drained.length + cqDepth.toNat := by
    intro bs hbs t ht
    have hsub := (hstart.exec (fun a ha => has a (hbs.subset ha)) ht).submission
    exact (hsub.fetched_le.2.trans hsub.announced_le).trans (hbound bs hbs t ht)
  have h := hstart.exec has hw
  have horder := hstart.inOrder_exec has (List.prefix_refl _) hlap hw
  have hdrained : w.drained <+: w.posted := (List.prefix_append _ _).trans horder
  rw [← h.results_eq]
  refine ⟨hdrained.trans h.posted_isPrefix, fun harmed hc hbell => ?_⟩
  obtain ⟨hfetched, hposted, hlen⟩ := h.posted_of_rest hc harmed hbell
  refine ⟨hfetched, hposted, hlen, ?_, h.window (hlap.last hw)⟩
  have hnear : w.posted.length - w.drained.length < 2 ^ 32 := by
    have := hbound.last hw
    have := cqDepth.isLt
    omega
  rw [h.submission.cqTail, h.draining.cqHead, toNat_ofNat_sub h.draining.drained_le hnear, hlen]

/-- A callback that processes one submission, whose data transfer ends in `r`. -/
def processOne (r : DmaResult) : List Action :=
  [.timer, .device .ok, .device r, .device .ok, .device .ok, .device .ok]

/-- The submissions of `dma_engine_probe`, where the second transfer fails. -/
def probeCalls : List Action :=
  submitCall txSqe ++ [.doorbell, .driver] ++ processOne .ok ++
    [.drain 1, .driver, .driver, .driver] ++ submitCall rxSqe ++ [.doorbell, .driver] ++
    processOne (.error fun _ => none) ++ [.drain 1, .driver, .driver, .driver]

theorem probeCalls_apart (h : txSqe.Apart e ∧ rxSqe.Apart e) : ∀ a ∈ probeCalls, a.Apart e := by
  simp [probeCalls, submitCall, processOne, Action.Apart, h]

theorem drained_in_order_probeCalls :
    ∃ w, exec step (.create .fresh (fun _ => 0) 0x1000 0x2000 true 2 1) probeCalls = some w ∧
      w.drained = [completion txSqe false, completion rxSqe true] ∧
      w.drained <+: List.zipWith completion w.accepted w.failures := by
  have hs : exec step (.create .fresh (fun _ => 0) 0x1000 0x2000 true 2 1) probeCalls =
      some _ := rfl
  refine ⟨_, hs, by decide +kernel, ?_⟩
  refine (drained_in_order ⟨1, rfl⟩ ⟨0, rfl⟩ (apart_of_le (by decide) (by decide)) ?_
    (by decide +kernel) hs).1
  exact probeCalls_apart (probeSqes_apart rfl rfl (by decide) (by decide))

end SystemsPrep.Dma
