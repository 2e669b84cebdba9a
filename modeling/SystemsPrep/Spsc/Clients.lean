import SystemsPrep.Spsc.Size
import SystemsPrep.Spsc.WaitFree

/-!
The two threads that the tests and the benchmark run on an SPSC ring.

A producer thread calls push until it has pushed all its items, and a consumer thread
calls pop until it has taken as many; a call that transfers nothing is made again. The
consumer of the test compares what it gets with what it expects and ends the process if
they differ.
-/

namespace SystemsPrep.Spsc

open Base

/-- The loop of a producer thread: the call it makes with `k` of its items pushed. -/
structure Feeder where
  items : ℕ
  call : ℕ → PushCall

/-- The loop of a consumer thread: the call it makes with `k` items taken and its buffer
as it is, and the test it puts the buffer to when something has arrived. -/
structure Drainer where
  items : ℕ
  call : ℕ → (ℕ → Byte) → PopCall
  accepts : ℕ → (ℕ → Byte) → Bool

/-! ### The programs of the source -/

def u32 (i : ℕ) : ℕ → Byte := fun j => (toLE 4 i).getD j 0

def readU32 (buf : ℕ → Byte) : ℕ := ofLE ((List.range 4).map buf)

/-- `producer_fn` of `test_spsc.c`. -/
def producerFn (items : ℕ) : Feeder := ⟨items, fun i => .push (u32 i)⟩

/-- `consumer_fn` of `test_spsc.c`. -/
def consumerFn (items : ℕ) : Drainer :=
  ⟨items, fun _ got => .pop got, fun expected got => readU32 got = expected⟩

/-- `producer_single` of `bench_spsc.c`. -/
def producerSingle (items : ℕ) : Feeder := ⟨items, fun i => .push (u32 i)⟩

/-- `consumer_single` of `bench_spsc.c`. -/
def consumerSingle (items : ℕ) : Drainer := ⟨items, fun _ v => .pop v, fun _ _ => true⟩

/-- What a batch thread asks for with `k` of its items transferred. -/
def want (items batch k : ℕ) : Size := BitVec.ofNat 64 (min (items - k) batch)

/-- `producer_batch` of `bench_spsc.c`; its buffer holds `0, 1, 2, …`. -/
def producerBatch (items batch : ℕ) : Feeder :=
  ⟨items, fun pushed => .pushN (fun j => u32 (j / 4) (j % 4)) (want items batch pushed)⟩

/-- `consumer_batch` of `bench_spsc.c`. -/
def consumerBatch (items batch : ℕ) : Drainer :=
  ⟨items, fun popped buf => .popN buf (want items batch popped), fun _ _ => true⟩

/-! ### The threads on a ring -/

/-- The ring with its two parties, the local variables of the threads, and whether the
consumer has found a wrong value. -/
structure Clients where
  world : World
  pushed : ℕ
  popped : ℕ
  buffer : ℕ → Byte
  drift : Bool

def Clients.start (r : SpscRing) (buffer : ℕ → Byte) : Clients where
  world := .start r
  pushed := 0
  popped := 0
  buffer := buffer
  drift := false

def Producer.transferred : Producer → ℕ
  | .returned _ ret => ret.transferred
  | _ => 0

def feederStep (f : Feeder) (s : Clients) (back : ℕ) : Option Clients :=
  match s.world.producer.current? with
  | none =>
      if s.pushed < f.items then
        (enterPush s.world (f.call s.pushed)).map fun w => { s with world := w }
      else none
  | some _ =>
      (producerStep s.world back).map fun w =>
        { s with
          world := w
          pushed := s.pushed + w.producer.transferred }

def Clients.receive (d : Drainer) (s : Clients) (w : World) : Clients :=
  match w.consumer with
  | .returned _ ret out =>
      { s with
        world := w
        buffer := out
        popped := s.popped + ret.transferred
        drift := ret.transferred ≠ 0 && !d.accepts s.popped out }
  | _ => { s with world := w }

def drainerStep (d : Drainer) (s : Clients) (back : ℕ) : Option Clients :=
  match s.world.consumer.current? with
  | none =>
      if s.popped < d.items then
        (enterPop s.world (d.call s.popped s.buffer)).map fun w => { s with world := w }
      else none
  | some _ => (consumerStep s.world back).map (s.receive d)

/-- The turn of a thread. A refresh load in it returns the value held `back` stores ago. -/
structure Turn where
  side : Side
  back : ℕ

def clientStep (f : Feeder) (d : Drainer) (s : Clients) (t : Turn) : Option Clients :=
  if s.drift then none
  else
    match t.side with
    | .producer => feederStep f s t.back
    | .consumer => drainerStep d s t.back

/-! ### What a step does -/

inductive ClientMove (f : Feeder) (d : Drainer) (s : Clients) : Turn → Clients → Prop
  | push (back : ℕ) (w : World) (hrest : s.world.producer.current? = none)
      (hlt : s.pushed < f.items) (hw : enterPush s.world (f.call s.pushed) = some w) :
      ClientMove f d s ⟨.producer, back⟩ { s with world := w }
  | producer (back : ℕ) (w : World) (hw : producerStep s.world back = some w) :
      ClientMove f d s ⟨.producer, back⟩
        { s with
          world := w
          pushed := s.pushed + w.producer.transferred }
  | pop (back : ℕ) (w : World) (hrest : s.world.consumer.current? = none)
      (hlt : s.popped < d.items) (hw : enterPop s.world (d.call s.popped s.buffer) = some w) :
      ClientMove f d s ⟨.consumer, back⟩ { s with world := w }
  | consumer (back : ℕ) (w : World) (hw : consumerStep s.world back = some w) :
      ClientMove f d s ⟨.consumer, back⟩ (s.receive d w)

variable {f : Feeder} {d : Drainer} {s s' : Clients} {t : Turn}

theorem clientMove_of_step (h : clientStep f d s t = some s') :
    s.drift = false ∧ ClientMove f d s t s' := by
  obtain ⟨side, back⟩ := t
  unfold clientStep at h
  split at h
  · cases h
  · refine ⟨Bool.eq_false_of_not_eq_true ‹_›, ?_⟩
    cases side with
    | producer =>
        simp only [feederStep] at h
        split at h
        · split at h
          · obtain ⟨w, hw, rfl⟩ := Option.map_eq_some_iff.mp h
            exact .push back w ‹_› ‹_› hw
          · cases h
        · obtain ⟨w, hw, rfl⟩ := Option.map_eq_some_iff.mp h
          exact .producer back w hw
    | consumer =>
        simp only [drainerStep] at h
        split at h
        · split at h
          · obtain ⟨w, hw, rfl⟩ := Option.map_eq_some_iff.mp h
            exact .pop back w ‹_› ‹_› hw
          · cases h
        · obtain ⟨w, hw, rfl⟩ := Option.map_eq_some_iff.mp h
          exact .consumer back w hw

@[simp] theorem Clients.receive_world (d : Drainer) (s : Clients) (w : World) :
    (s.receive d w).world = w := by
  unfold Clients.receive
  split <;> rfl

@[simp] theorem Clients.receive_pushed (d : Drainer) (s : Clients) (w : World) :
    (s.receive d w).pushed = s.pushed := by
  unfold Clients.receive
  split <;> rfl

theorem step_of_clientStep (h : clientStep f d s t = some s') :
    ∃ a, step s.world a = some s'.world := by
  obtain ⟨-, hmove⟩ := clientMove_of_step h
  cases hmove with
  | push back w hrest hlt hw => exact ⟨.push _, hw⟩
  | producer back w hw => exact ⟨.producer back, hw⟩
  | pop back w hrest hlt hw => exact ⟨.pop _, hw⟩
  | consumer back w hw => exact ⟨.consumer back, by rw [Clients.receive_world]; exact hw⟩

/-! ### What the threads keep -/

/-- The elements that the loop of a producer thread may have pushed: each call has put the
first elements of its buffer into the ring, as many as it was allowed to. -/
inductive Fed (f : Feeder) (esize : ℕ) : List Elem → Prop
  | none : Fed f esize []
  | more (xs : List Elem) (n : ℕ) (h : Fed f esize xs) (hlt : xs.length < f.items)
      (hle : n ≤ (f.call xs.length).requested) :
      Fed f esize (xs ++ elements esize (f.call xs.length).source n)

/-- The consumer's test accepts the elements of the producer thread in their order. -/
def Agree (f : Feeder) (d : Drainer) (esize : ℕ) : Prop :=
  ∀ xs ys zs out, Fed f esize (xs ++ ys ++ zs) → ys = elements esize out ys.length → ys ≠ [] →
    d.accepts xs.length out = true

structure Honest (f : Feeder) (d : Drainer) (cap esize : ℕ) (s : Clients) : Prop where
  order : InOrder cap esize s.world
  pushed : s.pushed = s.world.accepted.length
  popped : s.popped = s.world.handed.length
  fed : Fed f esize s.world.accepted
  pushing : ∀ c ∈ s.world.producer.current?, s.pushed < f.items ∧ c = f.call s.pushed
  popping : ∀ c ∈ s.world.consumer.current?, s.popped < d.items ∧ c = d.call s.popped s.buffer
  sound : Agree f d esize → s.drift = false

theorem honest_start {alignedAlloc : Bool} {malloc : Size → Option (ℕ → Byte)}
    {capacity elemSize : Size} {r : SpscRing} (f : Feeder) (d : Drainer) (buffer : ℕ → Byte)
    (hr : spscRingCreate alignedAlloc malloc capacity elemSize = some r)
    (hfits : capacity.toNat * elemSize.toNat < 2 ^ 64) :
    Honest f d capacity.toNat elemSize.toNat (.start r buffer) where
  order := inOrder_start hr hfits
  pushed := rfl
  popped := rfl
  fed := .none
  pushing c hc := by simp [Clients.start, World.start, Producer.current?] at hc
  popping c hc := by simp [Clients.start, World.start, Consumer.current?] at hc
  sound _ := rfl

section Steps

variable {cap esize : ℕ}

theorem Honest.producerStep (h : Honest f d cap esize s) (hdrift : s.drift = false) {back : ℕ}
    {w : World} (horder : InOrder cap esize w) (hw : producerStep s.world back = some w) :
    Honest f d cap esize
      { s with
        world := w
        pushed := s.pushed + w.producer.transferred } := by
  obtain ⟨hcons, -, -, hhanded⟩ := producerStep_frame hw
  obtain ⟨ct, ch, hc⟩ := h.order.counters
  have hrest : ∀ c ∈ w.consumer.current?, s.popped < d.items ∧ c = d.call s.popped s.buffer := by
    rw [hcons]
    exact h.popping
  have hpopped : s.popped = w.handed.length := by rw [hhanded, h.popped]
  cases pushOutcome_of_step hc h.order.producer hw with
  | goesOn c hcur hcur' hacc =>
      have hzero : w.producer.transferred = 0 := by
        cases hp : w.producer with
        | returned =>
            rw [hp] at hcur'
            cases hcur'
        | _ => rfl
      refine ⟨horder, ?_, hpopped, ?_, fun c' hc' => ?_, hrest, fun _ => hdrift⟩
      · simp only [hzero, hacc, h.pushed, Nat.add_zero]
      · rw [hacc]
        exact h.fed
      · rw [hzero]
        exact h.pushing c' (by rw [hcur, ← hcur']; exact hc')
  | gaveUp c hcur hret hacc =>
      have hzero : w.producer.transferred = 0 := by
        rw [hret]
        exact c.transferred_refusal
      refine ⟨horder, ?_, hpopped, ?_, fun c' hc' => ?_, hrest, fun _ => hdrift⟩
      · simp only [hzero, hacc, h.pushed, Nat.add_zero]
      · rw [hacc]
        exact h.fed
      · simp [hret, Producer.current?] at hc'
  | published c n hcur hpos hle hret hacc =>
      obtain ⟨hlt, rfl⟩ := h.pushing c hcur
      have hn : w.producer.transferred = n.toNat := by
        rw [hret]
        exact PushCall.transferred_result hpos hle
      refine ⟨horder, ?_, hpopped, ?_, fun c' hc' => ?_, hrest, fun _ => hdrift⟩
      · simp only [hn, hacc, List.length_append, length_elements, h.pushed]
      · rw [hacc, h.pushed, h.order.esize]
        rw [h.pushed] at hle hlt
        exact .more _ _ h.fed hlt hle
      · simp [hret, Producer.current?] at hc'

theorem Honest.consumerStep (h : Honest f d cap esize s) (hdrift : s.drift = false) {back : ℕ}
    {w : World} (horder : InOrder cap esize w) (hw : consumerStep s.world back = some w) :
    Honest f d cap esize (s.receive d w) := by
  obtain ⟨hprod, -, -, -, -, haccepted⟩ := consumerStep_frame hw
  obtain ⟨ct, ch, hc⟩ := h.order.counters
  have hpushing : ∀ c ∈ w.producer.current?, s.pushed < f.items ∧ c = f.call s.pushed := by
    rw [hprod]
    exact h.pushing
  have hpushed : s.pushed = w.accepted.length := by rw [haccepted, h.pushed]
  have hfed : Fed f esize w.accepted := by rw [haccepted]; exact h.fed
  cases popOutcome_of_step hc h.order.consumer hw with
  | goesOn c hcur hcur' hhanded =>
      have hsame : s.receive d w = { s with world := w } := by
        unfold Clients.receive
        split
        · rename_i hp
          rw [hp] at hcur'
          cases hcur'
        · rfl
      rw [hsame]
      refine ⟨horder, hpushed, ?_, hfed, hpushing, fun c' hc' => ?_, fun _ => hdrift⟩
      · simp only [hhanded, h.popped]
      · exact h.popping c' (by rw [hcur, ← hcur']; exact hc')
  | gaveUp c hcur hret hhanded =>
      have hafter : s.receive d w =
          { s with
            world := w
            buffer := c.buffer
            popped := s.popped
            drift := false } := by
        simp [Clients.receive, hret]
      rw [hafter]
      refine ⟨horder, hpushed, ?_, hfed, hpushing, fun c' hc' => ?_, fun _ => rfl⟩
      · simp only [hhanded, h.popped]
      · simp [hret, Consumer.current?] at hc'
  | took c n out hcur hpos hle hret hhanded =>
      have hn : (c.result n).transferred = n.toNat := PopCall.transferred_result hpos hle
      have hafter : s.receive d w =
          { s with
            world := w
            buffer := out
            popped := s.popped + n.toNat
            drift := n.toNat ≠ 0 && !d.accepts s.popped out } := by
        simp only [Clients.receive, hret, hn]
      rw [hafter]
      refine ⟨horder, hpushed, ?_, hfed, hpushing, fun c' hc' => ?_, fun hagree => ?_⟩
      · simp only [hhanded, List.length_append, length_elements, h.popped]
      · simp [hret, Consumer.current?] at hc'
      · -- what has arrived is the next part of what was pushed
        obtain ⟨zs, hzs⟩ := horder.contents.fifo
        rw [hhanded, h.order.esize] at hzs
        have hlen := length_elements esize out n.toNat
        have haccepts := hagree s.world.handed (elements esize out n.toNat) zs out
          (by rw [hzs]; exact hfed) (by rw [hlen]) fun hnil => hpos (BitVec.eq_of_toNat_eq (by
            rw [← hlen, hnil]
            rfl))
        rw [← h.popped] at haccepts
        simp [haccepts]

theorem honest_step (h : Honest f d cap esize s) (hs : clientStep f d s t = some s') :
    Honest f d cap esize s' := by
  obtain ⟨a, ha⟩ := step_of_clientStep hs
  have horder := inOrder_step h.order ha
  obtain ⟨hdrift, hmove⟩ := clientMove_of_step hs
  cases hmove with
  | push back w hrest hlt hw =>
      rw [enterPush_eq_some hw] at horder ⊢
      refine { h with order := horder, pushing := fun c hc => ?_ }
      simp only [Producer.current?, Option.mem_def, Option.some.injEq] at hc
      exact ⟨hlt, hc.symm⟩
  | producer back w hw => exact h.producerStep hdrift horder hw
  | pop back w hrest hlt hw =>
      rw [enterPop_eq_some hw] at horder ⊢
      refine { h with order := horder, popping := fun c hc => ?_ }
      simp only [Consumer.current?, Option.mem_def, Option.some.injEq] at hc
      exact ⟨hlt, hc.symm⟩
  | consumer back w hw =>
      rw [Clients.receive_world] at horder
      exact h.consumerStep hdrift horder hw

end Steps

theorem honest_after {cap esize : ℕ} {ts : List Turn} (h : Honest f d cap esize s)
    (hs : exec (clientStep f d) s ts = some s') : Honest f d cap esize s' :=
  exec_invariant (I := Honest f d cap esize) (fun _ _ _ h hs => honest_step h hs) hs h

/-! ### Loops that end where they should -/

def Feeder.Measured (f : Feeder) : Prop :=
  ∀ k < f.items, 0 < (f.call k).requested ∧ k + (f.call k).requested ≤ f.items

def Drainer.Measured (d : Drainer) : Prop :=
  ∀ k < d.items, ∀ buf, 0 < (d.call k buf).requested ∧ k + (d.call k buf).requested ≤ d.items

theorem Fed.length_le {esize : ℕ} {xs : List Elem} (hf : f.Measured) (h : Fed f esize xs) :
    xs.length ≤ f.items := by
  induction h with
  | none => exact Nat.zero_le _
  | more xs n h hlt hle ih =>
      obtain ⟨-, hmost⟩ := hf xs.length hlt
      rw [List.length_append, length_elements]
      omega

structure Finished (f : Feeder) (d : Drainer) (s : Clients) : Prop where
  drift : s.drift = false
  pushed : s.pushed = f.items
  popped : s.popped = d.items
  producer : s.world.producer.current? = none
  consumer : s.world.consumer.current? = none
  empty : spscRingEmpty s.world.ring s.world.ring = true

section Ends

variable {cap esize : ℕ}

theorem Honest.popped_le (h : Honest f d cap esize s) : s.popped ≤ s.pushed := by
  obtain ⟨ct, ch, hc⟩ := h.order.counters
  rw [h.popped, h.pushed]
  exact hc.handed_le

theorem Honest.pushed_le (h : Honest f d cap esize s) (hf : f.Measured) : s.pushed ≤ f.items := by
  rw [h.pushed]
  exact h.fed.length_le hf

theorem Honest.empty_of_eq (h : Honest f d cap esize s) (heq : s.popped = s.pushed) :
    spscRingEmpty s.world.ring s.world.ring = true := by
  obtain ⟨ct, ch, hc⟩ := h.order.counters
  have hsize : spscRingSize s.world.ring s.world.ring = 0 := by
    rw [h.popped, h.pushed] at heq
    apply BitVec.eq_of_toNat_eq
    rw [spscRingSize, hc.toNat_head_sub_tail, heq, Nat.sub_self]
    rfl
  rw [spscRingEmpty, hsize]
  rfl

theorem Honest.finished (h : Honest f d cap esize s) (hdrift : s.drift = false)
    (hpushed : s.pushed = f.items) (hpopped : s.popped = d.items) (hitems : f.items = d.items) :
    Finished f d s where
  drift := hdrift
  pushed := hpushed
  popped := hpopped
  producer := Option.eq_none_iff_forall_ne_some.mpr fun c hc =>
    absurd (h.pushing c hc).1 (by omega)
  consumer := Option.eq_none_iff_forall_ne_some.mpr fun c hc =>
    absurd (h.popping c hc).1 (by omega)
  empty := h.empty_of_eq (by omega)

theorem Honest.feederStep_isSome (h : Honest f d cap esize s) (hlt : s.pushed < f.items) :
    (feederStep f s 0).isSome := by
  cases hp : s.world.producer with
  | idle | returned => simp [feederStep, hp, Producer.current?, hlt, enterPush]
  | loadHead c | checkCached c | refresh c | checkFresh c | copy c =>
      have hcall : s.world.producer.call? = some c := by rw [hp]; rfl
      rcases h.order.returned_or_producerStep hcall with ⟨ret, hret⟩ | hstep
      · rw [hret] at hp
        cases hp
      · simp [feederStep, hp, Producer.current?, hstep]

theorem Honest.drainerStep_isSome (h : Honest f d cap esize s) (hlt : s.popped < d.items) :
    (drainerStep d s 0).isSome := by
  cases hp : s.world.consumer with
  | idle | returned => simp [drainerStep, hp, Consumer.current?, hlt, enterPop]
  | loadTail c | checkCached c | refresh c | checkFresh c | copy c =>
      have hcall : s.world.consumer.call? = some c := by rw [hp]; rfl
      rcases h.order.returned_or_consumerStep hcall with ⟨ret, out, hret⟩ | hstep
      · rw [hret] at hp
        cases hp
      · simp [drainerStep, hp, Consumer.current?, hstep]

/-- The threads stop only when both are done. -/
theorem Honest.finished_of_stuck (h : Honest f d cap esize s) (hf : f.Measured)
    (hitems : f.items = d.items) (hdrift : s.drift = false)
    (hstuck : ∀ t, clientStep f d s t = none) : Finished f d s := by
  have hpush : ¬ s.pushed < f.items := by
    intro hlt
    have hstep := h.feederStep_isSome hlt
    have hnone := hstuck ⟨.producer, 0⟩
    simp only [clientStep, hdrift, Bool.false_eq_true, if_false] at hnone
    rw [hnone] at hstep
    cases hstep
  have hpop : ¬ s.popped < d.items := by
    intro hlt
    have hstep := h.drainerStep_isSome hlt
    have hnone := hstuck ⟨.consumer, 0⟩
    simp only [clientStep, hdrift, Bool.false_eq_true, if_false] at hnone
    rw [hnone] at hstep
    cases hstep
  have hle := h.popped_le
  have hmost := h.pushed_le hf
  exact h.finished hdrift (by omega) (by omega) hitems

end Ends

/-! ### The programs -/

theorem toNat_want {items batch k : ℕ} (hbatch : batch < 2 ^ 64) :
    (want items batch k).toNat = min (items - k) batch := by
  rw [want, BitVec.toNat_ofNat, Nat.mod_eq_of_lt]
  exact (Nat.min_le_right ..).trans_lt hbatch

theorem measured_producerFn (items : ℕ) : (producerFn items).Measured :=
  fun _ hk => ⟨Nat.one_pos, hk⟩

theorem measured_consumerFn (items : ℕ) : (consumerFn items).Measured :=
  fun _ hk _ => ⟨Nat.one_pos, hk⟩

theorem measured_producerSingle (items : ℕ) : (producerSingle items).Measured :=
  fun _ hk => ⟨Nat.one_pos, hk⟩

theorem measured_consumerSingle (items : ℕ) : (consumerSingle items).Measured :=
  fun _ hk _ => ⟨Nat.one_pos, hk⟩

theorem measured_producerBatch {items batch : ℕ} (hpos : 0 < batch) (hbatch : batch < 2 ^ 64) :
    (producerBatch items batch).Measured := by
  intro k hk
  have hwant : (want items batch k).toNat = min (items - k) batch := toNat_want hbatch
  have hk' : k < items := hk
  change 0 < (want items batch k).toNat ∧ k + (want items batch k).toNat ≤ items
  omega

theorem measured_consumerBatch {items batch : ℕ} (hpos : 0 < batch) (hbatch : batch < 2 ^ 64) :
    (consumerBatch items batch).Measured := by
  intro k hk buf
  have hwant : (want items batch k).toNat = min (items - k) batch := toNat_want hbatch
  have hk' : k < items := hk
  change 0 < (want items batch k).toNat ∧ k + (want items batch k).toNat ≤ items
  omega

theorem agree_of_accepts (f : Feeder) {d : Drainer} (esize : ℕ)
    (h : ∀ k out, d.accepts k out = true) : Agree f d esize :=
  fun xs _ _ out _ _ _ => h xs.length out

theorem map_u32 (i : ℕ) : (List.range 4).map (u32 i) = toLE 4 i := by
  apply List.ext_getElem
  · simp
  · intro j hj hj'
    simp only [List.getElem_map, List.getElem_range, u32, List.getD_eq_getElem?_getD,
      List.getElem?_eq_getElem hj', Option.getD_some]

theorem fed_producerFn {items : ℕ} {xs : List Elem} (h : Fed (producerFn items) 4 xs) :
    xs = (List.range xs.length).map (toLE 4) := by
  induction h with
  | none => rfl
  | more xs n h hlt hle ih =>
      have hle' : n ≤ 1 := hle
      rcases Nat.le_one_iff_eq_zero_or_eq_one.mp hle' with rfl | rfl
      · simpa [elements] using ih
      · have hnew : elements 4 ((producerFn items).call xs.length).source 1 =
            [toLE 4 xs.length] := by
          rw [← map_u32]
          simp [elements, producerFn, PushCall.source]
        rw [hnew, List.length_append, List.length_singleton, List.range_succ, List.map_append,
          ← ih]
        rfl

theorem agree_producerFn {items : ℕ} (hitems : items < 2 ^ 32) :
    Agree (producerFn items) (consumerFn items) 4 := by
  intro xs ys zs out hfed hys hne
  have hall := fed_producerFn hfed
  have hlen := hfed.length_le (measured_producerFn items)
  rw [List.length_append, List.length_append] at hlen
  have hpos := List.length_pos_iff.mpr hne
  -- the first element that has arrived
  have hnext : (xs ++ ys ++ zs)[xs.length]? = some (toLE 4 xs.length) := by
    rw [hall, List.getElem?_map, List.getElem?_range (by simp; omega)]
    rfl
  have hout : (xs ++ ys ++ zs)[xs.length]? = some ((List.range 4).map out) := by
    rw [List.append_assoc, List.getElem?_append_right le_rfl, Nat.sub_self,
      List.getElem?_append_left hpos, hys]
    simp [elements, hpos]
  have hread : readU32 out = xs.length := by
    rw [readU32, ← Option.some.inj (hnext.symm.trans hout), ofLE_toLE]
    have hbound : (producerFn items).items = items := rfl
    omega
  exact decide_eq_true hread

/-- **The concurrent test cannot fail.** In every run of `test_concurrent_spsc`, however its
threads interleave and however old the values are that the refreshes load, the consumer
gets the numbers from 0 on and never finds a wrong one; the threads stop only when all
items have gone through, and then the ring is empty. -/
theorem concurrent_test_passes {alignedAlloc : Bool} {malloc : Size → Option (ℕ → Byte)}
    {capacity : Size} {r : SpscRing} {buffer : ℕ → Byte} {items : ℕ} {ts : List Turn} {s : Clients}
    (hr : spscRingCreate alignedAlloc malloc capacity 4 = some r)
    (hfits : capacity.toNat * 4 < 2 ^ 64) (hitems : items < 2 ^ 32)
    (hs : exec (clientStep (producerFn items) (consumerFn items)) (.start r buffer) ts = some s) :
    s.drift = false ∧ s.world.handed = (List.range s.popped).map (toLE 4) ∧
      s.popped ≤ s.pushed ∧ s.pushed ≤ items ∧
      ((∀ t, clientStep (producerFn items) (consumerFn items) s t = none) →
        s.popped = items ∧ spscRingEmpty s.world.ring s.world.ring = true) := by
  have h := honest_after (honest_start (producerFn items) (consumerFn items) buffer hr hfits) hs
  have hdrift := h.sound (agree_producerFn hitems)
  refine ⟨hdrift, ?_, h.popped_le, h.pushed_le (measured_producerFn items), fun hstuck => ?_⟩
  · have hall := fed_producerFn h.fed
    obtain ⟨zs, hzs⟩ := h.order.contents.fifo
    have hle := h.popped_le
    rw [h.popped, h.pushed] at hle
    rw [h.popped]
    have htake : s.world.handed = s.world.accepted.take s.world.handed.length := by
      rw [← hzs, List.take_left]
    rw [hall, ← List.map_take, List.take_range, Nat.min_eq_left hle] at htake
    exact htake
  · have hend := h.finished_of_stuck (measured_producerFn items) rfl hdrift hstuck
    exact ⟨hend.popped, hend.empty⟩

def oneItem : List Turn :=
  List.replicate 9 ⟨.producer, 0⟩ ++ List.replicate 11 ⟨.consumer, 0⟩

theorem concurrent_test_passes_oneItem :
    ∃ r s, spscRingCreate true (fun _ => some fun _ => 0) 2 4 = some r ∧
      exec (clientStep (producerFn 1) (consumerFn 1)) (.start r fun _ => 0) oneItem = some s ∧
      s.popped = 1 ∧ s.drift = false :=
  ⟨_, _, rfl, rfl, rfl,
    (@concurrent_test_passes true (fun _ => some fun _ => 0) 2 _ (fun _ => 0) 1 oneItem _ rfl
      (by decide) (by decide) rfl).1⟩

end SystemsPrep.Spsc
