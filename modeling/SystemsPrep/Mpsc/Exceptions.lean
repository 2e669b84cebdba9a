import SystemsPrep.Mpsc.Sequential

/-!
Assignments of elements that throw.

A pop assigns before it changes the queue, so a pop that leaves by an exception can be
made again. A push has claimed its index by then. It leaves a claimed cell that is
never published: the free space is one less, and no pop gets past that cell.
-/

namespace SystemsPrep.Mpsc

open Base

variable {w : ℕ} {T : Type*}

/-- The results so far are those of a bounded queue on which calls that throw change
nothing. Its free space is that of the queue, the next pop delivers its oldest value, and
so does the pop after one that throws. -/
def Atomic (capacity : BitVec w) (q : MpscQueue w T) (es : List (FifoEvent T)) : Prop :=
  ∃ xs, FifoRun capacity.toNat es xs ∧ q.size.toNat = xs.length ∧
    (∀ left, (q.pop left false).2 = .popped xs.head?) ∧
    ∀ left left', ((q.pop left true).1.pop left' false).2 = .popped xs.head?

theorem Holds.pop_result {q : MpscQueue w T} {lo : ℕ} {xs : List T} (h : Holds q lo xs)
    (left : T) : (q.pop left false).2 = .popped xs.head? := by
  cases xs with
  | nil => rw [h.pop_nil, List.head?_nil]
  | cons x xs =>
      rw [h.pop_cons]
      rfl

theorem Holds.pop_throws {q : MpscQueue w T} {lo : ℕ} {xs : List T} (h : Holds q lo xs)
    (left : T) : (q.pop left true).1 = q := by
  cases xs with
  | nil => rw [h.pop_nil]
  | cons x xs =>
      rw [h.pop_cons]
      rfl

theorem Refines.atomic {capacity : BitVec w} {q : MpscQueue w T} {es : List (FifoEvent T)}
    (h : Refines capacity q es) : Atomic capacity q es := by
  obtain ⟨rfl, lo, xs, hrun, hholds, -⟩ := h
  refine ⟨xs, hrun, hholds.toNat_size, hholds.pop_result, fun left left' => ?_⟩
  rw [hholds.pop_throws]
  exact hholds.pop_result left'

/-- A push that throws takes one from the free space. -/
theorem size_of_push_throws {q : MpscQueue w T} {v d : T}
    (hfull : q.full q.head q.tail = false) :
    (q.push v (some d)).2 = .threw ∧ (q.push v (some d)).1.size.toNat = q.size.toNat + 1 := by
  have hpush : q.push v (some d) =
      (({ q with head := q.head + 1 }).setData (q.element q.head) d, .threw) := by
    simp only [MpscQueue.push, hfull]
    rfl
  have hlt : q.size.toNat < q.cap := not_full_iff.mp hfull
  have hsize : q.head + 1 - q.tail = q.size + 1 := by
    rw [MpscQueue.size, BitVec.sub_eq_add_neg, BitVec.sub_eq_add_neg]
    ac_rfl
  have hcap := q.cap_lt
  have hone : (1 : BitVec w).toNat = 1 := by
    change (BitVec.ofNat w 1).toNat = 1
    rw [BitVec.toNat_ofNat, Nat.mod_eq_of_lt (by omega)]
  rw [hpush]
  refine ⟨rfl, ?_⟩
  change (q.head + 1 - q.tail).toNat = _
  rw [hsize, BitVec.toNat_add, hone, Nat.mod_eq_of_lt (by omega)]

/-- After a push that throws, the queue has no longer the free space it had. -/
theorem noPushThrows_of_atomic {capacity : BitVec w} {q : MpscQueue w T} {c : SoloCall T}
    {es : List (FifoEvent T)} (h : Atomic capacity q es)
    (h' : Atomic capacity (q.call c).1 (es ++ [(q.call c).2])) : NoPushThrows q c := by
  cases c with
  | pop left throws => trivial
  | push v thrown =>
      cases thrown with
      | none => exact Or.inr rfl
      | some d =>
          left
          by_contra hfull
          rw [Bool.not_eq_true] at hfull
          obtain ⟨hthrew, hless⟩ := size_of_push_throws (v := v) (d := d) hfull
          obtain ⟨xs, hrun, hsize, -⟩ := h
          obtain ⟨ys, hrun', hsize', -⟩ := h'
          rw [MpscQueue.call] at hrun' hsize'
          rw [hthrew] at hrun'
          obtain ⟨xs', hxs', hstep⟩ := fifoRun_concat_iff.mp hrun'
          cases hstep with
          | threw =>
              obtain rfl := hrun.unique hxs'
              omega

def AtomicThroughout (capacity : BitVec w) (data : ℕ → T) (cs : List (SoloCall T)) : Prop :=
  ∀ bs, bs <+: cs → ∀ q, exec callStep (.create capacity data) bs = some q →
    Atomic capacity q (results (.create capacity data) bs)

/-- **Calls whose assignments throw.** In a sequence of calls that do not overlap, as long
as every push that is not refused finds the flag of its cell down and does not throw, every
call is atomic, those pops included that leave by an exception. Before the indices wrap,
and for ever if the capacity divides `2 ^ w`, the flag is always found down: there the calls
are atomic throughout if and only if no push that is not refused throws. -/
theorem calls_atomic (capacity : BitVec w) (data : ℕ → T) (cs : List (SoloCall T)) :
    (Steps callStep (fun q c _ => Sound q c) (.create capacity data) cs →
      AtomicThroughout capacity data cs) ∧
      (((results (.create capacity data) cs).flatMap FifoEvent.accepted).length < 2 ^ w ∨
          capacity.toNat ∣ 2 ^ w →
        (AtomicThroughout capacity data cs ↔
          Steps callStep (fun q c _ => NoPushThrows q c) (.create capacity data) cs)) := by
  have hsound : Steps callStep (fun q c _ => Sound q c) (.create capacity data) cs →
      AtomicThroughout capacity data cs := by
    rintro h bs ⟨ds, rfl⟩ q hq
    exact (refines_exec h.of_append hq).atomic
  refine ⟨hsound, fun hlt => ⟨fun hatomic bs c q q' hbs hq hstep => ?_,
    fun hc => hsound (sound_of_noPushThrows hc hlt)⟩⟩
  have hbs' : bs <+: cs := (List.prefix_append bs [c]).trans hbs
  have hafter := hatomic _ hbs q' (exec_concat_eq_some.mpr ⟨q, hq, hstep⟩)
  obtain rfl := Option.some.inj hstep
  have hres : results (.create capacity data) (bs ++ [c]) =
      results (.create capacity data) bs ++ [(q.call c).2] := record_concat _ hq hstep
  rw [hres] at hafter
  exact noPushThrows_of_atomic (hatomic bs hbs' q hq) hafter

def throwingPop : List (SoloCall ℕ) := [.push 1 none, .push 2 none, .pop 0 true, .pop 0 false]

theorem calls_atomic_throwingPop :
    results (.create (2 : BitVec 64) fun _ => 0) throwingPop =
        [.pushed 1 true, .pushed 2 true, .threw, .popped (some 1)] ∧
      AtomicThroughout (2 : BitVec 64) (fun _ => 0) throwingPop :=
  ⟨by decide +kernel,
    ((calls_atomic (2 : BitVec 64) (fun _ => 0) throwingPop).2 (Or.inr (by decide))).mpr
      (by decide +kernel)⟩

def throwingPush : List (SoloCall ℕ) := [.push 1 (some 0), .push 2 none, .pop 0 false]

/-- The value of the second push is not delivered, although the queue holds nothing older. -/
theorem throwing_push_blocks :
    results (.create (2 : BitVec 64) fun _ => 0) throwingPush =
        [.threw, .pushed 2 true, .popped none] ∧
      ¬ ∃ xs, FifoRun 2 (results (.create (2 : BitVec 64) fun _ => 0) throwingPush) xs := by
  have hres : results (.create (2 : BitVec 64) fun _ => 0) throwingPush =
      [.threw, .pushed 2 true] ++ [.popped none] := by decide +kernel
  refine ⟨hres, ?_⟩
  rintro ⟨ys, hrun⟩
  have hheld := hrun.accepted_eq
  rw [hres] at hrun hheld
  obtain ⟨xs, -, hstep⟩ := fifoRun_concat_iff.mp hrun
  cases hstep with
  | empty => cases hheld

end SystemsPrep.Mpsc
