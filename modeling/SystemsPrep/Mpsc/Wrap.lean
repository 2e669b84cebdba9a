import Mathlib.Data.Nat.Prime.Basic
import SystemsPrep.Mpsc.Sequential

/-!
A multi-producer queue whose indices wrap.

The cell of an index is its remainder by the capacity. When the index type wraps,
the cells go on in turn if the last lap ends there, which is so for the powers of
two and for no other capacity. Otherwise two indices in use can fall on one cell:
the later push overwrites a value that nobody has taken yet, and the next pop
delivers it out of turn.
-/

namespace SystemsPrep.Mpsc

open Base

variable {w : ℕ} {T : Type*}

/-- The indices from the tail up to the head refer to different cells. -/
def MpscQueue.CellsApart (q : MpscQueue w T) : Prop :=
  ∀ i < q.size.toNat, ∀ j < q.size.toNat,
    q.element (q.tail + BitVec.ofNat w i) = q.element (q.tail + BitVec.ofNat w j) → i = j

/-- After the calls the indices in use refer to different cells, and the results
are those of a bounded first-in first-out queue. -/
def StaysFifo (capacity : BitVec w) (data : ℕ → T) (cs : List (SoloCall T)) : Prop :=
  (∀ q, exec callStep (.create capacity data) cs = some q → q.CellsApart) ∧
    ∃ xs, FifoRun capacity.toNat (results (.create capacity data) cs) xs

theorem Holds.cellsApart {q : MpscQueue w T} {lo : ℕ} {xs : List T} (h : Holds q lo xs) :
    q.CellsApart := by
  have hcell : ∀ i, q.element (q.tail + BitVec.ofNat w i) = q.cell (lo + i) := by
    intro i
    rw [h.tail, ← BitVec.ofNat_add, MpscQueue.cell]
  intro i hi j hj he
  rw [h.toNat_size] at hi hj
  rw [hcell, hcell] at he
  exact h.apart i hi j hj he

/-- Calls that return, before the indices wrap or on a capacity that divides the
number of indices. -/
theorem staysFifo_of_returns {capacity : BitVec w} {data : ℕ → T} {cs : List (SoloCall T)}
    (hcs : ∀ c ∈ cs, c.Returns)
    (hlt : ((results (.create capacity data) cs).flatMap FifoEvent.accepted).length < 2 ^ w ∨
      capacity.toNat ∣ 2 ^ w) : StaysFifo capacity data cs := by
  have hreturns : Steps callStep (fun q c _ => NoPushThrows q c) (.create capacity data) cs :=
    fun bs c t t' hbs _ _ => (hcs c (hbs.subset (by simp))).noPushThrows t
  have hsound := sound_of_noPushThrows hreturns hlt
  obtain ⟨q, hq⟩ := exec_callStep (.create capacity data) cs
  obtain ⟨-, lo, xs, hrun, hholds, -⟩ := refines_exec hsound hq
  refine ⟨fun q' hq' => ?_, xs, hrun⟩
  obtain rfl : q = q' := by
    rw [hq] at hq'
    exact Option.some.inj hq'
  exact hholds.cellsApart

/-! ### Pushes on a queue with room -/

theorem MpscQueue.push_of_room {q : MpscQueue w T} (h : q.full q.head q.tail = false) (v : T) :
    q.push v none =
      ((({ q with head := q.head + 1 }).setData (q.element q.head) v).setReady
        (q.element q.head) true, .pushed v true) := by
  simp only [MpscQueue.push, h]
  rfl

theorem MpscQueue.full_eq_false {q : MpscQueue w T} (h : q.size.toNat < q.cap) :
    q.full q.head q.tail = false := by
  rw [MpscQueue.full, decide_eq_false_iff_not, BitVec.le_def]
  exact Nat.not_le.mpr h

theorem MpscQueue.push_room {q : MpscQueue w T} (hroom : q.size.toNat < q.cap) (v : T) :
    (q.push v none).2 = .pushed v true ∧ (q.push v none).1.head = q.head + 1 ∧
      (q.push v none).1.tail = q.tail ∧ (q.push v none).1.capacity = q.capacity := by
  rw [push_of_room (full_eq_false hroom)]
  exact ⟨rfl, rfl, rfl, rfl⟩

theorem MpscQueue.toNat_size_succ {q q' : MpscQueue w T} (h : q.size.toNat < q.cap)
    (hhead : q'.head = q.head + 1) (htail : q'.tail = q.tail) :
    q'.size.toNat = q.size.toNat + 1 := by
  have hcap := q.cap_lt
  have hw : 1 < 2 ^ w := by omega
  have hone : (1 : BitVec w).toNat = 1 := by
    rw [BitVec.ofNat_eq_ofNat, BitVec.toNat_ofNat, Nat.mod_eq_of_lt hw]
  have hsize : q'.size = q.size + 1 := by
    rw [size, size, hhead, htail, BitVec.sub_eq_add_neg, BitVec.sub_eq_add_neg, BitVec.add_assoc,
      BitVec.add_comm 1, ← BitVec.add_assoc]
  rw [hsize, BitVec.toNat_add, hone, Nat.mod_eq_of_lt (by omega)]

/-- Pushes advance the head while there is room, whatever the cells hold. -/
theorem exec_pushes {q : MpscQueue w T} {vs : List T} (hroom : q.size.toNat + vs.length ≤ q.cap) :
    ∃ q', exec callStep q (vs.map fun v => .push v none) = some q' ∧
      q'.head = q.head + BitVec.ofNat w vs.length ∧ q'.tail = q.tail ∧
      q'.capacity = q.capacity ∧ q'.size.toNat = q.size.toNat + vs.length ∧
      results q (vs.map fun v => .push v none) = vs.map fun v => .pushed v true := by
  induction vs generalizing q with
  | nil => exact ⟨q, rfl, by simp, rfl, rfl, rfl, rfl⟩
  | cons v vs ih =>
      -- a push does not look at the flag of the cell it takes
      simp only [List.length_cons] at hroom ⊢
      have hlt : q.size.toNat < q.cap := by omega
      obtain ⟨hevent, hhead, htail, hcap⟩ := MpscQueue.push_room hlt v
      set q₁ := (q.push v none).1
      have hsize := MpscQueue.toNat_size_succ hlt hhead htail
      have hroom₁ : q₁.size.toNat + vs.length ≤ q₁.cap := by
        rw [hsize, MpscQueue.cap, hcap]
        change _ ≤ q.cap
        omega
      obtain ⟨q', hexec, hhead', htail', hcap', hsize', hresults⟩ := ih hroom₁
      refine ⟨q', exec_cons_eq_some.mpr ⟨q₁, rfl, hexec⟩, ?_, htail'.trans htail,
        hcap'.trans hcap, by omega, ?_⟩
      · rw [hhead', hhead, Nat.add_comm, BitVec.ofNat_add, BitVec.add_assoc]
        rfl
      · change [(q.push v none).2] ++ results q₁ _ = _
        rw [hevent, hresults]
        rfl

/-! ### Up to the last index -/

/-- `n` times a push and a pop. -/
def pairs (v : T) : ℕ → List (SoloCall T)
  | 0 => []
  | n + 1 => pairs v n ++ [.push v none, .pop v false]

theorem returns_pairs (v : T) (n : ℕ) : ∀ c ∈ pairs v n, c.Returns := by
  induction n with
  | zero => exact fun c hc => absurd hc (List.not_mem_nil)
  | succ n ih =>
      intro c hc
      rcases List.mem_append.mp hc with hc | hc
      · exact ih c hc
      · simp only [List.mem_cons, List.not_mem_nil, or_false] at hc
        rcases hc with rfl | rfl <;> rfl

/-- A push and a pop on an empty queue whose indices have not wrapped. -/
theorem exec_pair {q : MpscQueue w T} {n : ℕ} (h : Holds q n []) (hn : n < 2 ^ w)
    (hcap : 0 < q.cap) (v : T) :
    ∃ q', exec callStep q [.push v none, .pop v false] = some q' ∧ Holds q' (n + 1) [] ∧
      q'.capacity = q.capacity ∧
      results q [.push v none, .pop v false] = [.pushed v true, .popped (some v)] := by
  have hfree := h.isReady_next hcap (cell_eq_mod (Or.inl hn))
  have hroom : q.size.toNat < q.cap := by
    rw [h.toNat_size]
    exact hcap
  have hpush := MpscQueue.push_of_room (MpscQueue.full_eq_false hroom) v
  obtain ⟨hpushed, hhead₁, htail₁, hcap₁⟩ := MpscQueue.push_room hroom v
  have hhead : q.element q.head = q.cell (n + 0) := by
    rw [MpscQueue.cell, h.head]
    rfl
  set q₁ := (q.push v none).1 with hq₁
  have hheld : Holds q₁ n [v] := by
    refine h.accept (v := v) hcap (hhead ▸ hfree) hcap₁ hhead₁ htail₁ ?_
    rw [hq₁, hpush, MpscQueue.setData_setReady_items, hhead]
    rfl
  have hpop := hheld.pop_cons v false
  have htaken : Holds (q₁.pop v false).1 (n + 1) [] := by
    rw [hpop]
    exact hheld.take v rfl rfl rfl (MpscQueue.setData_setReady_items ..)
  refine ⟨(q₁.pop v false).1, rfl, htaken, ?_, ?_⟩
  · rw [hpop, if_neg Bool.false_ne_true]
    exact hcap₁
  · have hpopped : (q₁.pop v false).2 = .popped (some v) := by
      rw [hpop]
      rfl
    change [(q.push v none).2, (q₁.pop v false).2] = _
    rw [hpushed, hpopped]

theorem exec_pairs {capacity : BitVec w} (hcap : capacity ≠ 0) (data : ℕ → T) (v : T) {n : ℕ}
    (hn : n ≤ 2 ^ w) :
    ∃ q, exec callStep (.create capacity data) (pairs v n) = some q ∧ Holds q n [] ∧
      q.capacity = capacity ∧
      (results (.create capacity data) (pairs v n)).flatMap FifoEvent.accepted =
        (results (.create capacity data) (pairs v n)).flatMap FifoEvent.taken := by
  induction n with
  | zero => exact ⟨_, rfl, holds_create capacity data, rfl, rfl⟩
  | succ n ih =>
      obtain ⟨q, hexec, hholds, hq, hresults⟩ := ih (by omega)
      have hpos : 0 < q.cap := by
        rw [MpscQueue.cap, hq]
        exact BitVec.toNat_pos_of_ne_zero hcap
      obtain ⟨q', hexec', hholds', hq', hresults'⟩ := exec_pair hholds (by omega) hpos v
      have happend := record_append callEvent [.push v none, .pop v false] hexec
      refine ⟨q', exec_append_eq_some.mpr ⟨q, hexec, hexec'⟩, hholds', hq'.trans hq, ?_⟩
      change results _ (pairs v n ++ _) = results _ (pairs v n) ++ results q _ at happend
      rw [pairs, happend, hresults', List.flatMap_append, List.flatMap_append, hresults]
      rfl

/-! ### Past the last index -/

/-- Where the wrap does not end a lap, the last index and one after it share a cell. -/
theorem element_collision {q : MpscQueue w T} (hcap : 0 < q.cap) (hdvd : ¬ q.cap ∣ 2 ^ w)
    (htail : q.tail = BitVec.ofNat w (2 ^ w - 1)) :
    q.element (q.tail + BitVec.ofNat w (2 ^ w % q.cap)) = q.element q.tail := by
  have hlt := q.cap_lt
  have hr : 2 ^ w % q.cap ≠ 0 := fun hzero => hdvd (Nat.dvd_of_mod_eq_zero hzero)
  have hrlt : 2 ^ w % q.cap < q.cap := Nat.mod_lt _ hcap
  have hdiv := Nat.div_add_mod (2 ^ w) q.cap
  generalize 2 ^ w % q.cap = r at hr hrlt hdiv ⊢
  have hnext : 2 ^ w - 1 + r = 2 ^ w + (r - 1) := by omega
  have hlast : 2 ^ w - 1 = q.cap * (2 ^ w / q.cap) + (r - 1) := by omega
  have hwrapped : (2 ^ w - 1 + r) % 2 ^ w = r - 1 := by
    rw [hnext, Nat.add_mod_left, Nat.mod_eq_of_lt (by omega)]
  have htop : (2 ^ w - 1) % 2 ^ w = 2 ^ w - 1 := Nat.mod_eq_of_lt (by omega)
  rw [htail, ← BitVec.ofNat_add, MpscQueue.element, MpscQueue.element, BitVec.toNat_umod,
    BitVec.toNat_umod, BitVec.toNat_ofNat, BitVec.toNat_ofNat, hwrapped, htop]
  change (r - 1) % q.cap = (2 ^ w - 1) % q.cap
  rw [hlast, Nat.mul_add_mod]

structure Collided (q : MpscQueue w T) (u : T) : Prop where
  tail : q.tail ≠ q.head
  shared : ¬ q.CellsApart
  overwritten : q.items (q.element q.tail) = ⟨u, true⟩

/-- A push to the cell of the oldest value. -/
theorem collided_push {q : MpscQueue w T} (hroom : q.size.toNat < q.cap)
    (hused : q.size.toNat ≠ 0) (hsame : q.element q.head = q.element q.tail) (u : T) :
    Collided (q.push u none).1 u := by
  have hpush := MpscQueue.push_of_room (MpscQueue.full_eq_false hroom) u
  have hhead : q.tail + BitVec.ofNat w q.size.toNat = q.head := by
    rw [BitVec.ofNat_toNat, BitVec.setWidth_eq, MpscQueue.size, BitVec.add_comm,
      BitVec.sub_add_cancel]
  have hsize : (q.push u none).1.size.toNat = q.size.toNat + 1 := by
    rw [hpush]
    exact MpscQueue.toNat_size_succ hroom rfl rfl
  constructor
  · intro htail
    rw [MpscQueue.size, ← htail, BitVec.sub_self, BitVec.toNat_zero] at hsize
    omega
  · intro happart
    refine hused (happart q.size.toNat (by omega) 0 (by omega) ?_)
    rw [hpush, BitVec.add_zero]
    change q.element (q.tail + BitVec.ofNat w q.size.toNat) = q.element q.tail
    rw [hhead, hsame]
  · rw [hpush, MpscQueue.setData_setReady_items]
    change Function.update q.items (q.element q.head) ⟨u, true⟩ (q.element q.tail) = _
    rw [hsame, Function.update_self]

/-- A queue whose indices are about to wrap, filled up to the collision. -/
theorem exec_collision {q : MpscQueue w T} (hholds : Holds q (2 ^ w - 1) []) (hcap : 0 < q.cap)
    (hdvd : ¬ q.cap ∣ 2 ^ w) (v u : T) :
    ∃ vs q', exec callStep q ((v :: vs ++ [u]).map fun v => .push v none) = some q' ∧
      Collided q' u ∧ results q ((v :: vs ++ [u]).map fun v => .push v none) =
        (v :: vs ++ [u]).map fun v => .pushed v true := by
  have hr : 2 ^ w % q.cap ≠ 0 := fun hzero => hdvd (Nat.dvd_of_mod_eq_zero hzero)
  have hrlt : 2 ^ w % q.cap < q.cap := Nat.mod_lt _ hcap
  have hshared := element_collision hcap hdvd hholds.tail
  have hempty : q.size.toNat = 0 := hholds.toNat_size
  have heq : q.head = q.tail := hholds.head.trans hholds.tail.symm
  -- `r` pushes take the head round to the cell of the tail, and there is still room
  generalize 2 ^ w % q.cap = r at hr hrlt hshared
  have hlen : (v :: List.replicate (r - 1) u).length = r := by
    rw [List.length_cons, List.length_replicate]
    omega
  have hfits : q.size.toNat + (v :: List.replicate (r - 1) u).length ≤ q.cap := by
    omega
  obtain ⟨q₁, hexec, hhead, htail, hcap₁, hsize, hresults⟩ := exec_pushes hfits
  rw [hlen] at hhead hsize
  have hroom : q₁.size.toNat < q₁.cap := by
    rw [hsize, MpscQueue.cap, hcap₁]
    change _ < q.cap
    omega
  have hsame : q₁.element q₁.head = q₁.element q₁.tail := by
    simp only [MpscQueue.element, hcap₁]
    rw [hhead, htail, heq]
    exact hshared
  have hpush := MpscQueue.push_of_room (MpscQueue.full_eq_false hroom) u
  have happend := record_append callEvent [.push u none] hexec
  change results q (_ ++ _) = results q _ ++ [(q₁.push u none).2] at happend
  refine ⟨List.replicate (r - 1) u, (q₁.push u none).1, ?_,
    collided_push hroom (by omega) hsame u, ?_⟩
  · rw [List.map_append]
    exact exec_append_eq_some.mpr ⟨q₁, hexec, rfl⟩
  · rw [List.map_append, List.map_append, ← hresults]
    rw [hpush] at happend
    exact happend

theorem Collided.pop {q : MpscQueue w T} {u : T} (h : Collided q u) (left : T) :
    (q.pop left false).2 = .popped (some u) := by
  have hempty : q.empty q.head q.tail = false := by
    rw [MpscQueue.empty, decide_eq_false_iff_not]
    exact h.tail.symm
  simp [MpscQueue.pop, hempty, h.overwritten]

theorem exists_collision {capacity : BitVec w} (hcap : capacity ≠ 0)
    (hdvd : ¬ capacity.toNat ∣ 2 ^ w) (data : ℕ → T) (v u : T) :
    ∃ cs q vs, (∀ c ∈ cs, c.Returns) ∧ exec callStep (.create capacity data) cs = some q ∧
      Collided q u ∧
      (results (.create capacity data) cs).flatMap FifoEvent.accepted =
        (results (.create capacity data) cs).flatMap FifoEvent.taken ++ v :: vs := by
  obtain ⟨q, hexec, hholds, rfl, hbalance⟩ :=
    exec_pairs hcap data v (Nat.sub_le (2 ^ w) 1)
  obtain ⟨vs, q', hexec', hcollided, hresults⟩ :=
    exec_collision hholds (BitVec.toNat_pos_of_ne_zero hcap) hdvd v u
  have happend := record_append callEvent ((v :: vs ++ [u]).map fun v => .push v none) hexec
  change results _ (_ ++ _) = results _ _ ++ results q _ at happend
  refine ⟨_, q', vs ++ [u], ?_, exec_append_eq_some.mpr ⟨q, hexec, hexec'⟩, hcollided, ?_⟩
  · intro c hc
    rcases List.mem_append.mp hc with hc | hc
    · exact returns_pairs v _ c hc
    · obtain ⟨x, -, rfl⟩ := List.mem_map.mp hc
      rfl
  · rw [happend, hresults, List.flatMap_append, List.flatMap_append, hbalance]
    simp [List.flatMap_map, FifoEvent.accepted, FifoEvent.taken]

/-- What is delivered past the last index is out of order. -/
theorem not_fifo_of_not_dvd {capacity : BitVec w} (hcap : capacity ≠ 0)
    (hdvd : ¬ capacity.toNat ∣ 2 ^ w) (data : ℕ → T) {u v : T} (huv : u ≠ v) :
    ∃ cs, (∀ c ∈ cs, c.Returns) ∧
      ¬ ∃ xs, FifoRun capacity.toNat (results (.create capacity data) cs) xs := by
  obtain ⟨cs, q, vs, hcs, hexec, hcollided, haccepted⟩ := exists_collision hcap hdvd data v u
  have happend := record_append callEvent [.pop u false] hexec
  change results _ (_ ++ _) = results _ _ ++ [(q.pop u false).2] at happend
  refine ⟨cs ++ [.pop u false], ?_, ?_⟩
  · intro c hc
    rcases List.mem_append.mp hc with hc | hc
    · exact hcs c hc
    · obtain rfl := List.mem_singleton.mp hc
      rfl
  · rintro ⟨xs, hrun⟩
    have heq := hrun.accepted_eq
    rw [happend, hcollided.pop, List.flatMap_append, List.flatMap_append, haccepted,
      List.append_assoc, List.append_assoc] at heq
    have htail := List.append_cancel_left heq
    exact huv (List.head_eq_of_cons_eq htail).symm

theorem dvd_two_pow_iff {capacity : BitVec w} :
    capacity.toNat ∣ 2 ^ w ↔ capacity.toNat.isPowerOfTwo := by
  constructor
  · intro hdvd
    obtain ⟨k, -, hk⟩ := (Nat.dvd_prime_pow Nat.prime_two).mp hdvd
    exact ⟨k, hk⟩
  · rintro ⟨k, hk⟩
    have hlt := capacity.isLt
    rw [hk] at hlt ⊢
    exact pow_dvd_pow 2 ((Nat.pow_lt_pow_iff_right (by omega)).mp hlt).le

/-- **A queue stays first-in first-out when its indices wrap exactly when its
capacity is a power of two.** -/
theorem wraps_fifo_iff {capacity : BitVec w} (hcap : capacity ≠ 0) (data : ℕ → T) :
    ((∀ cs : List (SoloCall T), (∀ c ∈ cs, c.Returns) → StaysFifo capacity data cs) ↔
      capacity.toNat.isPowerOfTwo) ∧
    ∀ u v : T, u ≠ v →
      ((∀ cs : List (SoloCall T), (∀ c ∈ cs, c.Returns) →
        ∃ xs, FifoRun capacity.toNat (results (.create capacity data) cs) xs) ↔
      capacity.toNat.isPowerOfTwo) := by
  rw [← dvd_two_pow_iff]
  refine ⟨⟨fun h => ?_, fun hdvd cs hcs => staysFifo_of_returns hcs (Or.inr hdvd)⟩,
    fun u v huv => ⟨fun h => ?_, fun hdvd cs hcs => (staysFifo_of_returns hcs (Or.inr hdvd)).2⟩⟩
  · by_contra hdvd
    obtain ⟨cs, q, -, hcs, hexec, hcollided, -⟩ :=
      exists_collision hcap hdvd data (data 0) (data 0)
    exact hcollided.shared ((h cs hcs).1 q hexec)
  · by_contra hdvd
    obtain ⟨cs, hcs, hrun⟩ := not_fifo_of_not_dvd hcap hdvd data huv
    exact hrun (h cs hcs)

theorem wraps_fifo_iff_fourSlots :
    StaysFifo (4 : BitVec 64) (fun _ => 0) [.push 7 none, .pop 0 false] :=
  (wraps_fifo_iff (by decide) _).1.mpr ⟨2, rfl⟩ _ (by simp [SoloCall.Returns])

/-- Three slots and 64-bit indices: past the last index two values in use share a
cell, and values are delivered out of order. -/
theorem threeSlots_not_fifo :
    (¬ ∀ (cs : List (SoloCall ℕ)) q, (∀ c ∈ cs, c.Returns) →
      exec callStep (.create (3 : BitVec 64) fun _ => 0) cs = some q → q.CellsApart) ∧
    ¬ ∀ cs : List (SoloCall ℕ), (∀ c ∈ cs, c.Returns) →
      ∃ xs, FifoRun 3 (results (.create (3 : BitVec 64) fun _ => 0) cs) xs := by
  have hcap : (3 : BitVec 64) ≠ 0 := by decide
  have hdvd : ¬ (3 : BitVec 64).toNat ∣ 2 ^ 64 := by decide
  constructor
  · intro h
    obtain ⟨cs, q, -, hcs, hexec, hcollided, -⟩ := exists_collision hcap hdvd (fun _ => 0) 1 2
    exact hcollided.shared (h cs q hcs hexec)
  · intro h
    obtain ⟨cs, hcs, hrun⟩ :=
      not_fifo_of_not_dvd hcap hdvd (fun _ => 0) (show (2 : ℕ) ≠ 1 by decide)
    exact hrun (h cs hcs)

end SystemsPrep.Mpsc
