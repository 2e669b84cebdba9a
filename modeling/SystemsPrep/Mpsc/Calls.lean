import SystemsPrep.Base.Exec
import SystemsPrep.Base.Fifo
import SystemsPrep.Base.Window
import SystemsPrep.Mpsc.Contents

/-!
Calls of a multi-producer queue that do not overlap.

A call that runs alone is a function of the queue. The assignment of the element may
throw: in a push the index has been claimed by then, in a pop nothing has been changed.
As long as every claim is on a cell whose flag is down and every claimed cell is
published, the cells from the tail on hold the values of a bounded queue in order.
-/

namespace SystemsPrep.Mpsc

open Base

variable {w : ℕ} {T : Type*}

namespace MpscQueue

/-- `size()`. -/
def size (q : MpscQueue w T) : BitVec w := q.head - q.tail

def isEmpty (q : MpscQueue w T) : Bool := q.size = 0

def isFull (q : MpscQueue w T) : Bool := q.size = q.capacity

/-- A `push` that runs alone. If the assignment to the cell throws, `thrown` is what it
leaves there. -/
def push (q : MpscQueue w T) (value : T) (thrown : Option T) : MpscQueue w T × FifoEvent T :=
  let head := q.head
  if q.full head q.tail then (q, .pushed value false)
  else
    let q := { q with head := head + 1 }
    match thrown with
    | some data => (q.setData (q.element head) data, .threw)
    | none =>
        ((q.setData (q.element head) value).setReady (q.element head) true, .pushed value true)

/-- A `pop` that runs alone. Moving the value out leaves `left` in the cell; an assignment
that throws leaves its source unchanged. -/
def pop (q : MpscQueue w T) (left : T) (throws : Bool) : MpscQueue w T × FifoEvent T :=
  let tail := q.tail
  if q.empty q.head tail then (q, .popped none)
  else if (q.items (q.element tail)).isReady = false then (q, .popped none)
  else if throws then (q, .threw)
  else
    let value := (q.items (q.element tail)).data
    let q := (q.setData (q.element tail) left).setReady (q.element tail) false
    ({ q with tail := tail + 1 }, .popped (some value))

end MpscQueue

inductive SoloCall (T : Type*)
  | push (value : T) (thrown : Option T)
  | pop (left : T) (throws : Bool)

def MpscQueue.call (q : MpscQueue w T) : SoloCall T → MpscQueue w T × FifoEvent T
  | .push value thrown => q.push value thrown
  | .pop left throws => q.pop left throws

def callStep (q : MpscQueue w T) (c : SoloCall T) : Option (MpscQueue w T) := some (q.call c).1

def callEvent (q : MpscQueue w T) (c : SoloCall T) (_ : MpscQueue w T) : List (FifoEvent T) :=
  [(q.call c).2]

def results (q : MpscQueue w T) (cs : List (SoloCall T)) : List (FifoEvent T) :=
  record callStep callEvent q cs

def MpscQueue.indexes (q : MpscQueue w T) : SoloCall T → List (BitVec w)
  | .push _ _ => if q.full q.head q.tail then [] else [q.head]
  | .pop _ _ => if q.empty q.head q.tail then [] else [q.tail]

/-! ### The values a queue holds -/

def MpscQueue.cell (q : MpscQueue w T) (k : ℕ) : ℕ := q.element (BitVec.ofNat w k)

/-- The queue holds the values `xs` from the index `lo` on, and every other flag is down. -/
structure Holds (q : MpscQueue w T) (lo : ℕ) (xs : List T) : Prop where
  head : q.head = BitVec.ofNat w (lo + xs.length)
  tail : q.tail = BitVec.ofNat w lo
  room : xs.length ≤ q.cap
  stored : ∀ k x, xs[k]? = some x → q.items (q.cell (lo + k)) = ⟨x, true⟩
  free : ∀ c, (∀ k < xs.length, c ≠ q.cell (lo + k)) → (q.items c).isReady = false
  apart : ∀ k < xs.length, ∀ m < xs.length, q.cell (lo + k) = q.cell (lo + m) → k = m

theorem holds_create (capacity : BitVec w) (data : ℕ → T) :
    Holds (.create capacity data) 0 [] where
  head := rfl
  tail := rfl
  room := Nat.zero_le _
  stored _ _ h := nomatch h
  free _ _ := rfl
  apart _ h := absurd h (Nat.not_lt_zero _)

section Holds

variable {q : MpscQueue w T} {lo : ℕ} {xs : List T}

theorem Holds.toNat_size (h : Holds q lo xs) : q.size.toNat = xs.length := by
  have := q.cap_lt
  have := h.room
  rw [MpscQueue.size, h.head, h.tail, toNat_ofNat_sub (Nat.le_add_right _ _) (by omega)]
  omega

theorem Holds.full_iff (h : Holds q lo xs) :
    q.full q.head q.tail = true ↔ xs.length = q.cap := by
  have hsize := h.toNat_size
  have hroom := h.room
  rw [MpscQueue.full, decide_eq_true_eq, BitVec.le_def]
  change q.cap ≤ q.size.toNat ↔ _
  omega

theorem Holds.empty_iff (h : Holds q lo xs) : q.empty q.head q.tail = true ↔ xs = [] := by
  have := q.cap_lt
  have := h.room
  rw [MpscQueue.empty, decide_eq_true_eq, h.head, h.tail,
    ofNat_inj_of_near (Nat.le_add_right _ _) (by omega)]
  rw [← List.length_eq_zero_iff]
  omega

theorem Holds.isEmpty_iff (h : Holds q lo xs) : q.isEmpty = true ↔ xs = [] := by
  rw [MpscQueue.isEmpty, decide_eq_true_eq, ← List.length_eq_zero_iff, ← h.toNat_size,
    ← BitVec.toNat_inj]
  rfl

theorem Holds.isFull_iff (h : Holds q lo xs) : q.isFull = true ↔ xs.length = q.cap := by
  rw [MpscQueue.isFull, decide_eq_true_eq, ← h.toNat_size, ← BitVec.toNat_inj]
  rfl

theorem Holds.cell_ne (h : Holds q lo xs)
    (hfree : (q.items (q.cell (lo + xs.length))).isReady = false) {k : ℕ} (hk : k < xs.length) :
    q.cell (lo + xs.length) ≠ q.cell (lo + k) := by
  intro heq
  rw [heq, h.stored k _ (List.getElem?_eq_getElem hk)] at hfree
  cases hfree

/-- A value is stored in the cell of the next index. -/
theorem Holds.accept (h : Holds q lo xs) {q' : MpscQueue w T} {v : T}
    (hroom : xs.length < q.cap) (hfree : (q.items (q.cell (lo + xs.length))).isReady = false)
    (hcap : q'.capacity = q.capacity) (hhead : q'.head = q.head + 1) (htail : q'.tail = q.tail)
    (hitems : q'.items = Function.update q.items (q.cell (lo + xs.length)) ⟨v, true⟩) :
    Holds q' lo (xs ++ [v]) := by
  have hcell : ∀ k, q'.cell k = q.cell k := fun k => by
    simp only [MpscQueue.cell, MpscQueue.element, hcap]
  have hlen : (xs ++ [v]).length = xs.length + 1 := by simp
  refine ⟨?_, htail.trans h.tail, ?_, fun k x hx => ?_, fun c hc => ?_, fun k hk m hm he => ?_⟩
  · rw [hhead, h.head, hlen, ← Nat.add_assoc, ofNat_succ]
  · rw [hlen, MpscQueue.cap, hcap]
    exact hroom
  · rw [hitems, hcell]
    rcases Nat.lt_or_ge k xs.length with hold | hnew
    · rw [List.getElem?_append_left hold] at hx
      rw [Function.update_of_ne (h.cell_ne hfree hold).symm]
      exact h.stored k x hx
    · have hk := (List.getElem?_eq_some_iff.mp hx).1
      obtain rfl : k = xs.length := by omega
      rw [List.getElem?_concat_length, Option.some.injEq] at hx
      rw [Function.update_self, hx]
  · rw [hitems, Function.update_of_ne]
    · exact h.free c fun k hk => hcell (lo + k) ▸ hc k (by omega)
    · exact hcell (lo + xs.length) ▸ hc xs.length (by omega)
  · rw [hcell, hcell] at he
    rcases Nat.lt_or_ge k xs.length with hk' | hk'
    · rcases Nat.lt_or_ge m xs.length with hm' | hm'
      · exact h.apart k hk' m hm' he
      · obtain rfl : m = xs.length := by omega
        exact absurd he.symm (h.cell_ne hfree hk')
    · obtain rfl : k = xs.length := by omega
      rcases Nat.lt_or_ge m xs.length with hm' | hm'
      · exact absurd he (h.cell_ne hfree hm')
      · omega

/-- The oldest value is taken out of its cell. -/
theorem Holds.take {x : T} (h : Holds q lo (x :: xs)) {q' : MpscQueue w T} (left : T)
    (hcap : q'.capacity = q.capacity) (hhead : q'.head = q.head) (htail : q'.tail = q.tail + 1)
    (hitems : q'.items = Function.update q.items (q.cell lo) ⟨left, false⟩) :
    Holds q' (lo + 1) xs := by
  have hcell : ∀ k, q'.cell k = q.cell k := fun k => by
    simp only [MpscQueue.cell, MpscQueue.element, hcap]
  have hshift : ∀ k, lo + 1 + k = lo + (k + 1) := fun k => by omega
  have hne : ∀ k < xs.length, q.cell (lo + (k + 1)) ≠ q.cell lo := fun k hk he =>
    absurd (h.apart (k + 1) (Nat.succ_lt_succ hk) 0 (Nat.succ_pos _) he) (Nat.succ_ne_zero k)
  refine ⟨?_, ?_, ?_, fun k y hy => ?_, fun c hc => ?_, fun k hk m hm he => ?_⟩
  · rw [hhead, h.head, hshift, List.length_cons]
  · rw [htail, h.tail, ofNat_succ]
  · rw [MpscQueue.cap, hcap]
    exact (Nat.le_succ _).trans h.room
  · have hk := (List.getElem?_eq_some_iff.mp hy).1
    rw [hitems, hcell, hshift, Function.update_of_ne (hne k hk)]
    exact h.stored (k + 1) y hy
  · rw [hitems]
    by_cases hclo : c = q.cell lo
    · rw [hclo, Function.update_self]
    · rw [Function.update_of_ne hclo]
      refine h.free c fun k hk => ?_
      cases k with
      | zero => exact hclo
      | succ k =>
          rw [← hshift, ← hcell]
          exact hc k (Nat.lt_of_succ_lt_succ hk)
  · rw [hcell, hcell, hshift, hshift] at he
    have := h.apart (k + 1) (Nat.succ_lt_succ hk) (m + 1) (Nat.succ_lt_succ hm) he
    omega

end Holds

/-! ### One call -/

/-- A push that is not refused finds the flag of its cell down, and its assignment does
not throw. -/
def Sound (q : MpscQueue w T) : SoloCall T → Prop
  | .push _ thrown => q.full q.head q.tail = true ∨
      thrown = none ∧ (q.items (q.element q.head)).isReady = false
  | .pop _ _ => True

/-- What a call is to do: the step of a bounded queue that holds `xs`, and as many
indices claimed as values accepted. -/
def Done (q : MpscQueue w T) (lo : ℕ) (xs : List T) (r : MpscQueue w T × FifoEvent T) : Prop :=
  ∃ lo' ys, FifoStep q.cap xs r.2 ys ∧ Holds r.1 lo' ys ∧
    lo' + ys.length = lo + xs.length + r.2.accepted.length ∧ r.1.capacity = q.capacity

theorem Holds.push {q : MpscQueue w T} {lo : ℕ} {xs : List T} (h : Holds q lo xs) {v : T}
    {thrown : Option T} (hsound : Sound q (.push v thrown)) : Done q lo xs (q.push v thrown) := by
  by_cases hfull : q.full q.head q.tail = true
  · have hpush : q.push v thrown = (q, .pushed v false) := by
      simp [MpscQueue.push, hfull]
    rw [hpush]
    exact ⟨lo, xs, .refuse v (h.full_iff.mp hfull), h, rfl, rfl⟩
  · obtain ⟨rfl, hfree⟩ := hsound.resolve_left hfull
    have hroom := h.room
    have hlt : xs.length < q.cap := by
      have := mt h.full_iff.mpr hfull
      omega
    have hhead : q.element q.head = q.cell (lo + xs.length) := by
      rw [MpscQueue.cell, ← h.head]
    have hpush : q.push v none =
        ((({ q with head := q.head + 1 }).setData (q.element q.head) v).setReady
          (q.element q.head) true, .pushed v true) := by
      simp only [MpscQueue.push, hfull]
      rfl
    rw [hpush]
    refine ⟨lo, xs ++ [v], .accept v hlt, h.accept hlt (hhead ▸ hfree) rfl rfl rfl ?_, ?_, rfl⟩
    · rw [MpscQueue.setData_setReady_items, hhead]
    · rw [List.length_append, Nat.add_assoc]
      rfl

theorem Holds.pop_nil {q : MpscQueue w T} {lo : ℕ} (h : Holds q lo []) (left : T)
    (throws : Bool) : q.pop left throws = (q, .popped none) := by
  simp [MpscQueue.pop, h.empty_iff.mpr rfl]

theorem Holds.pop_cons {q : MpscQueue w T} {lo : ℕ} {x : T} {xs : List T}
    (h : Holds q lo (x :: xs)) (left : T) (throws : Bool) :
    q.pop left throws = if throws then (q, .threw) else
      ({ ((q.setData (q.cell lo) left).setReady (q.cell lo) false) with tail := q.tail + 1 },
        .popped (some x)) := by
  have hempty : q.empty q.head q.tail = false := by
    rw [← Bool.not_eq_true, h.empty_iff]
    exact List.cons_ne_nil x xs
  have htail : q.element q.tail = q.cell lo := by rw [MpscQueue.cell, ← h.tail]
  have hitem : q.items (q.cell lo) = ⟨x, true⟩ := h.stored 0 x rfl
  simp [MpscQueue.pop, hempty, htail, hitem]

theorem Holds.pop {q : MpscQueue w T} {lo : ℕ} {xs : List T} (h : Holds q lo xs) (left : T)
    (throws : Bool) : Done q lo xs (q.pop left throws) := by
  cases xs with
  | nil =>
      rw [h.pop_nil]
      exact ⟨lo, [], .empty, h, rfl, rfl⟩
  | cons x xs =>
      rw [h.pop_cons]
      cases throws with
      | true => exact ⟨lo, x :: xs, .threw _, h, rfl, rfl⟩
      | false =>
          refine ⟨lo + 1, xs, .take x xs, h.take left rfl rfl rfl ?_, ?_, rfl⟩
          · exact MpscQueue.setData_setReady_items ..
          · rw [List.length_cons, Nat.add_comm xs.length, ← Nat.add_assoc]
            rfl

theorem Holds.call {q : MpscQueue w T} {lo : ℕ} {xs : List T} (h : Holds q lo xs)
    {c : SoloCall T} (hsound : Sound q c) : Done q lo xs (q.call c) := by
  cases c with
  | push v thrown => exact h.push hsound
  | pop left throws => exact h.pop left throws

/-! ### Sequences of calls -/

def Refines (capacity : BitVec w) (q : MpscQueue w T) (es : List (FifoEvent T)) : Prop :=
  q.capacity = capacity ∧ ∃ lo xs, FifoRun capacity.toNat es xs ∧ Holds q lo xs ∧
    lo + xs.length = (es.flatMap FifoEvent.accepted).length

theorem refines_create (capacity : BitVec w) (data : ℕ → T) :
    Refines capacity (.create capacity data) [] :=
  ⟨rfl, 0, [], .nil, holds_create capacity data, rfl⟩

theorem Refines.call {capacity : BitVec w} {q : MpscQueue w T} {es : List (FifoEvent T)}
    (h : Refines capacity q es) (c : SoloCall T) (hsound : Sound q c) :
    Refines capacity (q.call c).1 (es ++ [(q.call c).2]) := by
  obtain ⟨rfl, lo, xs, hrun, hholds, hcount⟩ := h
  obtain ⟨lo', ys, hstep, hholds', hcount', hcap⟩ := hholds.call hsound
  refine ⟨hcap, lo', ys, hrun.concat hstep, hholds', ?_⟩
  rw [List.flatMap_append, List.length_append, List.flatMap_singleton]
  omega

/-- A sequence of calls refines the bounded queue as long as every call is sound. -/
theorem refines_exec {capacity : BitVec w} {data : ℕ → T} {cs : List (SoloCall T)}
    {q : MpscQueue w T}
    (hsound : Steps callStep (fun q c _ => Sound q c) (.create capacity data) cs)
    (h : exec callStep (.create capacity data) cs = some q) :
    Refines capacity q (results (.create capacity data) cs) := by
  refine hsound.record_invariant (I := Refines capacity) (fun q es c q' hc hq hstep => ?_) h
    (refines_create capacity data)
  obtain rfl := Option.some.inj hstep
  exact hq.call c hc

end SystemsPrep.Mpsc
