import Mathlib.Tactic.Linarith
import Mathlib.Data.List.Infix
import Mathlib.Data.List.Nodup

/-!
The window of an endless stream that a ring of `c` slots holds.

Entry `k` of the stream lives in slot `k % c`. A writer at one end and a reader
at the other keep the ring correct as long as the entries between them fit:
two entries less than `c` apart never share a slot.
-/

namespace SystemsPrep.Base

variable {β : Type*}

theorem mod_ne_mod_of_near {c k m : ℕ} (hlt : k < m) (hnear : m < k + c) : k % c ≠ m % c := by
  intro heq
  have hdvd : c ∣ m - k := Nat.dvd_of_mod_eq_zero (Nat.sub_mod_eq_zero_of_mod_eq heq.symm)
  have := Nat.le_of_dvd (by omega) hdvd
  omega

theorem eq_of_mod_eq_of_near {c lo k m : ℕ} (hk : lo ≤ k) (hk' : k < lo + c) (hm : lo ≤ m)
    (hm' : m < lo + c) (heq : k % c = m % c) : k = m := by
  rcases lt_trichotomy k m with hlt | rfl | hlt
  · exact absurd heq (mod_ne_mod_of_near hlt (by omega))
  · rfl
  · exact absurd heq.symm (mod_ne_mod_of_near hlt (by omega))

theorem exists_mod_eq {c i : ℕ} (lo : ℕ) (hi : i < c) : ∃ k, lo ≤ k ∧ k < lo + c ∧ k % c = i := by
  have hdiv := Nat.div_add_mod lo c
  have hmod := Nat.mod_lt lo (show 0 < c by omega)
  rcases Nat.lt_or_ge i (lo % c) with hlt | hge
  · refine ⟨c * (lo / c + 1) + i, ?_, ?_, ?_⟩
    · rw [Nat.mul_add]
      omega
    · rw [Nat.mul_add]
      omega
    · rw [Nat.mul_add_mod, Nat.mod_eq_of_lt hi]
  · refine ⟨c * (lo / c) + i, by omega, by omega, ?_⟩
    rw [Nat.mul_add_mod, Nat.mod_eq_of_lt hi]

theorem add_sub_mod_mod {c : ℕ} (hc : 0 < c) (m : ℕ) : (m + (c - m % c)) % c = 0 := by
  have hmod := Nat.mod_lt m hc
  have hdiv := Nat.div_add_mod m c
  have heq : m + (c - m % c) = c * (m / c + 1) := by
    rw [Nat.mul_add, Nat.mul_one]
    omega
  rw [heq, Nat.mul_mod_right]

/-! ### The slots of a run of entries -/

/-- Less than a lap of entries are all in different slots. -/
theorem nodup_slots {c m n : ℕ} (hn : n ≤ c) : ((List.range' m n).map (· % c)).Nodup := by
  refine List.Nodup.map_on (fun x hx y hy heq => ?_) List.nodup_range'
  rw [List.mem_range'_1] at hx hy
  exact eq_of_mod_eq_of_near hx.1 (by omega) hy.1 (by omega) heq

theorem mem_slots {c m n i : ℕ} :
    i ∈ (List.range' m n).map (· % c) ↔ ∃ x, m ≤ x ∧ x < m + n ∧ x % c = i := by
  simp [List.mem_map, List.mem_range'_1, and_assoc]

theorem slots_of_fits {c m n : ℕ} (h : m % c + n ≤ c) :
    (List.range' m n).map (· % c) = List.range' (m % c) n := by
  apply List.ext_getElem
  · simp
  · intro j hj _
    rw [List.length_map, List.length_range'] at hj
    simp only [List.getElem_range', one_mul, List.getElem_map]
    rw [Nat.add_mod, Nat.mod_eq_of_lt (show j < c by omega),
      Nat.mod_eq_of_lt (show m % c + j < c by omega)]

theorem slots_of_wraps {c m n : ℕ} (hc : 0 < c) (hlo : c - m % c ≤ n) (hhi : n ≤ c) :
    (List.range' m n).map (· % c) =
      List.range' (m % c) (c - m % c) ++ List.range' 0 (n - (c - m % c)) := by
  have hmod := Nat.mod_lt m hc
  have hsplit : List.range' m n = List.range' m (c - m % c) ++
      List.range' (m + (c - m % c)) (n - (c - m % c)) := by
    have happ := @List.range'_append m (c - m % c) (n - (c - m % c)) 1
    rw [Nat.one_mul, Nat.add_sub_cancel' hlo] at happ
    exact happ.symm
  rw [hsplit, List.map_append, slots_of_fits (by omega),
    slots_of_fits (by rw [add_sub_mod_mod hc]; omega), add_sub_mod_mod hc]

/-! ### Windows -/

/-- The ring `cell` of `c` slots holds the entries `lo, …, hi - 1` of `xs`. -/
def Window (c : ℕ) (cell : ℕ → β) (xs : List β) (lo hi : ℕ) : Prop :=
  ∀ k, lo ≤ k → k < hi → xs[k]? = some (cell (k % c))

theorem Window.empty (c : ℕ) (cell : ℕ → β) (xs : List β) (n : ℕ) : Window c cell xs n n :=
  fun _ hlo hhi => absurd hhi (by omega)

theorem Window.mono {c lo lo' hi hi' : ℕ} {cell : ℕ → β} {xs : List β}
    (h : Window c cell xs lo hi) (hlo : lo ≤ lo') (hhi : hi' ≤ hi) :
    Window c cell xs lo' hi' :=
  fun k hk hk' => h k (hlo.trans hk) (hk'.trans_le hhi)

theorem Window.append {c lo hi : ℕ} {cell : ℕ → β} {xs : List β}
    (h : Window c cell xs lo hi) (ys : List β) : Window c cell (xs ++ ys) lo hi := by
  intro k hlo hhi
  have hk := h k hlo hhi
  rw [List.getElem?_append_left (List.getElem?_eq_some_iff.mp hk).1, hk]

theorem Window.congr {c lo hi : ℕ} {cell cell' : ℕ → β} {xs : List β}
    (h : Window c cell xs lo hi)
    (hcell : ∀ k, lo ≤ k → k < hi → cell' (k % c) = cell (k % c)) :
    Window c cell' xs lo hi :=
  fun k hlo hhi => (h k hlo hhi).trans (by rw [hcell k hlo hhi])

theorem Window.write_past {c lo hi m : ℕ} {cell : ℕ → β} {xs : List β} (x : β)
    (h : Window c cell xs lo hi) (hm : hi ≤ m) (hroom : m < lo + c) :
    Window c (Function.update cell (m % c) x) xs lo hi :=
  h.congr fun k hlo hhi => Function.update_of_ne
    (mod_ne_mod_of_near (by omega) (by omega)) x cell

theorem Window.extend {c lo hi : ℕ} {cell : ℕ → β} {xs : List β}
    (h : Window c cell xs lo hi) (hnew : xs[hi]? = some (cell (hi % c))) :
    Window c cell xs lo (hi + 1) := by
  intro k hlo hhi
  rcases Nat.lt_succ_iff_lt_or_eq.mp hhi with hk | rfl
  · exact h k hlo hk
  · exact hnew

/-- A ring that holds the last `c` entries of a stream holds nothing else in the
slots the stream has used. -/
theorem Window.mem_of_lt {c k : ℕ} {cell : ℕ → β} {xs : List β} (hc : 0 < c)
    (h : Window c cell xs (xs.length - c) xs.length) (hk : k < xs.length) : cell (k % c) ∈ xs := by
  -- the last entry that shares the slot of entry `k`
  have hdiv := Nat.div_add_mod (xs.length - 1 - k) c
  have hmod := Nat.mod_lt (xs.length - 1 - k) hc
  have hslot : (k + c * ((xs.length - 1 - k) / c)) % c = k % c := Nat.add_mul_mod_self_left ..
  rw [← hslot]
  exact List.mem_of_getElem? (h _ (by omega) (by omega))

/-! ### Streams that grow at the end -/

theorem getElem?_of_isPrefix {xs ys : List β} (h : xs <+: ys) {k : ℕ} {y : β}
    (hy : xs[k]? = some y) : ys[k]? = some y := by
  obtain ⟨zs, rfl⟩ := h
  rw [List.getElem?_append_left (List.getElem?_eq_some_iff.mp hy).1, hy]

theorem isPrefix_concat {xs ys : List β} {y : β} (h : xs <+: ys)
    (hy : ys[xs.length]? = some y) : xs ++ [y] <+: ys := by
  obtain ⟨zs, rfl⟩ := h
  rw [List.getElem?_append_right le_rfl, Nat.sub_self, ← List.head?_eq_getElem?] at hy
  obtain ⟨zs, rfl⟩ := List.head?_eq_some_iff.mp hy
  exact ⟨zs, by rw [List.append_assoc, List.singleton_append]⟩

variable {γ δ : Type*} {f : β → γ → δ} {xs : List β} {ys : List γ}

theorem zipWith_append_left (h : ys.length ≤ xs.length) (zs : List β) :
    List.zipWith f (xs ++ zs) ys = List.zipWith f xs ys := by
  induction xs generalizing ys with
  | nil => simp [List.length_eq_zero_iff.mp (Nat.le_zero.mp h)]
  | cons x xs ih =>
      cases ys with
      | nil => rfl
      | cons y ys =>
          rw [List.cons_append, List.zipWith_cons_cons, List.zipWith_cons_cons,
            ih (Nat.le_of_succ_le_succ h)]

theorem zipWith_concat_right {x : β} (h : xs[ys.length]? = some x) (y : γ) :
    List.zipWith f xs (ys ++ [y]) = List.zipWith f xs ys ++ [f x y] := by
  induction xs generalizing ys with
  | nil => simp at h
  | cons x' xs ih =>
      cases ys with
      | nil =>
          obtain rfl : x' = x := by simpa using h
          simp
      | cons y' ys =>
          rw [List.cons_append, List.zipWith_cons_cons, List.zipWith_cons_cons, List.cons_append,
            ih (by simpa using h)]

end SystemsPrep.Base
