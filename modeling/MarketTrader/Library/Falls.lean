import Mathlib.Algebra.Order.Field.Basic
import Mathlib.Order.Bounds.Basic
import Mathlib.Tactic.Linarith

namespace MarketTrader.Library

/-! ### The greatest entry so far -/

section Prefix

variable {α : Type}

/-- The entries of the list up to a position. -/
def upToIndex (l : List α) (j : ℕ) : Set α := {x | ∃ i ≤ j, l[i]? = some x}

variable {x : α} {l : List α} {j : ℕ}

theorem upToIndex_cons_succ :
    upToIndex (x :: l) (j + 1) = insert x (upToIndex l j) := by
  ext y
  constructor
  · rintro ⟨i, hi, hy⟩
    cases i with
    | zero => exact .inl (Option.some.inj hy).symm
    | succ i => exact .inr ⟨i, by omega, hy⟩
  · rintro (rfl | ⟨i, hi, hy⟩)
    · exact ⟨0, by omega, rfl⟩
    · exact ⟨i + 1, by omega, hy⟩

theorem upToIndex_cons_zero : upToIndex (x :: l) 0 = {x} := by
  ext y
  constructor
  · rintro ⟨i, hi, hy⟩
    cases Nat.le_zero.mp hi
    exact (Option.some.inj hy).symm
  · rintro rfl
    exact ⟨0, le_rfl, rfl⟩

end Prefix

section RunningMax

variable {K : Type} [LinearOrder K]

def runningMaxFrom (top : K) : List K → List K
  | [] => []
  | x :: xs => max top x :: runningMaxFrom (max top x) xs

def runningMax : List K → List K
  | [] => []
  | x :: xs => x :: runningMaxFrom x xs

variable {top p : K} {l : List K} {j : ℕ}

theorem isGreatest_runningMaxFrom (h : (runningMaxFrom top l)[j]? = some p) :
    IsGreatest (insert top (upToIndex l j)) p := by
  induction l generalizing top j with
  | nil => cases h
  | cons x l ih =>
    cases j with
    | zero =>
      cases h
      rw [upToIndex_cons_zero]
      exact isGreatest_pair
    | succ j =>
      have hp := ih h
      rw [upToIndex_cons_succ]
      constructor
      · rcases hp.1 with rfl | hm
        · rcases max_choice top x with he | he
          · exact .inl he
          · exact .inr (.inl he)
        · exact .inr (.inr hm)
      · have htop := hp.2 (Set.mem_insert _ _)
        rintro y (rfl | rfl | hy)
        · exact (le_max_left _ _).trans htop
        · exact (le_max_right _ _).trans htop
        · exact hp.2 (.inr hy)

/-- What one pass keeps as its maximum is the greatest of the entries passed. -/
theorem isGreatest_runningMax (h : (runningMax l)[j]? = some p) : IsGreatest (upToIndex l j) p := by
  cases l with
  | nil => cases h
  | cons x l =>
    cases j with
    | zero =>
      cases h
      rw [upToIndex_cons_zero]
      exact isGreatest_singleton
    | succ j =>
      rw [upToIndex_cons_succ]
      exact isGreatest_runningMaxFrom h

@[simp] theorem length_runningMaxFrom : (runningMaxFrom top l).length = l.length := by
  induction l generalizing top with
  | nil => rfl
  | cons x l ih => exact congrArg Nat.succ ih

@[simp] theorem length_runningMax : (runningMax l).length = l.length := by
  cases l with
  | nil => rfl
  | cons x l => exact congrArg Nat.succ length_runningMaxFrom

theorem zip_runningMax_ne_nil (h : l ≠ []) : l.zip (runningMax l) ≠ [] := by
  cases l with
  | nil => exact absurd rfl h
  | cons x l => exact List.cons_ne_nil _ _

theorem le_of_mem_runningMax {x : K} (hp : p ∈ runningMax (x :: l)) : x ≤ p := by
  obtain ⟨j, hj⟩ := List.getElem?_of_mem hp
  exact (isGreatest_runningMax hj).2 ⟨0, Nat.zero_le j, rfl⟩

end RunningMax

/-! ### The relative changes from an entry to a later one -/

variable {K : Type} [Field K]

def falls (l : List K) : Set K :=
  {q | ∃ (i j : ℕ) (x y : K), i ≤ j ∧ l[i]? = some x ∧ l[j]? = some y ∧ q = y / x - 1}

variable {l : List K} {a m : K}

theorem mem_falls_cons {q : K} :
    q ∈ falls (a :: l) ↔ q = a / a - 1 ∨ (∃ y ∈ l, q = y / a - 1) ∨ q ∈ falls l := by
  constructor
  · rintro ⟨i, j, x, y, hij, hx, hy, rfl⟩
    cases j with
    | zero =>
      cases Nat.le_zero.mp hij
      cases hx
      cases hy
      exact .inl rfl
    | succ j =>
      cases i with
      | zero =>
        cases hx
        exact .inr (.inl ⟨y, List.mem_of_getElem? hy, rfl⟩)
      | succ i => exact .inr (.inr ⟨i, j, x, y, by omega, hx, hy, rfl⟩)
  · rintro (rfl | ⟨y, hy, rfl⟩ | ⟨i, j, x, y, hij, hx, hy, rfl⟩)
    · exact ⟨0, 0, a, a, le_rfl, rfl, rfl, rfl⟩
    · obtain ⟨j, hj⟩ := List.getElem?_of_mem hy
      exact ⟨0, j + 1, a, y, by omega, rfl, hj, rfl⟩
    · exact ⟨i + 1, j + 1, x, y, by omega, hx, hy, rfl⟩

variable [LinearOrder K]

theorem zero_mem_falls (hp : ∀ x ∈ l, 0 < x) (hn : l ≠ []) : 0 ∈ falls l := by
  obtain ⟨a, l, rfl⟩ := List.exists_cons_of_ne_nil hn
  have ha := hp a List.mem_cons_self
  refine ⟨0, 0, a, a, le_rfl, rfl, rfl, ?_⟩
  rw [div_self ha.ne', sub_self]

/-- An entry before the others changes the worst fall unless each fall from it is matched. -/
theorem isLeast_falls_cons_iff (hp : ∀ x ∈ l, 0 < x) (hn : l ≠ []) (ha : 0 < a)
    (hm : IsLeast (falls l) m) :
    IsLeast (falls (a :: l)) m ↔ ∀ y ∈ l, ∃ q ∈ falls l, q ≤ y / a - 1 := by
  constructor
  · intro h y hy
    exact ⟨m, hm.1, h.2 (mem_falls_cons.mpr (.inr (.inl ⟨y, hy, rfl⟩)))⟩
  · intro h
    refine ⟨mem_falls_cons.mpr (.inr (.inr hm.1)), ?_⟩
    intro q hq
    rcases mem_falls_cons.mp hq with rfl | ⟨y, hy, rfl⟩ | hq
    · rw [div_self ha.ne', sub_self]
      exact hm.2 (zero_mem_falls hp hn)
    · obtain ⟨q, hq, hle⟩ := h y hy
      exact (hm.2 hq).trans hle
    · exact hm.2 hq

variable [IsStrictOrderedRing K]

/-- The worst of the changes measured from the running maximum is the worst of all. -/
theorem isLeast_falls (hp : ∀ x ∈ l, 0 < x)
    (hm : ((l.zip (runningMax l)).map (fun p ↦ p.1 / p.2 - 1)).min? = some m) :
    IsLeast (falls l) m := by
  obtain ⟨hmem, hle⟩ := List.min?_eq_some_iff.mp hm
  constructor
  · obtain ⟨p, hpz, rfl⟩ := List.mem_map.mp hmem
    obtain ⟨j, hj⟩ := List.getElem?_of_mem hpz
    obtain ⟨hy, ht⟩ := List.getElem?_zip_eq_some.mp hj
    obtain ⟨i, hij, hx⟩ := (isGreatest_runningMax ht).1
    exact ⟨i, j, p.2, p.1, hij, hx, hy, rfl⟩
  · rintro q ⟨i, j, x, y, hij, hx, hy, rfl⟩
    have hlt : j < (runningMax l).length := by
      rw [length_runningMax]
      exact (List.getElem?_eq_some_iff.mp hy).1
    have ht : (runningMax l)[j]? = some (runningMax l)[j] := List.getElem?_eq_getElem hlt
    have hz : (y, (runningMax l)[j]) ∈ l.zip (runningMax l) :=
      List.mem_of_getElem? (List.getElem?_zip_eq_some.mpr ⟨hy, ht⟩)
    have hxt : x ≤ (runningMax l)[j] := (isGreatest_runningMax ht).2 ⟨i, hij, hx⟩
    have hx0 := hp x (List.mem_of_getElem? hx)
    have hy0 := hp y (List.mem_of_getElem? hy)
    calc m ≤ y / (runningMax l)[j] - 1 := hle _ (List.mem_map_of_mem hz)
      _ ≤ y / x - 1 := sub_le_sub_right (div_le_div_of_nonneg_left hy0.le hx0 hxt) 1

end MarketTrader.Library
