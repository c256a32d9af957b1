import Mathlib.Algebra.BigOperators.Ring.List
import Mathlib.Algebra.Order.BigOperators.Group.List
import Mathlib.Algebra.Order.Field.Basic
import Mathlib.Tactic.Linarith
import Mathlib.Tactic.Ring

namespace MarketTrader.Library

variable {α K : Type} [Field K] [LinearOrder K] [IsStrictOrderedRing K]

/-- The mean of the values, each counted as often as its weight says. -/
def weightedMean (x w : α → K) (l : List α) : K :=
  (l.map fun a ↦ x a * w a).sum / (l.map w).sum

variable {x w : α → K} {l l' : List α} {b : K}

theorem sum_weights_pos (hl : l ≠ []) (hw : ∀ a ∈ l, 0 < w a) : 0 < (l.map w).sum := by
  apply List.sum_pos
  · intro y hy
    obtain ⟨a, ha, rfl⟩ := List.mem_map.mp hy
    exact hw a ha
  · simpa using hl

theorem weightedMean_le (hl : l ≠ []) (hw : ∀ a ∈ l, 0 < w a) (h : ∀ a ∈ l, x a ≤ b) :
    weightedMean x w l ≤ b := by
  rw [weightedMean, div_le_iff₀ (sum_weights_pos hl hw), ← List.sum_map_mul_left]
  exact List.sum_le_sum fun a ha ↦ mul_le_mul_of_nonneg_right (h a ha) (hw a ha).le

theorem le_weightedMean (hl : l ≠ []) (hw : ∀ a ∈ l, 0 < w a) (h : ∀ a ∈ l, b ≤ x a) :
    b ≤ weightedMean x w l := by
  rw [weightedMean, le_div_iff₀ (sum_weights_pos hl hw), ← List.sum_map_mul_left]
  exact List.sum_le_sum fun a ha ↦ mul_le_mul_of_nonneg_right (h a ha) (hw a ha).le

/-- Some value is at most the mean. -/
theorem exists_le_weightedMean (hl : l ≠ []) (hw : ∀ a ∈ l, 0 < w a) :
    ∃ a ∈ l, x a ≤ weightedMean x w l := by
  by_contra hnone
  push Not at hnone
  have hlt : (l.map fun a ↦ weightedMean x w l * w a).sum < (l.map fun a ↦ x a * w a).sum :=
    List.sum_lt_sum_of_ne_nil hl _ _ fun a ha ↦ mul_lt_mul_of_pos_right (hnone a ha) (hw a ha)
  rw [List.sum_map_mul_left, weightedMean, div_mul_cancel₀ _ (sum_weights_pos hl hw).ne'] at hlt
  exact lt_irrefl _ hlt

theorem exists_weightedMean_le (hl : l ≠ []) (hw : ∀ a ∈ l, 0 < w a) :
    ∃ a ∈ l, weightedMean x w l ≤ x a := by
  by_contra hnone
  push Not at hnone
  have hlt : (l.map fun a ↦ x a * w a).sum < (l.map fun a ↦ weightedMean x w l * w a).sum :=
    List.sum_lt_sum_of_ne_nil hl _ _ fun a ha ↦ mul_lt_mul_of_pos_right (hnone a ha) (hw a ha)
  rw [List.sum_map_mul_left, weightedMean, div_mul_cancel₀ _ (sum_weights_pos hl hw).ne'] at hlt
  exact lt_irrefl _ hlt

omit [LinearOrder K] [IsStrictOrderedRing K] in
theorem weightedMean_perm (h : l.Perm l') : weightedMean x w l = weightedMean x w l' := by
  rw [weightedMean, weightedMean, (h.map _).sum_eq, (h.map _).sum_eq]

end MarketTrader.Library
