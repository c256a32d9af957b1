import Mathlib.Data.Rat.Sqrt
import Mathlib.Tactic.FieldSimp
import Mathlib.Tactic.Linarith
import Mathlib.Tactic.Ring

namespace MarketTrader.Library

/-- The square root of a rational number that is a square times one of some representatives, each
of which is given with its own root. -/
def rootFor (reps : List (ℚ × ℚ)) (x : ℚ) : ℚ :=
  match reps.find? (fun r ↦ Rat.sqrt (x / r.1) * Rat.sqrt (x / r.1) = x / r.1) with
  | none => 0
  | some r => r.2 * Rat.sqrt (x / r.1)

variable {c x : ℚ}

theorem square_iff (hc : 0 < c) :
    Rat.sqrt (c ^ 2 * x) * Rat.sqrt (c ^ 2 * x) = c ^ 2 * x ↔ Rat.sqrt x * Rat.sqrt x = x := by
  rw [← Rat.exists_mul_self, ← Rat.exists_mul_self]
  constructor
  · rintro ⟨q, hq⟩
    refine ⟨q / c, ?_⟩
    field_simp
    linarith
  · rintro ⟨q, rfl⟩
    exact ⟨c * q, by ring⟩

theorem sqrt_mul_of_square (hc : 0 < c) (hx : Rat.sqrt x * Rat.sqrt x = x) :
    Rat.sqrt (c ^ 2 * x) = c * Rat.sqrt x := by
  have hsq : c ^ 2 * x = (c * Rat.sqrt x) * (c * Rat.sqrt x) := by
    conv_lhs => rw [← hx]
    ring
  rw [hsq, Rat.sqrt_eq, abs_of_nonneg (mul_nonneg hc.le (Rat.sqrt_nonneg x))]

/-- The root of a multiple by a square. -/
theorem rootFor_mul (reps : List (ℚ × ℚ)) (hc : 0 < c) (x : ℚ) :
    rootFor reps (c ^ 2 * x) = c * rootFor reps x := by
  unfold rootFor
  simp only [mul_div_assoc, square_iff hc]
  cases h : reps.find? (fun r ↦ Rat.sqrt (x / r.1) * Rat.sqrt (x / r.1) = x / r.1) with
  | none => exact (mul_zero c).symm
  | some r =>
    have hsq : Rat.sqrt (x / r.1) * Rat.sqrt (x / r.1) = x / r.1 := by
      simpa using List.find?_some h
    simp only [sqrt_mul_of_square hc hsq]
    ring

end MarketTrader.Library
