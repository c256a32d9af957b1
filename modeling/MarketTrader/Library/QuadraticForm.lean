import Mathlib.Data.Matrix.Mul
import Mathlib.LinearAlgebra.Matrix.Symmetric
import Mathlib.Algebra.Order.Field.Basic
import Mathlib.Tactic.FieldSimp
import Mathlib.Tactic.Linarith
import Mathlib.Tactic.Ring

namespace MarketTrader.Library

open Matrix

variable {ι K : Type} [Fintype ι] [Field K]

def quadForm (S : Matrix ι ι K) (w : ι → K) : K := w ⬝ᵥ S *ᵥ w

theorem quadForm_add {S : Matrix ι ι K} (hs : S.IsSymm) (w d : ι → K) :
    quadForm S (w + d) = quadForm S w + 2 * (d ⬝ᵥ S *ᵥ w) + quadForm S d := by
  have hswap : w ⬝ᵥ S *ᵥ d = d ⬝ᵥ S *ᵥ w := by
    rw [dotProduct_mulVec, ← mulVec_transpose, hs.eq, dotProduct_comm]
  simp only [quadForm, mulVec_add, dotProduct_add, add_dotProduct, hswap]
  ring

variable [LinearOrder K]

/-- A symmetric form that is positive but at zero. -/
structure PositiveForm (S : Matrix ι ι K) : Prop where
  symm : S.IsSymm
  pos : ∀ w, w ≠ 0 → 0 < quadForm S w

variable {S : Matrix ι ι K} {w u e : ι → K} {c : K}

theorem PositiveForm.nonneg (h : PositiveForm S) (w : ι → K) : 0 ≤ quadForm S w := by
  by_cases hw : w = 0
  · simp [quadForm, hw]
  · exact (h.pos w hw).le

variable [IsStrictOrderedRing K]

/-- Where the gradient is along the normal of a plane, the form is least on it. -/
theorem PositiveForm.least (h : PositiveForm S) (hw : S *ᵥ w = c • e) (hu : e ⬝ᵥ u = e ⬝ᵥ w) :
    quadForm S w ≤ quadForm S u ∧ (quadForm S u = quadForm S w → u = w) := by
  have hflat : (u - w) ⬝ᵥ S *ᵥ w = 0 := by
    rw [hw, dotProduct_smul, dotProduct_comm, dotProduct_sub, hu, sub_self, smul_zero]
  have hform : quadForm S u = quadForm S w + quadForm S (u - w) := by
    have hadd := quadForm_add h.symm w (u - w)
    rw [add_sub_cancel, hflat, mul_zero, add_zero] at hadd
    exact hadd
  constructor
  · rw [hform]
    exact le_add_of_nonneg_right (h.nonneg _)
  · intro heq
    by_contra hne
    have hpos := h.pos (u - w) (sub_ne_zero.mpr hne)
    rw [hform] at heq
    linarith

/-- Where the gradient is a multiple of the return, no other point gains more return less risk. -/
theorem PositiveForm.greatest_gain (h : PositiveForm S) (hc : 0 < c) (hw : S *ᵥ w = c • e)
    (u : ι → K) :
    e ⬝ᵥ u - quadForm S u / (2 * c) ≤ e ⬝ᵥ w - quadForm S w / (2 * c) ∧
      (e ⬝ᵥ u - quadForm S u / (2 * c) = e ⬝ᵥ w - quadForm S w / (2 * c) → u = w) := by
  have hgain : e ⬝ᵥ u - quadForm S u / (2 * c) =
      e ⬝ᵥ w - quadForm S w / (2 * c) - quadForm S (u - w) / (2 * c) := by
    have hadd := quadForm_add h.symm w (u - w)
    rw [add_sub_cancel, hw, dotProduct_smul, dotProduct_comm, dotProduct_sub, smul_eq_mul] at hadd
    rw [hadd]
    field_simp
    ring
  have htwo : (0 : K) < 2 * c := by linarith
  constructor
  · rw [hgain]
    exact sub_le_self _ (div_nonneg (h.nonneg _) htwo.le)
  · intro heq
    by_contra hne
    have hpos := div_pos (h.pos (u - w) (sub_ne_zero.mpr hne)) htwo
    rw [hgain] at heq
    linarith

end MarketTrader.Library
