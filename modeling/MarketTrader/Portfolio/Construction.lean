import MarketTrader.Library.QuadraticForm
import Mathlib.LinearAlgebra.Matrix.Notation

namespace MarketTrader.Portfolio

open Library Matrix

/-- A covariance frame, of which rows and columns have one index. -/
structure CovFrame where
  index : List String
  values : Matrix (Fin index.length) (Fin index.length) ℚ

/-- The pseudo-inverse of a matrix. -/
abbrev PseudoInverse := ∀ n : ℕ, Matrix (Fin n) (Fin n) ℚ → Matrix (Fin n) (Fin n) ℚ

namespace CovFrame

variable (pinv : PseudoInverse) (cov : CovFrame)

/-- A series on the index of the frame, zero where it has no value. -/
def align (s : List (String × ℚ)) (i : Fin cov.index.length) : ℚ :=
  ((s.find? (·.1 = cov.index.get i)).map Prod.snd).getD 0

def fractionalKellyWeights (expectedReturns : List (String × ℚ)) (fraction : ℚ := 1 / 4) :
    Fin cov.index.length → ℚ :=
  fraction • (pinv _ cov.values *ᵥ cov.align expectedReturns)

/-- Long and short weights that sum to one. -/
def minVarianceWeights : Fin cov.index.length → ℚ :=
  let raw := pinv _ cov.values *ᵥ 1
  fun i ↦ raw i / ∑ j, raw j

/-- The variance of a book. -/
def variance (w : Fin cov.index.length → ℚ) : ℚ := quadForm cov.values w

variable {pinv cov}

/-- The minimum-variance book is fully invested, and every other one has more variance. -/
theorem min_variance_least (pinv : PseudoInverse) (cov : CovFrame) (hne : cov.index ≠ [])
    (hcov : PositiveForm cov.values) (hinv : cov.values * pinv _ cov.values = 1) :
    ∑ i, cov.minVarianceWeights pinv i = 1 ∧
      ∀ u : Fin cov.index.length → ℚ, ∑ i, u i = 1 →
        cov.variance (cov.minVarianceWeights pinv) ≤ cov.variance u ∧
          (cov.variance u = cov.variance (cov.minVarianceWeights pinv) →
            u = cov.minVarianceWeights pinv) := by
  let raw := pinv _ cov.values *ᵥ 1
  have hraw : cov.values *ᵥ raw = 1 := by rw [mulVec_mulVec, hinv, one_mulVec]
  have hnonzero : raw ≠ 0 := by
    intro h
    rw [h, mulVec_zero] at hraw
    have hone := congrFun hraw ⟨0, List.length_pos_of_ne_nil hne⟩
    exact zero_ne_one hone
  have htotal : 0 < ∑ j, raw j := by
    have hpos := hcov.pos raw hnonzero
    rwa [quadForm, hraw, dotProduct_one] at hpos
  have hweights : cov.minVarianceWeights pinv = (∑ j, raw j)⁻¹ • raw := by
    funext i
    rw [Pi.smul_apply, smul_eq_mul, inv_mul_eq_div]
    rfl
  have hsum : ∑ i, cov.minVarianceWeights pinv i = 1 := by
    rw [hweights]
    simp only [Pi.smul_apply, smul_eq_mul, ← Finset.mul_sum]
    exact inv_mul_cancel₀ htotal.ne'
  have hgrad : cov.values *ᵥ cov.minVarianceWeights pinv = (∑ j, raw j)⁻¹ • 1 := by
    rw [hweights, mulVec_smul, hraw]
  refine ⟨hsum, fun u hu ↦ hcov.least hgrad ?_⟩
  rw [one_dotProduct, one_dotProduct, hu, hsum]

/-- The fractional Kelly book has the greatest expected return less its variance over twice the
fraction. Of the books that expect as much, it has the least variance. -/
theorem fractional_kelly_greatest (pinv : PseudoInverse) (cov : CovFrame)
    (hcov : PositiveForm cov.values) (hinv : cov.values * pinv _ cov.values = 1)
    (expectedReturns : List (String × ℚ)) (fraction : ℚ) (hf : 0 < fraction) :
    let mu := cov.align expectedReturns
    let w := cov.fractionalKellyWeights pinv expectedReturns fraction
    (∀ u, mu ⬝ᵥ u - cov.variance u / (2 * fraction) ≤ mu ⬝ᵥ w - cov.variance w / (2 * fraction) ∧
      (mu ⬝ᵥ u - cov.variance u / (2 * fraction) = mu ⬝ᵥ w - cov.variance w / (2 * fraction) →
        u = w)) ∧
      ∀ u, mu ⬝ᵥ u = mu ⬝ᵥ w → cov.variance w ≤ cov.variance u := by
  intro mu w
  have hgrad : cov.values *ᵥ w = fraction • mu := by
    rw [show w = fraction • (pinv _ cov.values *ᵥ mu) from rfl, mulVec_smul, mulVec_mulVec, hinv,
      one_mulVec]
  exact ⟨hcov.greatest_gain hf hgrad, fun u hu ↦ (hcov.least hgrad hu).1⟩

/-- The inverse of a two-by-two matrix, which is regular. -/
def inverseOfTwo : PseudoInverse
  | 2, S => (S 0 0 * S 1 1 - S 0 1 * S 1 0)⁻¹ • !![S 1 1, -S 0 1; -S 1 0, S 0 0]
  | _, S => S

def twoNames : CovFrame := ⟨["A", "B"], !![2, 1; 1, 2]⟩

theorem positiveForm_two : PositiveForm (!![2, 1; 1, 2] : Matrix (Fin 2) (Fin 2) ℚ) where
  symm := by decide +kernel
  pos w hw := by
    have hform : quadForm !![2, 1; 1, 2] w = w 0 ^ 2 + w 1 ^ 2 + (w 0 + w 1) ^ 2 := by
      simp [quadForm, dotProduct, mulVec, Fin.sum_univ_two]
      ring
    have hsome : w 0 ≠ 0 ∨ w 1 ≠ 0 := by
      by_contra hnone
      push Not at hnone
      exact hw (funext (Fin.forall_fin_two.mpr hnone))
    rw [hform]
    rcases hsome with h | h
    · linarith [sq_pos_of_ne_zero h, sq_nonneg (w 1), sq_nonneg (w 0 + w 1)]
    · linarith [sq_pos_of_ne_zero h, sq_nonneg (w 0), sq_nonneg (w 0 + w 1)]

theorem positiveForm_twoNames : PositiveForm twoNames.values := positiveForm_two

theorem inverse_twoNames : twoNames.values * inverseOfTwo _ twoNames.values = 1 := by
  decide +kernel

theorem min_variance_least_two : ∑ i, twoNames.minVarianceWeights inverseOfTwo i = 1 :=
  (min_variance_least inverseOfTwo twoNames (by decide) positiveForm_twoNames inverse_twoNames).1

theorem fractional_kelly_greatest_two :
    0 ≤ twoNames.align [("A", 1)] ⬝ᵥ twoNames.fractionalKellyWeights inverseOfTwo [("A", 1)] -
      twoNames.variance (twoNames.fractionalKellyWeights inverseOfTwo [("A", 1)]) /
        (2 * (1 / 4)) := by
  have h := ((fractional_kelly_greatest inverseOfTwo twoNames positiveForm_twoNames
    inverse_twoNames [("A", 1)] (1 / 4) (by norm_num)).1 0).1
  simpa [variance, quadForm] using h

end CovFrame

end MarketTrader.Portfolio
