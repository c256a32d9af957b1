import Mathlib.Probability.CDF
import Mathlib.Probability.Distributions.Gaussian.Real

namespace MarketTrader.Library

open MeasureTheory ProbabilityTheory

/-! ### The distribution function of the standard normal law -/

theorem strictMono_cdf_gaussian : StrictMono (cdf (gaussianReal 0 1)) := by
  intro x y hxy
  have hpos : gaussianReal 0 1 (Set.Ioc x y) ≠ 0 := by
    intro h0
    have hvol := gaussianReal_absolutelyContinuous' 0 one_ne_zero h0
    rw [Real.volume_Ioc, ENNReal.ofReal_eq_zero] at hvol
    linarith
  rw [← measure_cdf (gaussianReal 0 1), StieltjesFunction.measure_Ioc, Ne,
    ENNReal.ofReal_eq_zero, not_le] at hpos
  linarith

theorem continuous_cdf_gaussian : Continuous (cdf (gaussianReal 0 1)) := by
  rw [continuous_iff_continuousAt]
  intro x
  have hmono := (cdf (gaussianReal 0 1)).mono
  have hzero : gaussianReal 0 1 {x} = 0 := by
    have hnull : NullSingletonClass (gaussianReal 0 1) :=
      nullSingletonClass_gaussianReal one_ne_zero
    exact measure_singleton x
  rw [← measure_cdf (gaussianReal 0 1), StieltjesFunction.measure_singleton,
    ENNReal.ofReal_eq_zero] at hzero
  rw [hmono.continuousAt_iff_leftLim_eq_rightLim, StieltjesFunction.rightLim_eq]
  exact le_antisymm (hmono.leftLim_le le_rfl) (by linarith)

theorem exists_cdf_gaussian_eq {q : ℝ} (h0 : 0 < q) (h1 : q < 1) :
    ∃ x, cdf (gaussianReal 0 1) x = q := by
  apply mem_range_of_exists_le_of_exists_ge continuous_cdf_gaussian
  · obtain ⟨x, hx⟩ := ((tendsto_cdf_atBot (gaussianReal 0 1)).eventually_lt_const h0).exists
    exact ⟨x, hx.le⟩
  · obtain ⟨x, hx⟩ := ((tendsto_cdf_atTop (gaussianReal 0 1)).eventually_const_lt h1).exists
    exact ⟨x, hx.le⟩

end MarketTrader.Library
