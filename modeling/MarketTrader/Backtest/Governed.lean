import MarketTrader.Backtest.LongShort
import MarketTrader.Backtest.ReplayLookAhead
import MarketTrader.Library.Root

namespace MarketTrader.Backtest

open Library MarketTrader.Core Storage Portfolio Features

/-! ### The volatility of a book -/

/-- `wᵀ Σ w`. -/
def periodVar (w : List ℚ) (cov : List (List ℚ)) : ℚ :=
  ((w.zip cov).map (fun p ↦ p.1 * ((p.2.zip w).map (fun q ↦ q.1 * q.2)).sum)).sum

def annualVol (N : Numerics) (w : Weights) (cov : List (List ℚ)) : ℚ :=
  N.sqrt (max (periodVar (w.toList.map Prod.snd) cov) 0) * N.sqrt 252

/-- The root of a multiple, as every root has it. -/
def RootScales (N : Numerics) : Prop :=
  ∀ c x : ℚ, 0 < c → 0 ≤ x → N.sqrt (c ^ 2 * x) = c * N.sqrt x

def scale (c : ℚ) (w : Weights) : Weights := Dict.mapVals (fun _ v ↦ v * c) w

variable {N : Numerics} {w : Weights} {cov : List (List ℚ)} {c targetVol : ℚ}

theorem periodVar_scale (w : List ℚ) (cov : List (List ℚ)) (c : ℚ) :
    periodVar (w.map (· * c)) cov = c ^ 2 * periodVar w cov := by
  have hrow : ∀ row : List ℚ, ((row.zip (w.map (· * c))).map (fun q ↦ q.1 * q.2)).sum =
      c * ((row.zip w).map (fun q ↦ q.1 * q.2)).sum := by
    intro row
    rw [List.zip_map_right, List.map_map, ← List.sum_map_mul_left]
    congr 1
    apply List.map_congr_left
    rintro ⟨a, b⟩ _
    simp only [Function.comp_apply, Prod.map_apply, id]
    ring
  rw [periodVar, periodVar, List.zip_map_left, List.map_map, ← List.sum_map_mul_left]
  congr 1
  apply List.map_congr_left
  rintro ⟨a, row⟩ _
  simp only [Function.comp_apply, Prod.map_apply, id, hrow]
  ring

theorem values_scale (c : ℚ) (w : Weights) :
    (scale c w).toList.map Prod.snd = (w.toList.map Prod.snd).map (· * c) := by
  rw [scale, Dict.toList_mapVals, List.map_map, List.map_map]
  rfl

/-- A multiple of a book has that multiple of its volatility. -/
theorem annualVol_scale (hroot : RootScales N) (hc : 0 < c) (w : Weights) (cov : List (List ℚ)) :
    annualVol N (scale c w) cov = c * annualVol N w cov := by
  have hmax : max (c ^ 2 * periodVar (w.toList.map Prod.snd) cov) 0 =
      c ^ 2 * max (periodVar (w.toList.map Prod.snd) cov) 0 := by
    rw [mul_max_of_nonneg _ _ (sq_nonneg c), mul_zero]
  rw [annualVol, values_scale, periodVar_scale, hmax, hroot c _ hc (le_max_right _ _), mul_assoc]
  rfl

theorem sqrt_zero (hroot : RootScales N) : N.sqrt 0 = 0 := by
  have h := hroot 2 0 two_pos le_rfl
  rw [mul_zero] at h
  linarith

/-- A book without weight has no volatility. -/
theorem annualVol_of_gross (hroot : RootScales N) (h : grossOf w = 0) :
    annualVol N w cov = 0 := by
  have hzero : ∀ v ∈ w.toList.map Prod.snd, v = 0 := by
    intro v hv
    obtain ⟨a, ha, rfl⟩ := List.mem_map.mp hv
    have hle := List.single_le_sum (l := w.toList.map (|·.2|))
      (fun x hx ↦ by
        obtain ⟨b, -, rfl⟩ := List.mem_map.mp hx
        exact abs_nonneg _) _ (List.mem_map_of_mem ha)
    rw [grossOf] at h
    rw [h] at hle
    exact abs_eq_zero.mp (le_antisymm hle (abs_nonneg _))
  have hvar : periodVar (w.toList.map Prod.snd) cov = 0 := by
    rw [periodVar]
    apply List.sum_eq_zero
    intro x hx
    obtain ⟨p, hp, rfl⟩ := List.mem_map.mp hx
    rw [hzero p.1 (List.of_mem_zip hp).1, zero_mul]
  rw [annualVol, hvar, max_self, sqrt_zero hroot, zero_mul]

theorem grossOf_scale (hc : 0 ≤ c) (w : Weights) : grossOf (scale c w) = c * grossOf w := by
  rw [grossOf, scale, Dict.toList_mapVals, List.map_map, grossOf, ← List.sum_map_mul_left]
  congr 1
  apply List.map_congr_left
  intro a _
  rw [Function.comp_apply, abs_mul, abs_of_nonneg hc, mul_comm]

theorem scale_scale (c d : ℚ) (w : Weights) : scale c (scale d w) = scale (d * c) w := by
  rw [scale, scale, Dict.mapVals_mapVals]
  simp only [mul_assoc]
  rfl

theorem volatilityTargetWeights_of_pos (hv : 0 < annualVol N w cov) (targetVol : ℚ) :
    volatilityTargetWeights N w cov targetVol = scale (targetVol / annualVol N w cov) w :=
  if_neg (not_le.mpr hv)

/-- The target does not depend on the size of the book it starts from. -/
theorem volatilityTargetWeights_scale (hroot : RootScales N) (hc : 0 < c)
    (hv : 0 < annualVol N w cov) (targetVol : ℚ) :
    volatilityTargetWeights N (scale c w) cov targetVol =
      volatilityTargetWeights N w cov targetVol := by
  have hscaled : 0 < annualVol N (scale c w) cov := by
    rw [annualVol_scale hroot hc]
    exact mul_pos hc hv
  rw [volatilityTargetWeights_of_pos hscaled, volatilityTargetWeights_of_pos hv,
    annualVol_scale hroot hc, scale_scale]
  congr 1
  field_simp

/-- Scaled down to a gross cap. -/
def capTo (cap : ℚ) (w : Weights) : Weights :=
  if cap < grossOf w ∧ 0 < grossOf w then scale (cap / grossOf w) w else w

theorem capTo_scale (hw : 0 < grossOf w) (hc : 0 ≤ c) {cap : ℚ} (hcap : 0 ≤ cap) :
    capTo cap (scale c w) = scale (min c (cap / grossOf w)) w := by
  rw [capTo, grossOf_scale hc]
  split
  · next h =>
    have hle : cap / grossOf w ≤ c := (div_le_iff₀ hw).mpr h.1.le
    have hpos : 0 < c := pos_of_mul_pos_left h.2 hw.le
    rw [min_eq_right hle, scale_scale]
    congr 1
    field_simp
  · next h =>
    rw [min_eq_left]
    rw [le_div_iff₀ hw]
    by_contra hlt
    rw [not_le] at hlt
    exact h ⟨hlt, hcap.trans_lt hlt⟩

theorem grossOf_nonneg (w : Weights) : 0 ≤ grossOf w := by
  rw [grossOf_eq_exposureOf]
  exact exposureOf_nonneg _ _

theorem grossOf_pos (hroot : RootScales N) (hv : 0 < annualVol N w cov) : 0 < grossOf w :=
  lt_of_le_of_ne (grossOf_nonneg w) fun h ↦ hv.ne' (annualVol_of_gross hroot h.symm)

/-! ### The governor -/

namespace VolTargetedStrategy

variable (s : VolTargetedStrategy) (N : Numerics) {view : PointInTimeView} {t : Datetime}

/-- The part of the inner book that the covariance knows. -/
def governed (view : PointInTimeView) (t : Datetime) : Weights :=
  part (s.inner.targetWeights view t) (s.window view (s.inner.targetWeights view t))

def covariance (view : PointInTimeView) (t : Datetime) : List (List ℚ) :=
  N.ledoitWolf ((s.window view (s.inner.targetWeights view t)).map Prod.snd)

/-- There is enough history for a covariance. -/
structure Governs (view : PointInTimeView) (t : Datetime) : Prop where
  held : (s.inner.targetWeights view t).toList ≠ []
  columns : 2 ≤ (s.window view (s.inner.targetWeights view t)).length
  rows : 20 ≤ (tailOf s.lookback view.returnsPanel.index).length
  vol : 0 < annualVol N (s.governed view t) (s.covariance N view t)

variable {s N}

theorem targetWeights_of_governs (hg : s.Governs N view t) :
    s.targetWeights N view t = (capTo s.maxGross (volatilityTargetWeights N (s.governed view t)
      (s.covariance N view t) s.targetVol)).filter (fun p ↦ 1 / 10 ^ 9 < |p.2|) := by
  have hcols := hg.columns
  have hrows := hg.rows
  unfold targetWeights
  dsimp only
  rw [if_neg hg.held, if_neg (by omega)]
  rfl

end VolTargetedStrategy

/-- Roots of squares, of their doubles and of 252 times a square, and the covariance of columns that
are not correlated. -/
def tableNumerics : Numerics where
  sqrt := rootFor [(1, 1), (2, 1414213562373095 / 10 ^ 15), (252, 15874507866387544 / 10 ^ 15)]
  exp _ := 1
  ledoitWolf columns := columns.mapIdx fun i column ↦
    (List.range columns.length).map fun j ↦ if i = j then variance column else 0

theorem rootScales_table : RootScales tableNumerics := fun _ x hc _ ↦ rootFor_mul _ hc x

def zigzag (up : ℕ → Bool) : ℕ → ℚ
  | 0 => 100
  | n + 1 => zigzag up n * (if up n then 11 / 10 else 9 / 10)

/-- Two names whose changes are not correlated. -/
def zigzagStore : InMemoryBitemporalStore :=
  .ofList ((List.range 21).flatMap fun n : ℕ ↦
    [closeAt n (zigzag (fun k ↦ k % 2 = 0) n) (2 * n),
      { closeAt n (zigzag (fun k ↦ k % 4 < 2) n) (2 * n + 1) with entityId := "B" }])

def zigzagPanel : PriceFrame :=
  (backtestPanel zigzagStore "d" "close" none).toOption.getD .empty

theorem zigzagPanel_ok : backtestPanel zigzagStore "d" "close" none = .ok zigzagPanel := by
  have hok : (backtestPanel zigzagStore "d" "close" none).isOk = true := by decide +kernel
  unfold zigzagPanel
  cases h : backtestPanel zigzagStore "d" "close" none with
  | error e =>
    rw [h] at hok
    cases hok
  | ok panel => rfl

end MarketTrader.Backtest
