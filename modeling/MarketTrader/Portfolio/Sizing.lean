import MarketTrader.Library.Slice
import MarketTrader.Portfolio.Weighting

namespace MarketTrader.Portfolio

open Library Features Backtest

/-- The numerics of the platform: square roots, exponentials, and the shrunk covariance of columns
of returns. -/
structure Numerics where
  sqrt : ℚ → ℚ
  exp : ℚ → ℚ
  ledoitWolf : List (List ℚ) → List (List ℚ)

/-- Numerics that leave their argument as it is, to evaluate the model with. -/
def Numerics.plain : Numerics := ⟨id, id, id⟩

def volatilityTargetWeights (N : Numerics) (weights : Weights) (cov : List (List ℚ))
    (targetVol : ℚ) : Weights :=
  let w := weights.toList.map Prod.snd
  let periodVar := ((w.zip cov).map (fun p ↦ p.1 * ((p.2.zip w).map (fun q ↦ q.1 * q.2)).sum)).sum
  let annualVol := N.sqrt (max periodVar 0) * N.sqrt 252
  if annualVol ≤ 0 then weights else Dict.mapVals (fun _ v ↦ v * (targetVol / annualVol)) weights

def tiltWeights (N : Numerics) (scores : Option Scores) (names : List String) (tiltStrength : ℚ) :
    Weights :=
  let base := equalWeights names
  match scores with
  | none => base
  | some scores =>
    if tiltStrength ≤ 0 then base
    else
      let filled := (reindex scores names).map (fun p ↦ (p.1, some (p.2.getD 0)))
      let raw := (crossSectionalZscore N.sqrt filled).map
        (fun p ↦ (p.1, N.exp (tiltStrength * clip (-3) 3 (p.2.getD 0))))
      let total := (raw.map Prod.snd).sum
      if 0 < total then .ofList (raw.map (fun p ↦ (p.1, p.2 / total))) else base

def cleanColumns (returns : PriceFrame) (lookback : ℤ) : List (String × List ℚ) :=
  returns.columns.toList.filterMap (fun c ↦
    let col := tailOf lookback c.2
    if col.all Option.isSome then some (c.1, col.reduceOption) else none)

theorem mem_names_of_clean {returns : PriceFrame} {lookback : ℤ} {c : String × List ℚ}
    (h : c ∈ cleanColumns returns lookback) : c.1 ∈ returns.names := by
  obtain ⟨a, ha, hc⟩ := List.mem_filterMap.mp h
  dsimp only at hc
  split at hc
  · cases hc
    exact List.mem_map_of_mem ha
  · cases hc

/-- Turns the universe of a return panel, and scores, into a risk-managed book. -/
def sizeBook (N : Numerics) (returns : PriceFrame) (targetVol : ℚ) (limits : RiskLimits)
    (scores : Option Scores) (tiltStrength : ℚ) (lookback : ℤ := 90)
    (sectors : Option (Dict String String) := none) (regimeDerisk : ℚ := 1) : Weights :=
  let names := returns.names
  if names = [] then .empty
  else
    let raw := tiltWeights N scores names tiltStrength
    let budget := targetVol * max 0 regimeDerisk
    let clean := cleanColumns returns lookback
    let sized :=
      if 2 ≤ clean.length ∧ 20 ≤ (tailOf lookback returns.index).length then
        let w : Weights := .ofList (clean.map (fun c ↦ (c.1, Dict.getD raw c.1 0)))
        let gross := netOf w
        let w := if 0 < gross then Dict.mapVals (fun _ v ↦ v / gross) w else w
        volatilityTargetWeights N w (N.ledoitWolf (clean.map Prod.snd)) budget
      else Dict.mapVals (fun _ v ↦ v * max 0 regimeDerisk) raw
    applyRiskLimits (sized.filter (fun p ↦ 1 / 10 ^ 9 < |p.2|)) limits sectors

end MarketTrader.Portfolio
