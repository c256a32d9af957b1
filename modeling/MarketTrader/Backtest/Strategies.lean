import MarketTrader.Backtest.LookAhead
import MarketTrader.Backtest.Metrics
import MarketTrader.Features.Technical
import MarketTrader.Library.Rounding
import MarketTrader.Portfolio.Sizing

namespace MarketTrader.Backtest

open Library MarketTrader.Core Portfolio Features

/-- A cross-section with one score a symbol, missing or not. -/
abbrev Signal := Dict String (Option ℚ)

/-- Signals that were computed beforehand, an instant a signal. -/
abbrev SignalMap := Dict Datetime Signal

/-- Z-scores across the symbols. A flat input maps to zeros, the missing ones with it. -/
def zscore (sqrt : ℚ → ℚ) (s : Scores) : Scores :=
  let xs := (s.map Prod.snd).reduceOption
  match (std sqrt (s.map Prod.snd)).filter (· ≠ 0) with
  | none => s.map (fun p ↦ (p.1, some 0))
  | some sd => s.map (fun p ↦ (p.1, p.2.map (fun x ↦ (x - xs.sum / xs.length) / sd)))

def dropna (s : Scores) : List (String × ℚ) :=
  s.filterMap (fun p ↦ p.2.map (fun q ↦ (p.1, q)))

def ascending (s : List (String × ℚ)) : List (String × ℚ) := sortBy Prod.snd s

def descending (s : List (String × ℚ)) : List (String × ℚ) :=
  sortBy (fun p : String × ℚ ↦ OrderDual.toDual p.2) s

/-- The scores of the tradable names that have one. -/
def tradableScores (score : Signal) (view : PointInTimeView) : List (String × ℚ) :=
  (dropna score.toList).filter (·.1 ∈ view.universeNames)

/-! ### Price strategies -/

structure MomentumStrategy where
  lookback : ℕ := 20
  topFraction : ℚ := 1 / 2
  name : String := "momentum"

namespace MomentumStrategy

/-- The change over the window of one name. -/
def change (m : MomentumStrategy) (col : Column ℚ) : Option ℚ := do
  let window := (Column.ffill col).drop (col.length - (m.lookback + 1))
  pctChange (← window.head?.join) (← window.getLast?.join)

def targetWeights (m : MomentumStrategy) (view : PointInTimeView) (asOf : Datetime) : Weights :=
  let panel := view.pricePanel
  if panel.isEmpty ∨ panel.index.length ≤ m.lookback then
    equalWeightStrategy.targetWeights view asOf
  else
    let momentum := dropna (panel.columns.toList.map (fun c ↦ (c.1, m.change c.2)))
    if momentum = [] then .empty
    else
      let k := max 1 (truncate (momentum.length * m.topFraction))
      equalWeights ((iloc (descending momentum) 0 k).map Prod.fst)

def strategy (m : MomentumStrategy) : Strategy := ⟨m.name, m.targetWeights⟩

end MomentumStrategy

/-- The price composite of momentum, mean reversion and volatility. A signal that is given blends
in as a fourth part. -/
structure CompositeBacktestStrategy where
  momentumLookback : ℕ := 60
  meanrevLookback : ℕ := 5
  volWindow : ℕ := 20
  maxPositions : ℤ := 20
  topQuantile : ℚ := 3 / 10
  insiderScores : Option SignalMap := none
  name : String := "composite"

namespace CompositeBacktestStrategy

/-- The three parts of one name, if it has them all. -/
def parts (P : Powers ℚ) (s : CompositeBacktestStrategy) (col : Column ℚ) : Option (List ℚ) := do
  let filled := Column.ffill col
  let mom ← changeOf (-1) (-(s.momentumLookback + 1)) col
  let back ← changeOf (-1) (-(s.meanrevLookback + 1)) col
  let rets := Column.diff pctChange filled
  let vol ← sampleStd P (iloc rets (-s.volWindow) rets.length).reduceOption
  return [mom, -back, vol]

def features (P : Powers ℚ) (s : CompositeBacktestStrategy) (panel : PriceFrame) :
    List (String × List ℚ) :=
  panel.columns.toList.filterMap (fun c ↦ (s.parts P c.2).map (fun parts ↦ (c.1, parts)))

def part (feat : List (String × List ℚ)) (i : ℕ) : Scores := feat.map (fun p ↦ (p.1, p.2[i]?))

/-- The z-scores of the parts, and those of the signal where there is one for the instant. -/
def zscores (P : Powers ℚ) (s : CompositeBacktestStrategy) (feat : List (String × List ℚ))
    (asOf : Datetime) : List Scores :=
  let prices := [part feat 0, part feat 1, part feat 2].map (zscore P.sqrt)
  match s.insiderScores.bind (Dict.get? · asOf) with
  | none => prices
  | some scores =>
    let filled := (reindex scores.toList (feat.map Prod.fst)).map
      (fun p ↦ (p.1, some (p.2.getD 0)))
    prices ++ [zscore P.sqrt filled]

/-- The mean of the parts of each name. -/
def composite (P : Powers ℚ) (s : CompositeBacktestStrategy) (feat : List (String × List ℚ))
    (asOf : Datetime) : List (String × ℚ) :=
  let z := s.zscores P feat asOf
  feat.map (fun p ↦ (p.1, (z.map (fun column ↦
    ((column.find? (·.1 = p.1)).bind Prod.snd).getD 0)).sum / z.length))

/-- Shares by the inverse of the volatility, the mean one where it is not positive. -/
def inverseVol (feat : List (String × List ℚ)) (winners : List String) : Option Weights :=
  let inv := winners.map (fun s ↦
    (s, (((feat.find? (·.1 = s)).bind (fun p ↦ p.2[2]?)).filter (0 < ·)).map (fun v : ℚ ↦ 1 / v)))
  let known := (inv.map Prod.snd).reduceOption
  if known = [] then none
  else
    let filled := inv.map (fun p ↦ (p.1, p.2.getD (known.sum / known.length)))
    let total := (filled.map Prod.snd).sum
    if 0 < total then some (.ofList (filled.map (fun p ↦ (p.1, p.2 / total)))) else none

def targetWeights (P : Powers ℚ) (s : CompositeBacktestStrategy) (view : PointInTimeView)
    (asOf : Datetime) : Weights :=
  let panel := view.pricePanel
  if panel.index.length ≤ s.momentumLookback + 1 then equalWeightStrategy.targetWeights view asOf
  else
    let feat := s.features P panel
    if feat = [] then .empty
    else
      let composite := s.composite P feat asOf
      let k := max 1 (min s.maxPositions (truncate (composite.length * s.topQuantile)))
      let winners := (iloc (descending composite) 0 k).map Prod.fst
      (inverseVol feat winners).getD (equalWeights winners)

def strategy (P : Powers ℚ) (s : CompositeBacktestStrategy) : Strategy :=
  ⟨s.name, s.targetWeights P⟩

end CompositeBacktestStrategy

/-! ### Signal strategies -/

/-- Long the strongest net buying, short the strongest net selling, evenly within each leg. -/
structure LongShortInsiderStrategy where
  insiderScores : SignalMap
  maxPositionsPerSide : ℤ := 10
  gross : ℚ := 1
  name : String := "ls_insider"

namespace LongShortInsiderStrategy

def ranked (scores : Signal) (view : PointInTimeView) : List (String × ℚ) :=
  ascending ((tradableScores scores view).filter (·.2 ≠ 0))

def targetWeights (s : LongShortInsiderStrategy) (view : PointInTimeView) (asOf : Datetime) :
    Weights :=
  match Dict.get? s.insiderScores asOf with
  | none => .empty
  | some scores =>
    let ranked := ranked scores view
    let k := min s.maxPositionsPerSide (ranked.length / 2 : ℕ)
    if k < 1 then .empty
    else
      let per := s.gross / (2 * k)
      let shorts : Weights := .ofList ((iloc ranked 0 k).map (fun p ↦ (p.1, -per)))
      shorts.insertAll ((tailOf k ranked).map (fun p ↦ (p.1, per)))

def strategy (s : LongShortInsiderStrategy) : Strategy := ⟨s.name, s.targetWeights⟩

end LongShortInsiderStrategy

/-- Long only, the strongest of those whose score passes. -/
def topEvenly (passes : ℚ → Bool) (maxPositions : ℤ) (scores : SignalMap) (view : PointInTimeView)
    (asOf : Datetime) : Weights :=
  match Dict.get? scores asOf with
  | none => .empty
  | some score =>
    let ranked := (tradableScores score view).filter (fun p ↦ passes p.2)
    if ranked = [] then .empty
    else equalWeights ((iloc (descending ranked) 0 maxPositions).map Prod.fst)

/-- Only net buyers enter: selling is noise. -/
structure InsiderLongStrategy where
  insiderScores : SignalMap
  maxPositions : ℤ := 30
  name : String := "insider_long"

def InsiderLongStrategy.strategy (s : InsiderLongStrategy) : Strategy :=
  ⟨s.name, topEvenly (0 < ·) s.maxPositions s.insiderScores⟩

/-- Ranked by a combined score. -/
structure StackedSignalStrategy where
  scores : SignalMap
  maxPositions : ℤ := 30
  name : String := "stacked"

def StackedSignalStrategy.strategy (s : StackedSignalStrategy) : Strategy :=
  ⟨s.name, topEvenly (fun _ ↦ true) s.maxPositions s.scores⟩

/-- Holds the whole tradable universe, tilted by a score. -/
structure ScoreTiltStrategy where
  scores : SignalMap
  tiltStrength : ℚ := 1
  name : String := "tilt"

namespace ScoreTiltStrategy

def tilted (N : Numerics) (tiltStrength : ℚ) (score : Signal) (tradable : List String) :
    List (String × ℚ) :=
  let filled := (reindex score.toList tradable).map (fun p ↦ (p.1, some (p.2.getD 0)))
  (zscore N.sqrt filled).map (fun p ↦ (p.1, N.exp (tiltStrength * clip (-3) 3 (p.2.getD 0))))

def targetWeights (N : Numerics) (s : ScoreTiltStrategy) (view : PointInTimeView)
    (asOf : Datetime) : Weights :=
  let tradable := view.universeNames
  match Dict.get? s.scores asOf with
  | none => equalWeights tradable
  | some score =>
    let tilt := tilted N s.tiltStrength score tradable
    let total := (tilt.map Prod.snd).sum
    if 0 < total then .ofList (tilt.map (fun p ↦ (p.1, p.2 / total))) else equalWeights tradable

def strategy (N : Numerics) (s : ScoreTiltStrategy) : Strategy := ⟨s.name, s.targetWeights N⟩

end ScoreTiltStrategy

/-! ### Governed strategies -/

/-- Scales the book of any strategy to a volatility, up to a gross cap. -/
structure VolTargetedStrategy where
  inner : Strategy
  targetVol : ℚ := 1 / 10
  maxGross : ℚ := 1
  lookback : ℤ := 90
  name : String := inner.name ++ "@" ++ toString (roundHalfEven (targetVol * 100)) ++ "%vol"

namespace VolTargetedStrategy

/-- The columns without a gap of the names that the book holds. -/
def window (s : VolTargetedStrategy) (view : PointInTimeView) (weights : Weights) :
    List (String × List ℚ) :=
  cleanColumns (view.returnsPanel.pick (weights.keys.filter (· ∈ view.returnsPanel.names)))
    s.lookback

/-- What of a book the covariance knows. -/
def part (weights : Weights) (window : List (String × List ℚ)) : Weights :=
  .ofList (window.map (fun c ↦ (c.1, Dict.getD weights c.1 0)))

def targetWeights (N : Numerics) (s : VolTargetedStrategy) (view : PointInTimeView)
    (asOf : Datetime) : Weights :=
  let weights := s.inner.targetWeights view asOf
  if weights.toList = [] then weights
  else
    let window := s.window view weights
    if window.length < 2 ∨ (tailOf s.lookback view.returnsPanel.index).length < 20 then weights
    else
      let scaled := volatilityTargetWeights N (part weights window)
        (N.ledoitWolf (window.map Prod.snd)) s.targetVol
      let gross := grossOf scaled
      let scaled :=
        if s.maxGross < gross ∧ 0 < gross then
          Dict.mapVals (fun _ v ↦ v * (s.maxGross / gross)) scaled
        else scaled
      scaled.filter (fun p ↦ 1 / 10 ^ 9 < |p.2|)

def strategy (N : Numerics) (s : VolTargetedStrategy) : Strategy := ⟨s.name, s.targetWeights N⟩

end VolTargetedStrategy

/-- Sizes the tradable universe with the sizer of the live cycle. -/
structure SizedBookStrategy where
  targetVol : ℚ
  limits : RiskLimits
  scores : Option SignalMap := none
  tiltStrength : ℚ := 0
  lookback : ℤ := 90
  name : String := "sized"

namespace SizedBookStrategy

def targetWeights (N : Numerics) (s : SizedBookStrategy) (view : PointInTimeView)
    (asOf : Datetime) : Weights :=
  let returns := view.returnsPanel
  let tradable := view.universeNames.filter (· ∈ returns.names)
  if returns.isEmpty ∨ tradable = [] then .empty
  else
    sizeBook N (returns.pick tradable) s.targetVol s.limits
      ((s.scores.bind (Dict.get? · asOf)).map Keyed.toList) s.tiltStrength s.lookback

def strategy (N : Numerics) (s : SizedBookStrategy) : Strategy := ⟨s.name, s.targetWeights N⟩

end SizedBookStrategy

/-- Passes the targets of a strategy through the risk limits. -/
structure RiskManagedStrategy where
  base : Strategy
  limits : RiskLimits
  sectors : Option (Dict String String) := none
  name : String := "risk_managed"

def RiskManagedStrategy.strategy (s : RiskManagedStrategy) : Strategy :=
  ⟨s.name, fun view asOf ↦ applyRiskLimits (s.base.targetWeights view asOf) s.limits s.sectors⟩

end MarketTrader.Backtest
