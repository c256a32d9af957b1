import MarketTrader.Feedback.PredictionLog
import MarketTrader.Portfolio.Sizing
import MarketTrader.Runtime.Sleeve

namespace MarketTrader.Runtime

open Library MarketTrader.Core Storage InMemoryBitemporalStore Feedback Backtest Features Portfolio

inductive LearningError
  | price (e : PriceError)
  | prediction (e : PredictionError)
deriving DecidableEq

/-- The realised return of each symbol over the bars strictly after `t`, once all of them are
there. -/
def forwardReturnsAt (panel : PriceFrame) (t : Datetime) (horizon : ℤ) : List (String × ℚ) :=
  let rets := panel.diff pctChange
  let pos : ℤ := (rets.index.filter (· ≤ t)).length
  if ((iloc rets.index pos (pos + horizon)).length : ℤ) < horizon then []
  else rets.columns.toList.map
    (fun c ↦ (c.1, ((iloc c.2 pos (pos + horizon)).map (fun r ↦ 1 + r.getD 0)).prod - 1))

def byTime (preds : List PredictionRecord) : Dict Datetime (List PredictionRecord) :=
  preds.foldl (fun d p ↦ Dict.set d p.asOf (Dict.getD d p.asOf [] ++ [p])) .empty

def gradedPairs (panel : PriceFrame) (horizon : ℤ) (preds : List PredictionRecord) :
    List (PredictionRecord × ℚ) :=
  (byTime preds).toList.flatMap (fun g ↦
    let forward := if panel.isEmpty then [] else forwardReturnsAt panel g.1 horizon
    g.2.filterMap (fun p ↦ (forward.find? (·.1 = p.symbol)).map (fun r ↦ (p, r.2))))

/-- The correlation of what both sides have, where neither is constant. -/
def correlation (sqrt : ℚ → ℚ) (pairs : List (ℚ × ℚ)) : Option ℚ :=
  let mx := (pairs.map Prod.fst).sum / pairs.length
  let my := (pairs.map Prod.snd).sum / pairs.length
  let sxy := (pairs.map (fun p ↦ (p.1 - mx) * (p.2 - my))).sum
  let sxx := (pairs.map (fun p ↦ (p.1 - mx) ^ 2)).sum
  let syy := (pairs.map (fun p ↦ (p.2 - my) ^ 2)).sum
  if sxx * syy = 0 then none else some (sxy / sqrt (sxx * syy))

/-- The correlation of each signal with the outcome. A constant signal has none. -/
def informationCoefficients (sqrt : ℚ → ℚ) (graded : List (PredictionRecord × ℚ)) : Weights :=
  let names := (graded.flatMap (fun g ↦ g.1.features.map Prod.fst)).reverse.dedup.reverse
  .ofList (names.filterMap (fun name ↦
    let pairs := graded.filterMap (fun g ↦
      (g.1.features.find? (·.1 = name)).map (fun f ↦ (f.2, g.2)))
    if variance (pairs.map Prod.fst) = 0 then none
    else (correlation sqrt pairs).map (fun q ↦ (name, q))))

structure Grades where
  n : ℕ := 0
  brier : ℚ := 0
  hitRate : ℚ := 0
  ic : Weights := .empty
  kept : List String := []
  pruned : List String := []

def pruneSignalsByIc (ic : Weights) (minAbsIc : ℚ) : List String × List String :=
  (sortedDistinct ((ic.toList.filter (fun p ↦ minAbsIc ≤ |p.2|)).map Prod.fst),
    sortedDistinct ((ic.toList.filter (fun p ↦ |p.2| < minAbsIc)).map Prod.fst))

def gradePredictions (sqrt : ℚ → ℚ) (store : InMemoryBitemporalStore) (asOf : Datetime)
    (horizonDays : ℤ) (modelVersion : Option String) (minAbsIc : ℚ) : Except LearningError Grades :=
  match loadPredictions store asOf modelVersion with
  | .error e => .error (.prediction e)
  | .ok preds =>
    match observationsToPriceFrame
      (store.asOf distantFuture { dataset := some priceDataset }) "close" with
    | .error e => .error (.price e)
    | .ok panel =>
      let graded := gradedPairs panel horizonDays preds
      if graded = [] then .ok {}
      else
        let label := fun r : ℚ ↦ if 0 < r then (1 : ℚ) else 0
        let ic := informationCoefficients sqrt graded
        let (kept, pruned) := pruneSignalsByIc ic minAbsIc
        .ok
          { n := graded.length
            brier := (graded.map (fun g ↦ (g.1.probability - label g.2) ^ 2)).sum / graded.length
            hitRate := (graded.countP
              (fun g ↦ decide (1 / 2 < g.1.probability) = decide (0 < g.2)) : ℚ) / graded.length
            ic := ic
            kept := kept
            pruned := pruned }

def rankPct (scores : List ℚ) (x : ℚ) : ℚ :=
  ((scores.countP (· < x) : ℚ) + ((scores.countP (· = x) : ℚ) + 1) / 2) / scores.length

def logCyclePredictions (D : Digests) (store : InMemoryBitemporalStore)
    (ranked : List (String × ℚ)) (matrix : FeatureMatrix) (asOf : Datetime) (modelVersion : String)
    (horizonDays : ℤ) : InMemoryBitemporalStore :=
  if ranked = [] then store
  else
    logPredictions D store (ranked.map (fun s ↦
      { asOf := asOf
        symbol := s.1
        probability := rankPct (ranked.map Prod.snd) s.2
        horizonDays := horizonDays
        modelVersion := modelVersion
        features := matrix.row s.1 }))

/-! ### Scorers -/

def compositeScorer (sqrt : ℚ → ℚ) (matrix : FeatureMatrix) : Scores :=
  compositeScore sqrt matrix (equalWeights matrix.columns.keys)

/-- The composite weighted by the IC of each signal, without the weak ones. If none clears the bar,
the equal-weight composite. -/
def icWeightedScorer (sqrt : ℚ → ℚ) (ic : Weights) (minAbsIc : ℚ) (matrix : FeatureMatrix) :
    Scores :=
  let ics : Weights := .ofList (matrix.columns.keys.map (fun c ↦
    let v := Dict.getD ic c 0
    (c, if 0 < minAbsIc ∧ |v| < minAbsIc then 0 else v)))
  compositeScore sqrt matrix
    (if grossOf ics = 0 then equalWeights matrix.columns.keys else icWeights ics)

end MarketTrader.Runtime
