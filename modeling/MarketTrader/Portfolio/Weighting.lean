import MarketTrader.Features.Base
import MarketTrader.Portfolio.Risk

namespace MarketTrader.Portfolio

open Library Features

def equalWeights (names : List String) : Weights :=
  .ofList (names.map (fun s ↦ (s, 1 / names.length)))

/-- Sign-aware weights from the IC of each signal, normalised and capped. -/
def icWeights (ics : Weights) (cap : ℚ := 1 / 2) : Weights :=
  let denom := grossOf ics
  if denom = 0 then equalWeights ics.keys
  else Dict.mapVals (fun _ ic ↦ clip (-cap) cap (ic / denom)) ics

/-- The composite score of each symbol: its z-scores, weighted by signal. A missing one counts as
zero. -/
def compositeScore (sqrt : ℚ → ℚ) (matrix : FeatureMatrix) (weights : Weights) : Scores :=
  let z := Dict.mapVals (fun _ s ↦ crossSectionalZscore sqrt s) matrix.columns
  let w := fun signal ↦ Dict.getD weights signal 0
  let scale := (matrix.columns.keys.map (fun signal ↦ |w signal|)).sum
  let scaled := fun signal ↦ if 0 < scale then w signal / scale else w signal
  matrix.symbols.map (fun symbol ↦
    (symbol, some (z.toList.map (fun c ↦
      (((c.2.find? (·.1 = symbol)).bind Prod.snd).getD 0) * scaled c.1)).sum))

end MarketTrader.Portfolio
