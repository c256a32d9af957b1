import MarketTrader.Backtest.Pit

namespace MarketTrader.Features

open Library MarketTrader.Core Storage Backtest

inductive FeatureError
  | price (e : PriceError)
  | indexError
  | valueError (field : String)
deriving DecidableEq

/-- A cross-section: a score a symbol, none where it is missing. -/
abbrev Scores := List (String × Option ℚ)

def missing (symbols : List String) : Scores := symbols.map (fun s ↦ (s, none))

/-- A feature reads the store as of an instant. One that is derived from prices alone can also be
computed from a panel that is there already. -/
structure Feature where
  name : String
  compute : InMemoryBitemporalStore → Datetime → List String → Except FeatureError Scores
  fromPanel : Option (PriceFrame → List String → Except FeatureError Scores) := none

def variance (xs : List ℚ) : ℚ :=
  let mean := xs.sum / xs.length
  (xs.map (fun x ↦ (x - mean) ^ 2)).sum / xs.length

def std (sqrt : ℚ → ℚ) (col : Column ℚ) : Option ℚ :=
  let xs := col.reduceOption
  if xs = [] then none else some (sqrt (variance xs))

/-- Z-scores across the symbols that have a value. A flat input maps to zeros. -/
def crossSectionalZscore (sqrt : ℚ → ℚ) (s : Scores) : Scores :=
  let xs := (s.map Prod.snd).reduceOption
  let mean := xs.sum / xs.length
  match (std sqrt (s.map Prod.snd)).filter (· ≠ 0) with
  | none => s.map (fun p ↦ (p.1, p.2.map (fun _ ↦ 0)))
  | some sd => s.map (fun p ↦ (p.1, p.2.map (fun x ↦ (x - mean) / sd)))

def reindex (s : Scores) (symbols : List String) : Scores :=
  symbols.map (fun x ↦ (x, (s.find? (·.1 = x)).bind Prod.snd))

/-- A row a symbol and a column a feature. -/
structure FeatureMatrix where
  symbols : List String
  columns : Dict String Scores

def FeatureMatrix.isEmpty (m : FeatureMatrix) : Bool :=
  m.symbols.isEmpty || m.columns.toList.isEmpty

def FeatureMatrix.row (m : FeatureMatrix) (symbol : String) : List (String × ℚ) :=
  m.columns.toList.filterMap
    (fun c ↦ ((c.2.find? (·.1 = symbol)).bind Prod.snd).map (fun q ↦ (c.1, q)))

def computeMatrix (features : List Feature) (store : InMemoryBitemporalStore) (asOf : Datetime)
    (symbols : List String) : Except FeatureError FeatureMatrix :=
  (Dict.collect Feature.name
    (fun f ↦ (f.compute store asOf symbols).map (fun s ↦ some (reindex s symbols))) .empty
    features).map (fun columns ↦ ⟨symbols, columns⟩)

end MarketTrader.Features
