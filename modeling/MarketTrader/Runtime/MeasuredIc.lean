import MarketTrader.Runtime.Grading
import MarketTrader.Runtime.SignalIc

namespace MarketTrader.Runtime

open Library MarketTrader.Core Storage InMemoryBitemporalStore Config Feedback Backtest Features
  Portfolio Forecasting

/-! ### The IC of a signal over the history -/

/-- A mean over its standard error, which can be zero. -/
inductive TStat
  | finite (t : ℚ)
  | posInf
  | negInf
deriving DecidableEq

def TStat.reaches (bar : ℚ) : TStat → Bool
  | finite t => bar ≤ |t|
  | posInf | negInf => true

structure SignalIC where
  signal : String
  nDates : ℕ
  nObs : ℕ
  meanIc : ℚ
  icStd : ℚ
  icTStat : TStat
  hitRate : ℚ

def sampleVariance (xs : List ℚ) : ℚ := variance xs * xs.length / (xs.length - 1)

def summarize (sqrt : ℚ → ℚ) (signal : String) (ics : List ℚ) (nObs : ℕ) : SignalIC :=
  let n := ics.length
  let mean := ics.sum / n
  let sd := if 1 < n then sqrt (sampleVariance ics) else 0
  { signal := signal
    nDates := n
    nObs := nObs
    meanIc := mean
    icStd := sd
    icTStat :=
      if 1 < n ∧ 0 < sd then .finite (mean / (sd / sqrt n))
      else if 1 < n ∧ mean ≠ 0 then if 0 < mean then .posInf else .negInf
      else .finite 0
    hitRate := (ics.countP (0 < ·) : ℚ) / n }

/-- The rank from the smallest on. Equal values share the mean of their ranks. -/
def averageRank (xs : List ℚ) (x : ℚ) : ℚ :=
  (xs.countP (· < x) : ℚ) + ((xs.countP (· = x) : ℚ) + 1) / 2

/-- The rows of the columns taken together. -/
def rowNames (columns : List Scores) : List String :=
  match columns.map (List.map Prod.fst) with
  | [] => []
  | names :: others => if ∀ l ∈ others, l = names then names else sortedDistinct (names ++ others.flatten)

/-- The rank IC of each signal on one date, and how many symbols it is over. -/
def rankIcs (sqrt : ℚ → ℚ) (minNames : ℕ) (forward : List (String × ℚ))
    (columns : Dict String Scores) : List (String × ℚ × ℕ) :=
  let common := (rowNames (columns.toList.map Prod.snd)).filter (· ∈ forward.map Prod.fst)
  let outcomes := common.map (valueOf forward)
  if common.length < minNames then []
  else columns.toList.filterMap (fun c ↦
    let pairs := common.filterMap (fun s ↦
      ((c.2.find? (·.1 = s)).bind Prod.snd).map (fun q ↦ (q, valueOf forward s)))
    let vals := pairs.map Prod.fst
    -- a single value has no spread either
    if vals.length < minNames ∨ variance vals = 0 then none
    else (correlation sqrt
      (pairs.map (fun p ↦ (averageRank vals p.1, averageRank outcomes p.2)))).map
        (fun ic ↦ (c.1, ic, common.length)))

section Measure

variable (sqrt : ℚ → ℚ) (store : InMemoryBitemporalStore) (features : List Feature)
  (symbols : List String)

def icsAt (panel : PriceFrame) (horizonDays : ℤ) (minNames : ℕ) (d : Datetime) :
    Except FeatureError (List (String × ℚ × ℕ)) :=
  let forward := forwardReturnsAt panel d horizonDays
  if forward = [] then .ok []
  else
    (Dict.collect Feature.name (fun f ↦ (signalColumn panel store d symbols f).map some) .empty
      features).map (rankIcs sqrt minNames forward)

def icsOver (panel : PriceFrame) (horizonDays : ℤ) (minNames : ℕ) :
    List Datetime → Except FeatureError (List (String × ℚ × ℕ))
  | [] => .ok []
  | d :: dates =>
    match icsAt sqrt store features symbols panel horizonDays minNames d with
    | .error e => .error e
    | .ok ics => (icsOver panel horizonDays minNames dates).map (ics ++ ·)

def measuredDates (index : List Datetime) (every warmup : ℕ) (maxDates : ℤ)
    (since : Option Datetime) : List Datetime :=
  let dates := ((index.drop warmup).zipIdx.filter (·.2 % every = 0)).map Prod.fst
  (iloc dates (-maxDates) dates.length).filter (fun d ↦ since.all (· ≤ d))

/-- The IC of each signal against the forward returns, averaged over past decision dates. -/
def measureSignalIc (asOf : Datetime) (horizonDays : ℤ := 5) (every : ℕ := 5) (warmup : ℕ := 60)
    (maxDates : ℤ := 120) (minNames : ℕ := 5) (since : Option Datetime := none) :
    Except FeatureError (Dict String SignalIC) :=
  match observationsToPriceFrame (store.asOf asOf { dataset := some priceDataset }) "close" with
  | .error e => .error (.price e)
  | .ok panel =>
    if panel.isEmpty then .ok .empty
    else
      (icsOver sqrt store features symbols panel horizonDays minNames
        (measuredDates panel.index every warmup maxDates since)).map
        (fun ics ↦
          let perDate := ics.foldl
            (fun d s ↦ Dict.set d s.1 (Dict.getD d s.1 [] ++ [s.2])) (.empty : Dict String _)
          Dict.mapVals (fun name xs ↦
            summarize sqrt name (xs.map Prod.fst) (xs.map Prod.snd).sum) perDate)

end Measure

/-! ### The weights of the composite -/

inductive IcError
  | learning (e : LearningError)
  | feature (e : FeatureError)
deriving DecidableEq

/-- The IC of each signal over the graded predictions of the scorer. -/
def measuredSignalIc (sqrt : ℚ → ℚ) (store : InMemoryBitemporalStore) (settings : Settings)
    (asOf : Datetime) : Except LearningError Weights :=
  (gradePredictions sqrt store asOf 5 (some settings.scorer) settings.icMinAbs).map Grades.ic

/-- The live IC. On a cold start, that over the history, of the signals where it is material and
significant over enough dates. -/
def signalIcForWeighting (sqrt : ℚ → ℚ) (store : InMemoryBitemporalStore) (settings : Settings)
    (features : List Feature) (symbols : List String) (asOf : Datetime) (horizonDays : ℤ := 5) :
    Except IcError Weights :=
  match measuredSignalIc sqrt store settings asOf with
  | .error e => .error (.learning e)
  | .ok live =>
    if live.toList ≠ [] then .ok live
    else
      match measureSignalIc sqrt store features symbols asOf horizonDays
          (max horizonDays 5).toNat with
      | .error e => .error (.feature e)
      | .ok offline =>
        .ok (Dict.mapVals (fun _ s ↦ s.meanIc) (offline.filter (fun s ↦
          8 ≤ s.2.nDates ∧ s.2.icTStat.reaches 2 ∧ settings.icMinAbs ≤ |s.2.meanIc|)))

end MarketTrader.Runtime
