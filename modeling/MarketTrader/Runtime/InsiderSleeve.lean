import MarketTrader.Feedback.PredictionLog
import MarketTrader.Library.Rounding
import MarketTrader.Runtime.InsiderEvents
import MarketTrader.Runtime.Sleeve

namespace MarketTrader.Runtime

open Library MarketTrader.Core Storage InMemoryBitemporalStore Config Portfolio Execution Feedback

def limitsFromSettings (settings : Settings) : RiskLimits :=
  { maxPositionWeight := settings.maxPositionWeight
    maxGrossExposure := settings.maxGrossExposure
    maxNetExposure := settings.maxNetExposure }

namespace InsiderSleeve

def sleeveDataset : String := "sleeve.insider_position"

def sleeveModel : String := "insider_sleeve"

structure InsiderSleevePosition where
  symbol : String
  entryPrice : ℚ
  exitBy : Datetime
  nBuys : ℚ

/-- Of two rows at one time, the later one read counts. -/
def newer (prev o : Observation) : Bool := prev.eventTime ≤ o.eventTime

def readPosition (o : Observation) : Except TradingError InsiderSleevePosition := do
  let entryPrice ← readFloat o "entry_price"
  let exitBy ← readTime o "exit_by"
  let nBuys ← readFloat o "n_buys"
  return { symbol := o.entityId, entryPrice := entryPrice, exitBy := exitBy
           nBuys := truncate nBuys }

def activeInsiderPositions (store : InMemoryBitemporalStore) (asOf : Datetime) :
    Except TradingError (Dict String InsiderSleevePosition) :=
  activePositions newer readPosition sleeveDataset store asOf

def openRow (D : Digests) (symbol : String) (asOf : Datetime) (entryPrice : ℚ)
    (exitBy : Datetime) (nBuys : ℚ) : Observation :=
  sleeveRow D sleeveDataset symbol ("open:" ++ asOf.date.isoformat) asOf
    (.ofList [("status", .str "open"), ("entry_price", .num entryPrice), ("exit_by", .time exitBy),
      ("n_buys", .num nBuys)])

def closeRow (D : Digests) (symbol : String) (asOf : Datetime) (reason : String) : Observation :=
  sleeveRow D sleeveDataset symbol ("close:" ++ reason ++ ":" ++ asOf.date.isoformat) asOf
    (.ofList [("status", .str "closed"), ("reason", .str reason)])

def recordOpen (D : Digests) (store : InMemoryBitemporalStore) (symbol : String)
    (asOf : Datetime) (entryPrice : ℚ) (exitBy : Datetime) (nBuys : ℚ) :
    InMemoryBitemporalStore :=
  upsertMany store [openRow D symbol asOf entryPrice exitBy nBuys]

def recordClose (D : Digests) (store : InMemoryBitemporalStore) (symbol : String)
    (asOf : Datetime) (reason : String) : InMemoryBitemporalStore :=
  upsertMany store [closeRow D symbol asOf reason]

/-- Past its time box, or stopped out on the hard floor. -/
def isDue (settings : Settings) (prices : Dict String ℚ) (asOf : Datetime)
    (a : String × InsiderSleevePosition) : Bool :=
  a.2.exitBy ≤ asOf || stopHit settings.stopLossPct a.2.entryPrice (Dict.get? prices a.1)

def closeReason (settings : Settings) (prices : Dict String ℚ)
    (a : String × InsiderSleevePosition) : String :=
  if stopHit settings.stopLossPct a.2.entryPrice (Dict.get? prices a.1) then "stop"
  else "horizon"

def closeStep (D : Digests) (settings : Settings) (prices : Dict String ℚ) (asOf : Datetime) :
    SleevePass → String × InsiderSleevePosition → SleevePass :=
  closeWith (isDue settings prices asOf)
    (fun store a ↦ recordClose D store a.1 asOf (closeReason settings prices a))

def perName (settings : Settings) : ℚ :=
  settings.insiderSleeveBudget / max settings.insiderSleeveMaxNames 1

def prediction (settings : Settings) (asOf : Datetime) (e : SleeveEntry) : PredictionRecord where
  asOf := asOf
  symbol := e.symbol
  probability := min 1 (max 0 (e.expectedCar * 10))
  horizonDays := settings.insiderSleeveHoldDays
  modelVersion := sleeveModel
  features := [("n_buys", e.nBuys), ("expected_car", e.expectedCar)]

def openStep (D : Digests) (settings : Settings) (prices : Dict String ℚ) (asOf : Datetime)
    (p : SleevePass) (e : SleeveEntry) : SleevePass :=
  match (Dict.get? prices e.symbol).filter (· ≠ 0) with
  | none => p
  | some price =>
    { p with
      target := Dict.set p.target e.symbol (perName settings)
      store := logPredictions D (recordOpen D p.store e.symbol asOf price e.exitBy e.nBuys)
        [prediction settings asOf e]
      opened := p.opened ++ [e.symbol] }

def liveNames (active : Dict String InsiderSleevePosition) (closed : List String) : List String :=
  active.keys.filter (· ∉ closed)

def slots (settings : Settings) (live : List String) : ℤ :=
  max 0 (settings.insiderSleeveMaxNames - live.length)

def entries (settings : Settings) (store : InMemoryBitemporalStore) (gate : Gate)
    (asOf : Datetime) (live : List String) : List SleeveEntry :=
  if slots settings live = 0 then []
  else insiderClusterEntries store asOf gate settings.insiderSleeveHoldDays (slots settings live) 5
    live

/-- The decision: close what is due, then open fresh clusters. It ends with the target, and with
the prices to trade it at. -/
def decidePass (D : Digests) (settings : Settings) (store : InMemoryBitemporalStore)
    (universeNames : List String) (gate : Gate) (asOf : Datetime) :
    Except TradingError (SleevePass × Dict String ℚ) := do
  let active ← activeInsiderPositions store asOf
  let prices ← latestPrices store asOf (universeNames ++ active.keys)
  let afterClose := active.toList.foldl (closeStep D settings prices asOf) { store := store }
  let live := liveNames active afterClose.closed
  let pass := (entries settings afterClose.store gate asOf live).foldl
    (openStep D settings prices asOf) afterClose
  return (pass, prices)

/-- The engine that the pass builds keeps no record of its own. -/
def engine (settings : Settings) (store : InMemoryBitemporalStore) (asOf : Datetime) :
    ExecutionEngine :=
  .fresh settings (limitsFromSettings settings) false store asOf

/-- One pass: close the expired and the stopped, open fresh gated clusters, execute. -/
def runInsiderSleeveCycle {β : Type} (D : Digests) (B : Broker β) (settings : Settings)
    (w : World β) (universeNames : List String) (gate : Gate) (asOf : Datetime) :
    Except TradingError SleeveResult × World β :=
  match decidePass D settings w.store universeNames gate asOf with
  | .error err => (.error err, w)
  | .ok (p, prices) => executePass D B (engine settings p.store asOf) w p prices asOf

end InsiderSleeve

end MarketTrader.Runtime
