import MarketTrader.Runtime.Cycle
import MarketTrader.Runtime.NewsSleeve

namespace MarketTrader.Runtime

open Library MarketTrader.Core Storage InMemoryBitemporalStore Config Portfolio Features Execution

/-- What a daily cycle gets from outside: the rows that its collectors make of what they fetch, the
scorer that it builds on the store, and the universe and the gate of the insider sleeve. -/
structure LiveInputs where
  watchlist : List String
  bars : List Observation
  filings : List Observation := []
  news : List Observation := []
  features : List Feature
  buildScorer : InMemoryBitemporalStore → Datetime → Except CycleError ScoreFn
  insiderUniverse : List String
  gate : Gate

def keySet : Option String → Bool
  | none => false
  | some key => key ≠ ""

/-- What the cycle checks before it reaches for the market: keys, and for the live endpoint both
switches. -/
def liveGate (settings : Settings) : Option CycleError :=
  if !(keySet settings.alpacaKeyId && keySet settings.alpacaSecretKey) then
    some (.runtime "Alpaca keys not set (MT_ALPACA_KEY_ID / MT_ALPACA_SECRET_KEY)")
  else if !settings.alpacaPaper && !settings.liveAllowed then some (.trading .liveDisabled)
  else none

def closePrices (store : InMemoryBitemporalStore) (asOf : Datetime) (watchlist : List String) :
    Except TradingError (Dict String ℚ) :=
  Dict.collect Observation.entityId
    (fun o ↦
      if o.entityId ∈ watchlist then
        match o.get? "close" with
        | none => .error (.keyError "close")
        | some close =>
          match close.float? with
          | some q => .ok (some q)
          | none => .error (.valueError "close")
      else .ok none) .empty
    (store.asOf asOf { dataset := some priceDataset })

def reservedNames (settings : Settings) (store : InMemoryBitemporalStore) (asOf : Datetime) :
    Except TradingError (List String) := do
  let news ← if settings.newsSleeveEnabled then
      (NewsSleeve.activeSleevePositions store asOf).map Keyed.keys else .ok []
  let insider ← if settings.insiderSleeveEnabled then
      (InsiderSleeve.activeInsiderPositions store asOf).map Keyed.keys else .ok []
  return news ++ insider

def sleeveBudget (settings : Settings) : ℚ :=
  (if settings.newsSleeveEnabled then settings.newsSleeveBudget else 0) +
    if settings.insiderSleeveEnabled then settings.insiderSleeveBudget else 0

/-- The limits of the daily book: its gross is shrunk by what is reserved for the sleeves. -/
def dailyLimits (settings : Settings) : Option RiskLimits :=
  if 0 < sleeveBudget settings then
    let base := limitsFromSettings settings
    some { base with
      maxGrossExposure := base.maxGrossExposure * (1 - sleeveBudget settings) }
  else none

section Run

variable {β : Type}

def ingestFlows (D : Digests) (settings : Settings) (inputs : LiveInputs)
    (store : InMemoryBitemporalStore) : InMemoryBitemporalStore :=
  let store := if settings.insiderEnabled then ingest D store inputs.filings else store
  if settings.newsEnabled then ingest D store inputs.news else store

def liveOptions (settings : Settings) (inputs : LiveInputs) (scoreFn : ScoreFn)
    (reserved : List String) : CycleOptions where
  limits := dailyLimits settings
  features := inputs.features
  scoreFn := some scoreFn
  topQuantile := settings.topQuantile
  maxPositions := if settings.maxPositions = 0 then none else some settings.maxPositions
  exitBandMultiple := settings.exitBandMultiple
  riskWeighting := settings.riskWeighting
  tiltStrength := settings.tiltStrength
  predictionLog := true
  modelVersion := settings.scorer
  stopLossPct := settings.stopLossPct
  trailingStopPct := settings.trailingStopPct
  thesisExitThreshold := settings.thesisExitThreshold
  reserved := reserved
  cancelStaleOrders := true

def bookInputs (settings : Settings) (inputs : LiveInputs) (store : InMemoryBitemporalStore)
    (asOf : Datetime) : Except CycleError (ScoreFn × List String) :=
  match inputs.buildScorer store asOf with
  | .error e => .error e
  | .ok scoreFn =>
    match reservedNames settings store asOf with
    | .error e => .error (.trading e)
    | .ok reserved => .ok (scoreFn, reserved)

/-- The daily book, and on the same store and broker the insider sleeve right after it. An error of
the sleeve does not fail the cycle. -/
def runLivePaperCycle (N : Numerics) (D : Digests) (B : Broker β) (settings : Settings)
    (inputs : LiveInputs) (w : World β) (asOf : Datetime) :
    Except CycleError CycleResult × World β :=
  match liveGate settings with
  | some e => (.error e, w)
  | none =>
    let w₁ := { w with store := ingest D w.store inputs.bars }
    match closePrices w₁.store asOf inputs.watchlist with
    | .error e => (.error (.trading e), w₁)
    | .ok prices =>
      let w₂ := { w₁ with store := ingestFlows D settings inputs w₁.store }
      match bookInputs settings inputs w₂.store asOf with
      | .error e => (.error e, w₂)
      | .ok (scoreFn, reserved) =>
        match runPaperCycle N D B settings (liveOptions settings inputs scoreFn reserved) w₂ asOf
          inputs.watchlist prices with
        | (.error e, w₃) => (.error e, w₃)
        | (.ok result, w₃) =>
          (.ok result,
            if settings.insiderSleeveEnabled then
              (InsiderSleeve.runInsiderSleeveCycle D B settings w₃ inputs.insiderUniverse
                inputs.gate asOf).2
            else w₃)

end Run

end MarketTrader.Runtime
