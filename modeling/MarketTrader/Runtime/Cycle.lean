import MarketTrader.Features.Llm
import MarketTrader.Runtime.InsiderSleeve
import MarketTrader.Runtime.Learning

namespace MarketTrader.Runtime

open Library MarketTrader.Core Storage InMemoryBitemporalStore Config Portfolio Features Backtest
  Execution

inductive CycleError
  | feature (e : FeatureError)
  | price (e : PriceError)
  | trading (e : TradingError)
  /-- What a scorer raises. -/
  | scoring (text : String)
  /-- What the cycle itself raises. -/
  | runtime (text : String)

abbrev ScoreFn := FeatureMatrix → Datetime → Except CycleError Scores

structure CycleResult where
  asOf : Datetime
  scores : List (String × ℚ)
  targetWeights : Weights
  orders : List Order

/-- The optional parameters of a cycle. -/
structure CycleOptions where
  limits : Option RiskLimits := none
  features : List Feature
  scoreFn : Option ScoreFn := none
  topQuantile : ℚ := 3 / 10
  maxPositions : Option ℤ := none
  exitBandMultiple : ℚ := 1
  riskWeighting : String := "equal"
  tiltStrength : ℚ := 0
  predictionLog : Bool := false
  modelVersion : String := "composite"
  predictionHorizon : ℤ := 5
  stopLossPct : ℚ := 0
  trailingStopPct : ℚ := 0
  thesisExitThreshold : ℚ := 0
  /-- Symbols that another sleeve owns. -/
  reserved : List String := []
  cancelStaleOrders : Bool := false

/-! ### Exits -/

/-- The name is down from its entry by the stop or more. -/
def offEntry (prices : Dict String ℚ) (stopLossPct : ℚ) (p : Position) : Bool :=
  match Dict.get? prices p.symbol with
  | none => false
  | some px => px ≠ 0 ∧ 0 < p.avgPrice ∧ 0 < p.qty ∧ px / p.avgPrice - 1 ≤ -stopLossPct

def stopLosses (positions : List Position) (prices : Dict String ℚ) (stopLossPct : ℚ) :
    List String :=
  if stopLossPct ≤ 0 then []
  else (positions.filter (offEntry prices stopLossPct)).map Position.symbol

def closePanel (store : InMemoryBitemporalStore) (asOf : Datetime) : Except CycleError PriceFrame :=
  match observationsToPriceFrame (store.asOf asOf { dataset := some priceDataset }) "close" with
  | .error e => .error (.price e)
  | .ok panel => .ok panel

def offHigh (panel : PriceFrame) (prices : Dict String ℚ) (trailPct : ℚ) (window : ℤ)
    (p : Position) : Bool :=
  match Dict.get? prices p.symbol, Dict.get? panel.columns p.symbol with
  | some px, some col =>
    match (tailOf window col).reduceOption.max? with
    | none => false
    | some peak => 0 < p.qty ∧ px ≠ 0 ∧ 0 < peak ∧ px / peak - 1 ≤ -trailPct
  | _, _ => false

def trailingStops (store : InMemoryBitemporalStore) (asOf : Datetime) (positions : List Position)
    (prices : Dict String ℚ) (trailPct : ℚ) (window : ℤ := 60) :
    Except CycleError (List String) :=
  if trailPct ≤ 0 then .ok []
  else
    match closePanel store asOf with
    | .error e => .error e
    | .ok panel =>
      if panel.isEmpty then .ok []
      else .ok ((positions.filter (offHigh panel prices trailPct window)).map Position.symbol)

def thesisBreakExits (store : InMemoryBitemporalStore) (asOf : Datetime)
    (positions : List Position) (threshold : ℚ) : Except CycleError (List String) :=
  let held := (positions.filter (0 < ·.qty)).map Position.symbol
  if threshold ≤ 0 ∨ held = [] then .ok []
  else
    match (llmNewsSentiment 10).compute store asOf held with
    | .error e => .error (.feature e)
    | .ok sentiment =>
      .ok (held.filter (fun s ↦
        ((sentiment.find? (·.1 = s)).bind Prod.snd).getD 0 ≤ -threshold))

/-- The names to cut, however good their signal. -/
def stopped (options : CycleOptions) (store : InMemoryBitemporalStore) (asOf : Datetime)
    (positions : List Position) (prices : Dict String ℚ) : Except CycleError (List String) := do
  let trailing ← trailingStops store asOf positions prices options.trailingStopPct
  let broken ← thesisBreakExits store asOf positions options.thesisExitThreshold
  return stopLosses positions prices options.stopLossPct ++ trailing ++ broken

/-! ### Selection and sizing -/

def rank (scores : Scores) : List (String × ℚ) :=
  sortBy (fun p : String × ℚ ↦ OrderDual.toDual p.2)
    (scores.filterMap (fun p ↦ p.2.map (fun q ↦ (p.1, q))))

/-- Held names inside the exit band, then the entrants. -/
def selectWithHysteresis (ranked held : List String) (enterK exitK : ℤ) (cap : Option ℤ) :
    List String :=
  let keep := iloc ranked 0 exitK
  let entrants := iloc ranked 0 enterK
  let heldKept := ranked.filter (fun s ↦ s ∈ held ∧ s ∈ keep)
  let selected := heldKept ++ entrants.filter (· ∉ held)
  match cap with
  | none => selected
  | some cap => iloc selected 0 cap

/-- Shares by the strength of the signal: the weakest name is held, just light. -/
def convictionWeights (selected : List String) (scores : List (String × ℚ)) : Option Weights :=
  let s := selected.map (fun x ↦ (x, ((scores.find? (·.1 = x)).map Prod.snd).getD 0))
  let low := ((s.map Prod.snd).min?).getD 0
  let s := s.map (fun p ↦ (p.1, p.2 - low))
  let high := ((s.map Prod.snd).max?).getD 0
  let floor := if 0 < high then high * (1 / 10) else 1
  let s := s.map (fun p ↦ (p.1, p.2 + floor))
  let total := (s.map Prod.snd).sum
  if 0 < total then some (.ofList (s.map (fun p ↦ (p.1, p.2 / total)))) else none

/-- Shares by the inverse of the volatility, the mean one where there is none. -/
def inverseVolWeights (selected : List String) (matrix : FeatureMatrix) : Option Weights :=
  match matrix.columns.toList.find? (fun c ↦ "vol_".isPrefixOf c.1) with
  | none => none
  | some (_, vol) =>
    let inv := selected.map (fun s ↦
      (s, (((vol.find? (·.1 = s)).bind Prod.snd).filter (0 < ·)).map (fun v : ℚ ↦ 1 / v)))
    let known := (inv.map Prod.snd).reduceOption
    if known = [] then none
    else
      let mean := known.sum / known.length
      let filled := inv.map (fun p ↦ (p.1, p.2.getD mean))
      let total := (filled.map Prod.snd).sum
      if 0 < total then some (.ofList (filled.map (fun p ↦ (p.1, p.2 / total)))) else none

def riskWeights (selected : List String) (matrix : FeatureMatrix) (mode : String)
    (scores : List (String × ℚ)) : Weights :=
  if selected = [] then .empty
  else
    let sized :=
      if mode = "conviction" then convictionWeights selected scores
      else if mode = "inverse_vol" then inverseVolWeights selected matrix
      else none
    sized.getD (equalWeights selected)

def volLookback : ℤ := 90

def trailingReturns (store : InMemoryBitemporalStore) (asOf : Datetime) (symbols : List String)
    (lookback : ℤ := volLookback) : Except CycleError (Option PriceFrame) :=
  match closePanel store asOf with
  | .error e => .error e
  | .ok panel =>
    let cols := symbols.filter (· ∈ panel.names)
    if panel.isEmpty ∨ cols = [] then .ok none
    else .ok (some (((panel.pick cols).diff pctChange).tail.tailRows lookback))

/-- Scales a long-only book to the volatility target, up to a gross cap. -/
def volTargetWeights (N : Numerics) (weights : Weights) (returns : PriceFrame) (targetVol : ℚ)
    (maxGross : ℚ) : Weights :=
  let names := weights.keys.filter (· ∈ returns.names)
  let window := (returns.pick names).columns.toList.filterMap (fun c ↦
    if c.2.all Option.isSome then some (c.1, c.2.reduceOption) else none)
  if window.length < 2 ∨ returns.index.length < 20 then weights
  else
    let w : Weights := .ofList (window.map (fun c ↦ (c.1, Dict.getD weights c.1 0)))
    let scaled := volatilityTargetWeights N w (N.ledoitWolf (window.map Prod.snd)) targetVol
    let gross := grossOf scaled
    let scaled :=
      if maxGross < gross ∧ 0 < gross then Dict.mapVals (fun _ v ↦ v * (maxGross / gross)) scaled
      else scaled
    scaled.filter (fun p ↦ 1 / 10 ^ 9 < |p.2|)

/-- The whole scored universe, tilted toward the better scores. -/
def chassisBook (N : Numerics) (settings : Settings) (options : CycleOptions) (limits : RiskLimits)
    (store : InMemoryBitemporalStore) (asOf : Datetime) (ranked : List (String × ℚ))
    (excluded : List String) : Except CycleError Weights :=
  let eligible := (ranked.map Prod.fst).filter (· ∉ excluded)
  match trailingReturns store asOf eligible with
  | .error e => .error e
  | .ok none => .ok .empty
  | .ok (some returns) =>
    if returns.isEmpty then .ok .empty
    else
      .ok (sizeBook N returns settings.targetVol limits
        (if 0 < options.tiltStrength then some (ranked.map (fun p ↦ (p.1, some p.2))) else none)
        options.tiltStrength volLookback)

/-- How many names may enter, and down to which rank a held one is kept. -/
def bands (options : CycleOptions) (n : ℕ) : ℤ × ℤ :=
  let enterK := max 1 (truncate (n * options.topQuantile))
  let enterK := match options.maxPositions with
    | none => enterK
    | some cap => min enterK cap
  (enterK, min n (max enterK (roundHalfEven (enterK * options.exitBandMultiple))))

def winnersBook (N : Numerics) (settings : Settings) (options : CycleOptions) (limits : RiskLimits)
    (store : InMemoryBitemporalStore) (asOf : Datetime) (matrix : FeatureMatrix)
    (ranked : List (String × ℚ)) (held excluded : List String) : Except CycleError Weights :=
  let (enterK, exitK) := bands options ranked.length
  let winners := (selectWithHysteresis (ranked.map Prod.fst) held enterK exitK
    options.maxPositions).filter (· ∉ excluded)
  if options.riskWeighting = "vol_target" then
    let base := riskWeights winners matrix "inverse_vol" ranked
    match trailingReturns store asOf winners with
    | .error e => .error e
    | .ok none => .ok (applyRiskLimits base limits none)
    | .ok (some returns) =>
      .ok (applyRiskLimits
        (volTargetWeights N base returns settings.targetVol limits.maxGrossExposure) limits none)
  else .ok (applyRiskLimits (riskWeights winners matrix options.riskWeighting ranked) limits none)

def targetBook (N : Numerics) (settings : Settings) (options : CycleOptions) (limits : RiskLimits)
    (store : InMemoryBitemporalStore) (asOf : Datetime) (matrix : FeatureMatrix)
    (ranked : List (String × ℚ)) (positions : List Position) (prices : Dict String ℚ) :
    Except CycleError Weights :=
  match stopped options store asOf positions prices with
  | .error e => .error e
  | .ok stopped =>
    let excluded := stopped ++ options.reserved
    if ranked = [] then .ok .empty
    else if options.riskWeighting = "size_book" then
      chassisBook N settings options limits store asOf ranked excluded
    else winnersBook N settings options limits store asOf matrix ranked
      (positions.map Position.symbol) excluded

/-- A held name that left the selection needs an explicit zero. -/
def flattenDropped (held : List String) (prices : Dict String ℚ) (target : Weights) : Weights :=
  held.foldl
    (fun d s ↦ if s ∉ target.keys ∧ s ∈ prices.keys then Dict.set d s 0 else d) target

/-! ### One cycle -/

section Run

variable {β : Type}

/-- Cancels what is still open of a prior run, but for the reserved names. -/
def cancelStale (B : Broker β) (reserved : List String) (b : β) : β :=
  ((B.getOpenOrders b).filter (·.symbol ∉ reserved)).foldl
    (fun b o ↦ B.cancelOrder b o.clientOrderId) b

def rankUniverse (N : Numerics) (options : CycleOptions) (store : InMemoryBitemporalStore)
    (asOf : Datetime) (symbols : List String) :
    Except CycleError (FeatureMatrix × List (String × ℚ)) :=
  match computeMatrix options.features store asOf symbols with
  | .error e => .error (.feature e)
  | .ok matrix =>
    let scorer := options.scoreFn.getD (fun m _ ↦ .ok (compositeScorer N.sqrt m))
    match if matrix.isEmpty then .ok [] else scorer matrix asOf with
    | .error e => .error e
    | .ok scores => .ok (matrix, rank scores)

def runPaperCycle (N : Numerics) (D : Digests) (B : Broker β) (settings : Settings)
    (options : CycleOptions) (w : World β) (asOf : Datetime) (symbols : List String)
    (prices : Dict String ℚ) : Except CycleError CycleResult × World β :=
  let limits := options.limits.getD (limitsFromSettings settings)
  let w₁ := { w with
    broker := if options.cancelStaleOrders then cancelStale B options.reserved w.broker
      else w.broker }
  match rankUniverse N options w₁.store asOf symbols with
  | .error e => (.error e, w₁)
  | .ok (matrix, ranked) =>
    let w₂ := { w₁ with
      store := if options.predictionLog ∧ !matrix.isEmpty then
          logCyclePredictions D w₁.store ranked matrix asOf options.modelVersion
            options.predictionHorizon
        else w₁.store }
    let positions := (B.getPositions w₂.broker).filter (·.symbol ∉ options.reserved)
    match targetBook N settings options limits w₂.store asOf matrix ranked positions prices with
    | .error e => (.error e, w₂)
    | .ok target =>
      let goal := flattenDropped (positions.map Position.symbol) prices target
      if goal.toList = [] then (.ok ⟨asOf, ranked, target, []⟩, w₂)
      else
        let out := rebalance D B (.fresh settings limits true w₂.store asOf) w₂ goal prices asOf
        match out.result with
        | .error e => (.error (.trading e), out.world)
        | .ok orders => (.ok ⟨asOf, ranked, target, orders⟩, out.world)

end Run

end MarketTrader.Runtime
