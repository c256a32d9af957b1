import MarketTrader.Feedback.PredictionLog
import MarketTrader.Library.Rounding
import MarketTrader.Runtime.Sleeve

namespace MarketTrader.Runtime

open Library MarketTrader.Core Storage InMemoryBitemporalStore Config Portfolio Execution Feedback

/-- Stamps each observation with its id, drops duplicates within the batch, and upserts. -/
def ingest (D : Digests) (store : InMemoryBitemporalStore) (observations : List Observation) :
    InMemoryBitemporalStore :=
  let byId : InMemoryBitemporalStore := .ofList (observations.map (withDeterministicId D))
  upsertMany store byId.toList

namespace NewsSleeve

def newsDataset : String := "news.article"

def sleeveDataset : String := "sleeve.news_position"

def sleeveModel : String := "news_sleeve"

structure NewsEvent where
  symbol : String
  direction : ℤ
  confidence : ℚ
  tone : ℚ
  surge : ℚ
  storyHash : String

structure SleevePosition where
  symbol : String
  entryPrice : ℚ
  exitBy : Datetime
  storyHash : String

/-! ### Event detection -/

def articlesWithin (store : InMemoryBitemporalStore) (asOf : Datetime) (symbols : List String)
    (baselineDays : ℤ) : Dict String (List (Datetime × Dict String Value)) :=
  let cutoff := asOf - Timedelta.ofDays baselineDays
  (store.asOf asOf { dataset := some newsDataset }).foldl (fun d o ↦
    if o.entityId ∈ symbols ∧ cutoff ≤ o.eventTime then
      Dict.set d o.entityId (Dict.getD d o.entityId [] ++ [(o.eventTime, o.value)])
    else d) .empty

def confidenceOf (surge tone countSurge toneMin : ℚ) : ℚ :=
  let fromSurge := if 0 < countSurge then min 1 (surge / (2 * countSurge)) else 0
  let fromTone := if 0 < toneMin then min 1 (|tone| / (2 * toneMin)) else 0
  roundTo 4 (max 0 (min 1 (1 / 2 * fromSurge + 1 / 2 * fromTone)))

/-- The first of two fields that is not empty, as text. -/
def textOr (value : Dict String Value) (field field' : String) : String :=
  let v := (Dict.get? value field).getD .null
  let v' := (Dict.get? value field').getD .null
  if v.truthy then v.text else if v'.truthy then v'.text else ""

def storyHashOf (D : Digests) (items : List (Datetime × Dict String Value)) : String :=
  let key := ((firstMax Prod.fst items).map (fun tv ↦ textOr tv.2 "url" "title")).getD ""
  String.ofList ((D.sha1 key).toList.take 16)

def tonesOf (recent : List (Datetime × Dict String Value)) : Except TradingError (List ℚ) :=
  (recent.filterMap (fun tv ↦ (Dict.get? tv.2 "tone").filter (· ≠ .null))).mapM (fun v ↦
    match v.float? with
    | some q => .ok q
    | none => .error (.valueError "tone"))

def newsEventOf (D : Digests) (asOf : Datetime) (countSurge toneMin : ℚ)
    (baselineDays recentDays : ℤ) (symbol : String) (items : List (Datetime × Dict String Value)) :
    Except TradingError (Option NewsEvent) :=
  let recentCut := asOf - Timedelta.ofDays recentDays
  let recent := items.filter (recentCut ≤ ·.1)
  if recent.length < 3 then .ok none
  else
    let denom : ℚ := max (baselineDays - recentDays) 1
    let baselineDaily : ℚ := (items.filter (·.1 < recentCut)).length / denom
    let surge : ℚ := recent.length / max baselineDaily (1 / 2)
    if surge < countSurge then .ok none
    else
      match tonesOf recent with
      | .error err => .error err
      | .ok tones =>
        let tone := if tones = [] then 0 else tones.sum / tones.length
        .ok (some
          { symbol := symbol
            direction := if 0 < tone then 1 else if tone < 0 then -1 else 0
            confidence := confidenceOf surge tone countSurge toneMin
            tone := roundTo 4 tone
            surge := roundTo 4 surge
            storyHash := storyHashOf D recent })

def detectNewsEvents (D : Digests) (store : InMemoryBitemporalStore) (asOf : Datetime)
    (symbols : List String) (countSurge toneMin : ℚ) (baselineDays : ℤ) :
    Except TradingError (List NewsEvent) := do
  let found ← (articlesWithin store asOf symbols baselineDays).toList.mapM (fun p ↦
    newsEventOf D asOf countSurge toneMin baselineDays 1 p.1 p.2)
  return found.reduceOption

/-! ### The ledger -/

/-- Of two rows at one time, the one read first counts. -/
def newer (prev o : Observation) : Bool := prev.eventTime < o.eventTime

def records (store : InMemoryBitemporalStore) (asOf : Datetime) : List Observation :=
  store.asOf asOf { dataset := some sleeveDataset }

def readPosition (o : Observation) : Except TradingError SleevePosition := do
  let entryPrice ← readFloat o "entry_price"
  let exitBy ← readTime o "exit_by"
  return { symbol := o.entityId, entryPrice := entryPrice, exitBy := exitBy
           storyHash := ((o.get? "story_hash").getD (.str "")).text }

def activeSleevePositions (store : InMemoryBitemporalStore) (asOf : Datetime) :
    Except TradingError (Dict String SleevePosition) :=
  activePositions newer readPosition sleeveDataset store asOf

def actedStoryHashes (store : InMemoryBitemporalStore) (asOf : Datetime) : List String :=
  (records store asOf).filterMap (fun o ↦
    let v := (o.get? "story_hash").getD .null
    if v.truthy then some v.text else none)

def lastActionTime (store : InMemoryBitemporalStore) (asOf : Datetime) (symbol : String) :
    Option Datetime :=
  ((latestBySymbol newer (records store asOf)).find? symbol).map Observation.eventTime

def openRow (D : Digests) (symbol : String) (asOf : Datetime) (entryPrice : ℚ)
    (exitBy : Datetime) (storyHash : String) : Observation :=
  sleeveRow D sleeveDataset symbol storyHash asOf
    (.ofList [("status", .str "open"), ("entry_price", .num entryPrice), ("exit_by", .time exitBy),
      ("story_hash", .str storyHash)])

def closeRow (D : Digests) (symbol : String) (asOf : Datetime) (storyHash reason : String) :
    Observation :=
  sleeveRow D sleeveDataset symbol (storyHash ++ ":close:" ++ reason) asOf
    (.ofList [("status", .str "closed"), ("story_hash", .str storyHash), ("reason", .str reason)])

def recordOpen (D : Digests) (store : InMemoryBitemporalStore) (symbol : String)
    (asOf : Datetime) (entryPrice : ℚ) (exitBy : Datetime) (storyHash : String) :
    InMemoryBitemporalStore :=
  upsertMany store [openRow D symbol asOf entryPrice exitBy storyHash]

def recordClose (D : Digests) (store : InMemoryBitemporalStore) (symbol : String)
    (asOf : Datetime) (storyHash reason : String) : InMemoryBitemporalStore :=
  upsertMany store [closeRow D symbol asOf storyHash reason]

def prediction (asOf : Datetime) (holdDays : ℤ) (ev : NewsEvent) : PredictionRecord where
  asOf := asOf
  symbol := ev.symbol
  probability := ev.confidence
  horizonDays := holdDays
  modelVersion := sleeveModel
  features := [("tone", ev.tone), ("surge", ev.surge), ("confidence", ev.confidence)]

def logDecision (D : Digests) (store : InMemoryBitemporalStore) (ev : NewsEvent)
    (asOf : Datetime) (holdDays : ℤ) : InMemoryBitemporalStore :=
  logPredictions D store [prediction asOf holdDays ev]

/-! ### One pass -/

/-- Past the drift window, or stopped out. -/
def isDue (settings : Settings) (prices : Dict String ℚ) (asOf : Datetime)
    (a : String × SleevePosition) : Bool :=
  a.2.exitBy ≤ asOf || stopHit settings.stopLossPct a.2.entryPrice (Dict.get? prices a.1)

def closeReason (settings : Settings) (prices : Dict String ℚ) (a : String × SleevePosition) :
    String :=
  if stopHit settings.stopLossPct a.2.entryPrice (Dict.get? prices a.1) then "stop"
  else "horizon"

def closeStep (D : Digests) (settings : Settings) (prices : Dict String ℚ) (asOf : Datetime) :
    SleevePass → String × SleevePosition → SleevePass :=
  closeWith (isDue settings prices asOf)
    (fun store a ↦
      recordClose D store a.1 asOf a.2.storyHash (closeReason settings prices a))

def perName (settings : Settings) : ℚ :=
  settings.newsSleeveBudget / max settings.newsSleeveMaxNames 1

def cooling (settings : Settings) (asOf : Datetime) : Option Datetime → Bool
  | none => false
  | some prev => asOf - prev < Timedelta.ofDays settings.newsSleeveCooldownDays

structure Briefing where
  prices : Dict String ℚ
  acted : List String
  lastAction : String → Option Datetime

/-- A confident, positive event on a story not yet acted on, in a name that is neither held nor
cooling down. -/
def actsOn (settings : Settings) (asOf : Datetime) (b : Briefing) (live : List String)
    (ev : NewsEvent) : Bool :=
  0 < ev.direction ∧ settings.newsSleeveMinConfidence ≤ ev.confidence ∧ ev.storyHash ∉ b.acted ∧
    ev.symbol ∉ live ∧ ¬cooling settings asOf (b.lastAction ev.symbol)

def openLoop (D : Digests) (settings : Settings) (asOf : Datetime) (b : Briefing) :
    List NewsEvent → SleevePass → List String → SleevePass
  | [], p, _ => p
  | ev :: rest, p, live =>
    if settings.newsSleeveMaxNames ≤ live.length then p
    else
      match (Dict.get? b.prices ev.symbol).filter (0 < ·) with
      | none => openLoop D settings asOf b rest p live
      | some price =>
        if actsOn settings asOf b live ev then
          let exitBy := asOf + Timedelta.ofDays settings.newsSleeveHoldDays
          openLoop D settings asOf b rest
            { p with
              target := Dict.set p.target ev.symbol (perName settings)
              store := logDecision D
                (recordOpen D p.store ev.symbol asOf price exitBy ev.storyHash) ev asOf
                settings.newsSleeveHoldDays
              opened := p.opened ++ [ev.symbol] } (live ++ [ev.symbol])
        else openLoop D settings asOf b rest p live

/-- The first half of a pass closes what is due. It ends with what the second half needs, and with
the names still held. -/
def closePhase (D : Digests) (settings : Settings) (store : InMemoryBitemporalStore)
    (watchlist : List String) (asOf : Datetime) :
    Except TradingError (SleevePass × Briefing × List String) := do
  let prices ← latestPrices store asOf watchlist
  let active ← activeSleevePositions store asOf
  let b : Briefing :=
    { prices := prices, acted := actedStoryHashes store asOf
      lastAction := lastActionTime store asOf }
  let p := active.toList.foldl (closeStep D settings prices asOf) { store := store }
  return (p, b, active.keys.filter (· ∉ p.closed))

/-- The second half opens fresh events, the most confident ones first. -/
def openPhase (D : Digests) (settings : Settings) (watchlist : List String) (asOf : Datetime)
    (p : SleevePass) (b : Briefing) (live : List String) : Except TradingError SleevePass := do
  let events ← detectNewsEvents D p.store asOf watchlist settings.newsSleeveCountSurge
    settings.newsSleeveToneMin settings.newsSleeveBaselineDays
  return openLoop D settings asOf b
    (sortBy (fun ev : NewsEvent ↦ OrderDual.toDual ev.confidence) events) p live

def sleeveLimits (settings : Settings) : RiskLimits :=
  { maxPositionWeight := max (perName settings) settings.maxPositionWeight
    maxGrossExposure := settings.newsSleeveBudget
    maxNetExposure := settings.newsSleeveBudget }

def engine (settings : Settings) (limits : Option RiskLimits) (store : InMemoryBitemporalStore)
    (asOf : Datetime) : ExecutionEngine :=
  .fresh settings (limits.getD (sleeveLimits settings)) false store asOf

/-- One pass: ingest news, close the expired and the stopped, open fresh events, execute. -/
def runNewsSleeveCycle {β : Type} (D : Digests) (B : Broker β) (settings : Settings)
    (w : World β) (fetched : List Observation) (watchlist : List String)
    (limits : Option RiskLimits) (asOf : Datetime) :
    Except TradingError SleeveResult × World β :=
  let w₁ := { w with store := if fetched = [] then w.store else ingest D w.store fetched }
  match closePhase D settings w₁.store watchlist asOf with
  | .error err => (.error err, w₁)
  | .ok (p₁, b, live) =>
    match openPhase D settings watchlist asOf p₁ b live with
    | .error err => (.error err, { w₁ with store := p₁.store })
    | .ok p => executePass D B (engine settings limits p.store asOf) w₁ p b.prices asOf

end NewsSleeve

end MarketTrader.Runtime
