import MarketTrader.Backtest.Pit
import MarketTrader.Library.Stride
import MarketTrader.Memory.EventStudy
import MarketTrader.Memory.Taxonomy
import MarketTrader.Runtime.Sleeve
import MarketTrader.Storage.SqlAlchemyStore

namespace MarketTrader.Memory

open Library MarketTrader.Core Storage InMemoryBitemporalStore Backtest
open MarketTrader.Runtime (priceDataset)

/-! ### What the gate loads -/

def gateSince (now : Datetime) (lookbackDays : ℤ) : Datetime :=
  now - Timedelta.ofDays (lookbackDays + 120)

/-- The gate may run on this copy of the table. -/
def GateStore (s : SqlAlchemyBitemporalStore) (now : Datetime) (lookbackDays : ℤ)
    (mem : InMemoryBitemporalStore) : Prop :=
  ∃ read, s.Returns distantFuture { since := some (gateSince now lookbackDays) } read ∧
    mem = addMany .empty read

/-! ### The anchors -/

def studySchedule (dates : List Datetime) (stepDays : ℕ+) (minHistory : ℕ)
    (lookbackDays : Option ℤ) : List Datetime :=
  let schedule := stride dates minHistory stepDays
  match lookbackDays, dates.getLast? with
  | some n, some last => schedule.filter (last - Timedelta.ofDays n ≤ ·)
  | _, _ => schedule

/-- What makes two sightings one event. -/
abbrev AnchorKey := String × EventType × Datetime

def Event.key (ev : Event) : AnchorKey := (ev.entityId, ev.eventType, ev.knowledgeTime)

abbrev AnchorsByType := Dict EventType (List (String × Datetime))

structure Anchors where
  seen : List AnchorKey := []
  byType : AnchorsByType := .empty

namespace Anchors

def note (a : Anchors) (key : AnchorKey) : Anchors :=
  if key ∈ a.seen then a
  else
    { seen := key :: a.seen
      byType := Dict.set a.byType key.2.1
        (Dict.getD a.byType key.2.1 [] ++ [(key.1, key.2.2)]) }

def scan (store : InMemoryBitemporalStore) (a : Anchors) (asOf : Datetime) : Anchors :=
  (detectEvents store asOf 3 30).foldl (fun a ev ↦ a.note ev.key) a

end Anchors

/-- The anchors of each type as the sweep finds them, and the returns of the whole panel. -/
def collectAnchors (store : InMemoryBitemporalStore) (stepDays : ℕ+) (minHistory : ℕ)
    (lookbackDays : Option ℤ) : Except PriceError (AnchorsByType × PriceFrame) := do
  let panel ← observationsToPriceFrame
    (store.asOf distantFuture { dataset := some priceDataset }) "close"
  if panel.isEmpty then return (.empty, panel)
  let schedule := studySchedule panel.index stepDays minHistory lookbackDays
  return ((schedule.foldl (Anchors.scan store) {}).byType, returnsPanel panel)

/-! ### The placebo -/

def EventType.value : EventType → String
  | .earningsBeat => "earnings_beat"
  | .earningsMiss => "earnings_miss"
  | .cpiSurprise => "cpi_surprise"
  | .fedSurprise => "fed_surprise"
  | .guidanceChange => "guidance_change"
  | .mAndA => "m_and_a"
  | .regulatoryAction => "regulatory_action"
  | .geopoliticalShock => "geopolitical_shock"
  | .insiderClusterBuy => "insider_cluster_buy"
  | .leadershipCongressTrade => "leadership_congress_trade"
  | .newsSentimentSpike => "news_sentiment_spike"

def studyPanel (returns : PriceFrame) : Panel where
  index := returns.index
  sorted := returns.sorted
  columns := returns.names
  nodup := returns.columns.nodup
  cell name t := (Dict.get? returns.columns name).bind (Frame.cellAt returns.index · t)

structure PlaceboResult where
  label : String
  nEvents : ℕ
  nPermutations : ℕ
  observedMeanCar : ℚ
  placeboMean : ℚ
  pValue : ℚ

def PlaceboResult.significant (r : PlaceboResult) (alpha : ℚ) : Bool :=
  1 < r.nEvents ∧ 0 < r.observedMeanCar ∧ r.pValue ≤ alpha

/-- What the statistics rest on: least squares, and the seeded generator, which gives for two
bounds its draws in turn. -/
structure Statistics where
  lstsq : List ℚ → List ℚ → ℚ × ℚ
  integers : ℤ → ℤ → ℕ → ℕ

/-- The same names on random bars: one mean for each permutation that has a CAR. -/
def placeboMeans (S : Statistics) (entities : List String) (panel : Panel) (label : String)
    (w : StudyWindow) (lo hi : ℤ) (nPermutations : ℕ) : List ℚ :=
  (List.range nPermutations).filterMap (fun i ↦
    let fake := entities.zipIdx.map (fun e ↦
      (e.1, panel.index.getD (S.integers lo (hi + 1) (i * entities.length + e.2)) 0))
    let d := aggregateEventStudy S.lstsq fake panel none label w
    if 0 < d.n then some d.meanCar else none)

def placeboEventStudy (S : Statistics) (events : List (String × Datetime)) (panel : Panel)
    (label : String) (w : StudyWindow) (nPermutations : ℕ) : PlaceboResult :=
  let observed := aggregateEventStudy S.lstsq events panel none label w
  let lo : ℤ := w.estimationDays + w.gapDays
  let hi : ℤ := panel.index.length - w.post - 1
  if observed.n < 2 ∨ hi ≤ lo then ⟨label, observed.n, 0, observed.meanCar, 0, 1⟩
  else
    let placebo := placeboMeans S (events.map Prod.fst) panel label w lo hi nPermutations
    if placebo = [] then ⟨label, observed.n, 0, observed.meanCar, 0, 1⟩
    else
      { label := label
        nEvents := observed.n
        nPermutations := placebo.length
        observedMeanCar := observed.meanCar
        placeboMean := placebo.sum / placebo.length
        pValue := (1 + (placebo.filter (observed.meanCar ≤ ·)).length) / (1 + placebo.length) }

def runEventStudyWithPlacebo (S : Statistics) (store : InMemoryBitemporalStore) (stepDays : ℕ+)
    (postDays minHistory nPermutations : ℕ) (lookbackDays : Option ℤ) :
    Except PriceError (List (EventOutcomeDistribution × PlaceboResult)) := do
  let (anchorsByType, returns) ← collectAnchors store stepDays minHistory lookbackDays
  if returns.isEmpty then return []
  let panel := studyPanel returns
  let w : StudyWindow := { post := postDays }
  let paired := anchorsByType.toList.map (fun a ↦
    (aggregateEventStudy S.lstsq a.2 panel none a.1.value w,
      placeboEventStudy S a.2 panel a.1.value w nPermutations))
  return sortBy (fun d ↦ OrderDual.toDual d.1.n) paired

/-- The types that the gate opens, of the store that `_gate_store` has made. -/
def significantEventTypes (S : Statistics) (store : InMemoryBitemporalStore) (stepDays : ℕ+)
    (postDays : ℕ) (alpha : ℚ) (nPermutations : ℕ) (lookbackDays : Option ℤ) :
    Except PriceError (Dict String EventOutcomeDistribution) := do
  let paired ← runEventStudyWithPlacebo S store stepDays postDays 60 nPermutations lookbackDays
  let opened := paired.filter (fun d ↦ d.2.significant alpha && decide (0 < d.1.meanCar))
  return .ofList (opened.map (fun d ↦ (d.1.label, d.1)))

end MarketTrader.Memory
