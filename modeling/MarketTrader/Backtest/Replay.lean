import MarketTrader.Backtest.Engine
import MarketTrader.Runtime.Learning

namespace MarketTrader.Backtest

open Library MarketTrader.Core Storage InMemoryBitemporalStore Portfolio Features
  MarketTrader.Runtime

inductive ReplayError
  | noData
  | noReturns
  | price (e : PriceError)
  | feature (e : FeatureError)
  | learning (e : LearningError)

def ReplayError.text : ReplayError → Option String
  | noData => some "replay needs price data and at least two rebalance dates"
  | noReturns => some "replay produced no returns (check schedule/horizon vs history length)"
  | price _ | feature _ | learning _ => none

structure ReplaySetup where
  symbols : List String
  schedule : List Datetime
  features : List Feature
  horizonDays : ℤ := 21
  targetVol : ℚ := 1 / 10
  limits : RiskLimits := {}
  tiltStrength : ℚ := 1
  minAbsIc : ℚ := 1 / 50
  modelVersion : String := "replay"

/-- What the system has learnt so far, and what is not yet revealed to it. -/
structure Learner where
  store : InMemoryBitemporalStore
  hidden : List Observation

structure Decision where
  t : Datetime
  ic : Weights
  book : Weights

structure ReplayResult where
  equityCurve : List (Datetime × ℚ)
  netReturns : List (Datetime × ℚ)
  icHistory : List (Datetime × Weights)

section Replay

variable (N : Numerics) (D : Digests) (setup : ReplaySetup) (full : PriceFrame)

def Learner.reveal (s : Learner) (t : Datetime) : Learner where
  store := addMany s.store (s.hidden.takeWhile (·.knowledgeTime ≤ t))
  hidden := s.hidden.dropWhile (·.knowledgeTime ≤ t)

/-- The scores of a cross-section, under the graded IC where there is one. -/
def replayScores (ic : Weights) (matrix : FeatureMatrix) : List (String × ℚ) :=
  if matrix.isEmpty then []
  else
    let scores :=
      if ic.toList = [] then compositeScorer N.sqrt matrix
      else icWeightedScorer N.sqrt ic setup.minAbsIc matrix
    scores.filterMap (fun p ↦ p.2.map (fun q ↦ (p.1, q)))

/-- Grades, re-weights, scores and logs anew: what the system has learnt at `t`. -/
def learn (t : Datetime) (s : Learner) :
    Except ReplayError (Learner × Weights × List (String × ℚ)) :=
  let s := s.reveal t
  match computeMatrix setup.features s.store t (sortedDistinct setup.symbols) with
  | .error e => .error (.feature e)
  | .ok matrix =>
    match gradePredictions N.sqrt s.store t setup.horizonDays (some setup.modelVersion)
      setup.minAbsIc with
    | .error e => .error (.learning e)
    | .ok graded =>
      let ranked := replayScores N setup graded.ic matrix
      let store := logCyclePredictions D s.store ranked matrix t setup.modelVersion
        setup.horizonDays
      .ok (⟨store, s.hidden⟩, graded.ic, ranked)

def replayBook (t : Datetime) (ranked : List (String × ℚ)) : Weights :=
  sizeBook N ((full.diff pctChange).upTo t) setup.targetVol setup.limits
    (if 0 < setup.tiltStrength then some (ranked.map (fun p ↦ (p.1, some p.2))) else none)
    setup.tiltStrength

/-- The returns of one holding period, the turnover cost taken off its first bar. An empty book has
none. -/
def piece (t tNext : Datetime) (w : Weights) (cost : ℚ) : List (Datetime × ℚ) :=
  if w.toList = [] then []
  else
    match window full.index t tNext with
    | [] => []
    | first :: bars =>
      (first, bookReturn (full.diff pctChange) w first - cost) ::
        bars.map (fun bar ↦ (bar, bookReturn (full.diff pctChange) w bar))

structure ReplayBooks where
  prevW : Weights := .empty
  pieces : List (Datetime × ℚ) := []
  icRows : Dict Datetime Weights := .empty

def ReplayBooks.account (costModel : CostModel) (d : Decision) (tNext : Datetime)
    (s : ReplayBooks) : ReplayBooks where
  prevW := d.book
  pieces := s.pieces ++ piece full d.t tNext d.book (costModel.turnoverCost s.prevW d.book)
  icRows := if d.ic.toList = [] then s.icRows else Dict.set s.icRows d.t d.ic

def replayAll (costModel : CostModel) (last : Datetime) :
    List Datetime → Learner → ReplayBooks → Except ReplayError ReplayBooks
  | [], _, books => .ok books
  | t :: rest, s, books =>
    match learn N D setup t s with
    | .error e => .error e
    | .ok (s', ic, ranked) =>
      replayAll costModel last rest s'
        (books.account full costModel ⟨t, ic, replayBook N setup full t ranked⟩
          (rest.head?.getD last))

end Replay

def replayPanel (observations : List Observation) (symbols : List String) :
    Except ReplayError PriceFrame :=
  match observationsToPriceFrame (observations.filter (·.dataset = priceDataset)) "close" with
  | .error e => .error (.price e)
  | .ok full =>
    let full := full.select symbols
    if full.isEmpty then .error .noData else .ok full

/-- Everything is hidden at first, in the order in which it becomes knowable. -/
def Learner.start (observations : List Observation) : Learner where
  store := .empty
  hidden := sortBy Observation.knowledgeTime observations

def replayLearning (N : Numerics) (D : Digests) (observations : List Observation)
    (setup : ReplaySetup) (costModel : Option CostModel) : Except ReplayError ReplayResult :=
  let rebalances := sortBy id setup.schedule
  match replayPanel observations setup.symbols with
  | .error e => .error e
  | .ok full =>
    if rebalances.length < 2 then .error .noData
    else
      let costModel := costModel.getD ({} : BasicCostModel).model
      let last := full.index.getLast?.getD 0
      match replayAll N D setup full costModel last rebalances (.start observations) {} with
      | .error e => .error e
      | .ok books =>
        let net := sortBy Prod.fst books.pieces
        if net = [] then .error .noReturns
        else
          .ok
            { equityCurve := cumprod 1 net
              netReturns := net
              icHistory := sortBy Prod.fst books.icRows.toList }

/-! ### Decisions and accounts -/

section Split

variable {N : Numerics} {D : Digests} {setup : ReplaySetup} {full : PriceFrame}
  {costModel : CostModel} {last : Datetime}

def decideAll (N : Numerics) (D : Digests) (setup : ReplaySetup) (full : PriceFrame) :
    List Datetime → Learner → Except ReplayError (List Decision)
  | [], _ => .ok []
  | t :: rest, s =>
    match learn N D setup t s with
    | .error e => .error e
    | .ok (s', ic, ranked) =>
      (decideAll N D setup full rest s').map
        (fun decisions ↦ ⟨t, ic, replayBook N setup full t ranked⟩ :: decisions)

def accountAll (full : PriceFrame) (costModel : CostModel) (last : Datetime) :
    List Decision → ReplayBooks → ReplayBooks
  | [], books => books
  | d :: rest, books =>
    accountAll full costModel last rest
      (books.account full costModel d ((rest.head?.map Decision.t).getD last))

theorem decideAll_times {ts : List Datetime} {s : Learner} {decisions : List Decision}
    (h : decideAll N D setup full ts s = .ok decisions) : decisions.map Decision.t = ts := by
  induction ts generalizing s decisions with
  | nil =>
    cases h
    rfl
  | cons t rest ih =>
    rw [decideAll] at h
    split at h
    · cases h
    · next s' ic ranked hl =>
      cases hd : decideAll N D setup full rest s' with
      | error e => simp [hd, Except.map] at h
      | ok later =>
        rw [hd] at h
        cases h
        rw [List.map_cons, ih hd]

/-- The walk decides, and accounts for what it decided: the accounts do not reach the decisions. -/
theorem replayAll_eq (ts : List Datetime) (s : Learner) (books : ReplayBooks) :
    replayAll N D setup full costModel last ts s books =
      (decideAll N D setup full ts s).map
        (fun decisions ↦ accountAll full costModel last decisions books) := by
  induction ts generalizing s books with
  | nil => rfl
  | cons t rest ih =>
    rw [replayAll, decideAll]
    cases hl : learn N D setup t s with
    | error e => rfl
    | ok r =>
      obtain ⟨s', ic, ranked⟩ := r
      dsimp only
      rw [ih]
      cases hd : decideAll N D setup full rest s' with
      | error e => rfl
      | ok decisions =>
        have ht : (decisions.head?.map Decision.t) = rest.head? := by
          rw [← decideAll_times hd, List.head?_map]
        simp only [Except.map, accountAll, ht]

end Split

end MarketTrader.Backtest
