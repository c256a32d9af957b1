import MarketTrader.Backtest.Costs
import MarketTrader.Backtest.Pit

namespace MarketTrader.Backtest

open Library MarketTrader.Core Storage InMemoryBitemporalStore Portfolio

/-- Maps a point-in-time view to a target book. -/
structure Strategy where
  name : String
  targetWeights : PointInTimeView → Datetime → Weights

inductive BacktestError
  | emptySchedule
  | noPriceData
  | price (e : PriceError)

def BacktestError.text : BacktestError → Option String
  | emptySchedule => some "schedule must be non-empty"
  | noPriceData => some "no price data in store"
  | price _ => none

structure BacktestResult where
  strategyName : String
  netReturns : List (Datetime × ℚ)
  grossReturns : List (Datetime × ℚ)
  equityCurve : List (Datetime × ℚ)
  turnover : List (Datetime × ℚ)

def restrict (names : Option (List String)) (panel : PriceFrame) : PriceFrame :=
  match names with
  | none => panel
  | some names => panel.select names

def backtestPanel (store : InMemoryBitemporalStore) (dataset priceField : String)
    (names : Option (List String)) : Except BacktestError PriceFrame :=
  match observationsToPriceFrame (store.asOf distantFuture { dataset := some dataset })
    priceField with
  | .error e => .error (.price e)
  | .ok panel =>
    let panel := restrict names panel
    if panel.isEmpty then .error .noPriceData else .ok panel

/-- The return of a book on one bar. A missing return counts as zero. -/
def bookReturn (returns : PriceFrame) (w : Weights) (bar : Datetime) : ℚ :=
  (returns.columns.toList.map
    (fun c ↦ (Frame.cellAt returns.index c.2 bar).getD 0 * Dict.getD w c.1 0)).sum

def window (index : List Datetime) (t tNext : Datetime) : List Datetime :=
  index.filter (fun bar ↦ t < bar ∧ bar ≤ tNext)

/-- What the walk over the rebalances has filled in so far. -/
structure BacktestBooks where
  prevW : Weights := .empty
  gross : Datetime → ℚ := fun _ ↦ 0
  costs : Datetime → ℚ := fun _ ↦ 0
  turnoverByDate : Dict Datetime ℚ := .empty

section Walk

variable (panel : PriceFrame) (strategy : Strategy) (costModel : CostModel)

def decided (t : Datetime) : Weights :=
  strategy.targetWeights (PanelPriceView.view ⟨panel, t⟩) t

def holdDays (t tNext : Datetime) : ℤ := max (Timedelta.days (tNext - t)) 0

def rebalanceAt (t tNext : Datetime) (s : BacktestBooks) : BacktestBooks :=
  let w := decided panel strategy t
  let cost := costModel.turnoverCost s.prevW w
  let returns := panel.diff pctChange
  let bars := window returns.index t tNext
  { prevW := w
    turnoverByDate := Dict.set s.turnoverByDate t (oneWayTurnover s.prevW w)
    gross := fun bar ↦ if bar ∈ bars then bookReturn returns w bar else s.gross bar
    costs := fun bar ↦
      if bars.head? = some bar then
        s.costs bar + (cost + costModel.holdingCost w (holdDays t tNext))
      else s.costs bar }

/-- Walks over the rebalances; the last book is held to the last bar. -/
def rebalanceAll (last : Datetime) : List Datetime → BacktestBooks → BacktestBooks
  | [], s => s
  | t :: rest, s =>
    rebalanceAll last rest (rebalanceAt panel strategy costModel t (rest.head?.getD last) s)

end Walk

def cumprod (acc : ℚ) : List (Datetime × ℚ) → List (Datetime × ℚ)
  | [] => []
  | (bar, r) :: rest => (bar, acc * (1 + r)) :: cumprod (acc * (1 + r)) rest

def runBacktest (store : InMemoryBitemporalStore) (strategy : Strategy) (schedule : List Datetime)
    (costModel : Option CostModel) (dataset : String) (priceField : String)
    (names : Option (List String)) : Except BacktestError BacktestResult :=
  match sortBy id schedule with
  | [] => .error .emptySchedule
  | first :: rest =>
    match backtestPanel store dataset priceField names with
    | .error e => .error e
    | .ok panel =>
      let costModel := costModel.getD ({} : BasicCostModel).model
      let last := panel.index.getLast?.getD first
      let books := rebalanceAll panel strategy costModel last (first :: rest) {}
      let active := panel.index.filter (first < ·)
      let net := active.map (fun bar ↦ (bar, books.gross bar - books.costs bar))
      .ok
        { strategyName := strategy.name
          netReturns := net
          grossReturns := active.map (fun bar ↦ (bar, books.gross bar))
          equityCurve := cumprod 1 net
          turnover := sortBy Prod.fst books.turnoverByDate.toList }

end MarketTrader.Backtest
