import MarketTrader.Collectors.Feeds
import MarketTrader.Features.Technical
import MarketTrader.Runtime.LiveCycle

namespace MarketTrader.Runtime

open Library MarketTrader.Core Storage InMemoryBitemporalStore Config Portfolio Features Backtest
  Execution Collectors

/-- What an intraday pass gets from outside: the rows that its collector makes of the minute bars,
and whether the loop has built the clients already. -/
structure IntradayInputs where
  watchlist : List String
  bars : List Observation
  features : Option (List Feature) := none
  injected : Bool := true

namespace Intraday

/-- The technical features on minute bars: their lookbacks count minutes. -/
def intradayFeatures (N : Numerics) (settings : Settings) : List Feature :=
  [Momentum.feature
      { lookback := settings.intradayMomentumLookback, dataset := priceIntradayDataset },
    MeanReversion.feature
      { lookback := settings.intradayMeanrevLookback, dataset := priceIntradayDataset },
    Volatility.feature N.sqrt
      { window := settings.intradayVolWindow, dataset := priceIntradayDataset }]

def latestPrices (store : InMemoryBitemporalStore) (asOf : Datetime) :
    Except CycleError (Dict String ℚ) :=
  match StorePriceView.pricePanel ⟨store, asOf, priceIntradayDataset, "close"⟩ with
  | .error e => .error (.price e)
  | .ok panel =>
    if panel.isEmpty then .ok .empty
    else
      .ok (.ofList (panel.columns.toList.filterMap (fun c ↦
        (Column.ffill c.2).getLast?.join.map (fun q ↦ (c.1, q)))))

def options (N : Numerics) (settings : Settings) (inputs : IntradayInputs) : CycleOptions where
  features := inputs.features.getD (intradayFeatures N settings)
  topQuantile := settings.intradayTopQuantile
  maxPositions := if settings.maxPositions = 0 then none else some settings.maxPositions
  exitBandMultiple := settings.exitBandMultiple
  riskWeighting := settings.riskWeighting
  stopLossPct := settings.stopLossPct

end Intraday

/-- One intraday pass: minute bars land in their own dataset, and the book is scored and rebalanced
on them. It reserves no names. -/
def runIntradayCycle {β : Type} (N : Numerics) (D : Digests) (B : Broker β) (settings : Settings)
    (inputs : IntradayInputs) (w : World β) (asOf : Datetime) :
    Except CycleError CycleResult × World β :=
  match if inputs.injected then none else liveGate settings with
  | some e => (.error e, w)
  | none =>
    let w₁ := { w with store := ingest D w.store inputs.bars }
    match Intraday.latestPrices w₁.store asOf with
    | .error e => (.error e, w₁)
    | .ok prices =>
      runPaperCycle N D B settings (Intraday.options N settings inputs) w₁ asOf inputs.watchlist
        prices

end MarketTrader.Runtime
