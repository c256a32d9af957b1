import MarketTrader.Features.Technical
import MarketTrader.Runtime.Sleeve

namespace MarketTrader.Runtime

open Library MarketTrader.Core Storage Backtest Features

/-- The values of a feature at a decision date: from the rows of the panel where it can be computed
from them, else from the store. -/
def signalColumn (panel : PriceFrame) (store : InMemoryBitemporalStore) (d : Datetime)
    (symbols : List String) (f : Feature) : Except FeatureError Scores :=
  match f.fromPanel with
  | some fromPanel => fromPanel (panel.upTo d) symbols
  | none => f.compute store d symbols

inductive PriceFeature (sqrt : ℚ → ℚ) : Feature → Prop
  | momentum (lookback skip : ℤ) :
    PriceFeature sqrt (Momentum.feature ⟨lookback, skip, priceDataset⟩)
  | meanReversion (lookback : ℤ) :
    PriceFeature sqrt (MeanReversion.feature ⟨lookback, priceDataset⟩)
  | volatility (window : ℤ) (lowVol : Bool) :
    PriceFeature sqrt (Volatility.feature sqrt ⟨window, lowVol, priceDataset⟩)

end MarketTrader.Runtime
