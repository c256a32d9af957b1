import MarketTrader.Portfolio.Risk

namespace MarketTrader.Backtest

open Library Portfolio

/-- Sum of absolute weight changes: a full switch from one name to another counts both legs. -/
def oneWayTurnover (prev new : Weights) : ℚ :=
  ((prev.keys ++ new.keys).dedup.map (fun s ↦ |Dict.getD new s 0 - Dict.getD prev s 0|)).sum

/-- What a change of the book costs, and what it costs to hold one for a number of days. -/
structure CostModel where
  turnoverCost : Weights → Weights → ℚ
  holdingCost : Weights → ℤ → ℚ

structure BasicCostModel where
  commissionBps : ℚ := 1
  halfSpreadBps : ℚ := 2
  slippageBps : ℚ := 1

def BasicCostModel.model (m : BasicCostModel) : CostModel where
  turnoverCost prev new :=
    oneWayTurnover prev new * (m.commissionBps + m.halfSpreadBps + m.slippageBps) * (1 / 10 ^ 4)
  holdingCost _ _ := 0

end MarketTrader.Backtest
