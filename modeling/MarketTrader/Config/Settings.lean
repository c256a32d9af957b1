import Mathlib.Data.Rat.Defs

namespace MarketTrader.Config

inductive ExecutionMode
  | paper
  | live
deriving DecidableEq

/-- The settings that the trading passes read, with their defaults. -/
structure Settings where
  executionMode : ExecutionMode := .paper
  liveTradingEnabled : Bool := false
  /-- In live mode: compute orders but log only, submit nothing. -/
  liveDryRun : Bool := true
  maxGrossExposure : ℚ := 1
  maxNetExposure : ℚ := 1
  maxPositionWeight : ℚ := 1 / 10
  maxDrawdownHalt : ℚ := 1 / 5
  maxDailyLoss : ℚ := 2 / 25
  maxOrdersPerInterval : ℤ := 50
  capitalCeiling : ℚ := 1000
  fractionalShares : Bool := false
  rebalanceBand : ℚ := 0
  targetVol : ℚ := 1 / 10
  universeName : String := "liquid"
  maxPositions : ℤ := 20
  topQuantile : ℚ := 3 / 10
  exitBandMultiple : ℚ := 2
  riskWeighting : String := "inverse_vol"
  tiltStrength : ℚ := 0
  stopLossPct : ℚ := 0
  trailingStopPct : ℚ := 0
  thesisExitThreshold : ℚ := 0
  intradayTopQuantile : ℚ := 3 / 10
  intradayMomentumLookback : ℤ := 30
  intradayMeanrevLookback : ℤ := 10
  intradayVolWindow : ℤ := 30
  newsSleeveEnabled : Bool := false
  newsSleeveBudget : ℚ := 1 / 10
  newsSleeveMaxNames : ℤ := 5
  newsSleeveHoldDays : ℤ := 5
  newsSleeveCooldownDays : ℤ := 3
  newsSleeveMinConfidence : ℚ := 1 / 2
  newsSleeveLookbackMinutes : ℤ := 120
  newsSleeveCountSurge : ℚ := 3
  newsSleeveToneMin : ℚ := 3 / 2
  newsSleeveBaselineDays : ℤ := 14
  insiderSleeveEnabled : Bool := false
  insiderSleeveBudget : ℚ := 1 / 10
  insiderSleeveMaxNames : ℤ := 5
  insiderSleeveHoldDays : ℤ := 5
  scorer : String := "composite"
  icMinAbs : ℚ := 1 / 50
  newsEnabled : Bool := false
  insiderEnabled : Bool := false
  alpacaKeyId : Option String := none
  alpacaSecretKey : Option String := none
  alpacaPaper : Bool := true

namespace Settings

/-- Live order routing requires both explicit switches. -/
def liveAllowed (s : Settings) : Bool := s.executionMode = .live && s.liveTradingEnabled

end Settings

end MarketTrader.Config
