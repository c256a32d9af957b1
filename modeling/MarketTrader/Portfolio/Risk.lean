import MarketTrader.Library.Keyed
import Mathlib.Algebra.Order.Field.Rat
import Mathlib.Algebra.BigOperators.Group.List.Basic
import Mathlib.Data.List.Dedup
import Mathlib.Tactic.Linarith

namespace MarketTrader.Portfolio

open Library

abbrev Weights := Dict String ℚ

structure RiskLimits where
  maxPositionWeight : ℚ := 1 / 10
  maxGrossExposure : ℚ := 1
  maxNetExposure : ℚ := 1
  maxSectorWeight : ℚ := 3 / 10

inductive RiskLimitBreach
  | position (symbol : String) (weight limit : ℚ)
  | gross (gross limit : ℚ)
  | net (net limit : ℚ)

def grossOf (w : Weights) : ℚ := (w.toList.map (|·.2|)).sum

def netOf (w : Weights) : ℚ := (w.toList.map (·.2)).sum

def checkOrder (symbol : String) (targetWeight : ℚ) (currentWeights : Weights)
    (limits : RiskLimits) : Option RiskLimitBreach :=
  if limits.maxPositionWeight + 1 / 10 ^ 9 < |targetWeight| then
    some (.position symbol targetWeight limits.maxPositionWeight)
  else
    let proposed := Dict.set currentWeights symbol targetWeight
    if limits.maxGrossExposure + 1 / 10 ^ 9 < grossOf proposed then
      some (.gross (grossOf proposed) limits.maxGrossExposure)
    else if limits.maxNetExposure + 1 / 10 ^ 9 < |netOf proposed| then
      some (.net (netOf proposed) limits.maxNetExposure)
    else none

/-! ### Target portfolios -/

/-- Bounded from both sides. The bounds are put in order first. -/
def clip (lower upper x : ℚ) : ℚ := min (max lower upper) (max (min lower upper) x)

def exposureOf (p : String → ℚ → Bool) (w : Weights) : ℚ :=
  ((w.toList.filter (fun a ↦ p a.1 a.2)).map (|·.2|)).sum

def clipPositions (limits : RiskLimits) (w : Weights) : Weights :=
  Dict.mapVals (fun _ v ↦ clip (-limits.maxPositionWeight) limits.maxPositionWeight v) w

def capExposure (p : String → Bool) (cap : ℚ) (w : Weights) : Weights :=
  let exposure := exposureOf (fun k _ ↦ p k) w
  if cap < exposure ∧ 0 < exposure then
    Dict.mapVals (fun k v ↦ if p k then v * (cap / exposure) else v) w
  else w

def capGross (limits : RiskLimits) : Weights → Weights :=
  capExposure (fun _ ↦ true) limits.maxGrossExposure

def capSector (limits : RiskLimits) (sectors : Dict String String) (w : Weights)
    (sector : String) : Weights :=
  capExposure (fun k ↦ Dict.get? sectors k = some sector) limits.maxSectorWeight w

/-- The sectors have no members in common, so their order does not matter. -/
def capSectors (limits : RiskLimits) (sectors : Option (Dict String String)) (w : Weights) :
    Weights :=
  match sectors with
  | none => w
  | some sectors => (sectors.toList.map Prod.snd).dedup.foldl (capSector limits sectors) w

def dominant (net v : ℚ) : Bool := if 0 < net then 0 < v else v < 0

/-- Trims the dominant side toward neutral. -/
def capNet (limits : RiskLimits) (w : Weights) : Weights :=
  let net := netOf w
  if limits.maxNetExposure + 1 / 10 ^ 12 < |net| then
    let domGross := exposureOf (fun _ v ↦ dominant net v) w
    if 0 < domGross then
      Dict.mapVals (fun _ v ↦
        if dominant net v then v * (1 - (|net| - limits.maxNetExposure) / domGross) else v) w
    else w
  else w

/-- Clips the weights per name, then scales them to the exposure caps. -/
def applyRiskLimits (weights : Weights) (limits : RiskLimits)
    (sectors : Option (Dict String String)) : Weights :=
  (capNet limits (capSectors limits sectors (capGross limits (clipPositions limits weights)))).filter
    (·.2 ≠ 0)

/-- Trips, and stays tripped, once the drawdown from the peak crosses the threshold. -/
structure DrawdownCircuitBreaker where
  maxDrawdown : ℚ := 1 / 5
  peak : Option ℚ := none
  tripped : Bool := false
deriving DecidableEq

namespace DrawdownCircuitBreaker

def seed (b : DrawdownCircuitBreaker) (peak : Option ℚ) (tripped : Bool) :
    DrawdownCircuitBreaker :=
  { b with peak := peak, tripped := tripped }

def raisePeak (b : DrawdownCircuitBreaker) (equity : ℚ) : ℚ :=
  match b.peak with
  | none => equity
  | some p => max p equity

def update (b : DrawdownCircuitBreaker) (equity : ℚ) : DrawdownCircuitBreaker :=
  let peak := b.raisePeak equity
  { b with
    peak := some peak
    tripped := b.tripped || decide (0 < peak ∧ equity / peak - 1 ≤ -b.maxDrawdown) }

def reset (b : DrawdownCircuitBreaker) : DrawdownCircuitBreaker :=
  { b with peak := none, tripped := false }

@[simp] theorem maxDrawdown_update (b : DrawdownCircuitBreaker) (equity : ℚ) :
    (b.update equity).maxDrawdown = b.maxDrawdown := rfl

@[simp] theorem peak_update (b : DrawdownCircuitBreaker) (equity : ℚ) :
    (b.update equity).peak = some (b.raisePeak equity) := rfl

theorem tripped_update_of_tripped {b : DrawdownCircuitBreaker} (h : b.tripped) (equity : ℚ) :
    (b.update equity).tripped := by
  simp [update, h]

theorem raisePeak_pos {b : DrawdownCircuitBreaker} {equity : ℚ} (h : 0 < equity) :
    0 < b.raisePeak equity := by
  unfold raisePeak
  split
  · exact h
  · exact lt_max_of_lt_right h

end DrawdownCircuitBreaker

end MarketTrader.Portfolio
