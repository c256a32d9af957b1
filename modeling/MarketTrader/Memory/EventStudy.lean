import MarketTrader.Core.Time
import MarketTrader.Library.Slice
import Mathlib.Algebra.Order.Field.Rat
import Mathlib.Algebra.BigOperators.Group.List.Basic
import Mathlib.Tactic.Linarith
import Mathlib.Tactic.Ring

namespace MarketTrader.Memory

open Library MarketTrader.Core

/-- A return series: bars in order of time, a missing value where there is no return. -/
structure Series where
  rows : List (Datetime × Option ℚ)
  sorted : (rows.map Prod.fst).Pairwise (· < ·)

namespace Series

def at? (s : Series) (t : Datetime) : Option ℚ :=
  (s.rows.find? (·.1 = t)).bind Prod.snd

def change (s : Series) (t : Datetime) (v : ℚ) : Series where
  rows := s.rows.map (fun r ↦ (r.1, if r.1 = t then r.2.map (fun _ ↦ v) else r.2))
  sorted := by
    have h : (s.rows.map (fun r ↦ (r.1, if r.1 = t then r.2.map (fun _ ↦ v) else r.2))).map Prod.fst
        = s.rows.map Prod.fst := by simp
    rw [h]
    exact s.sorted

end Series

structure Bar where
  time : Datetime
  s : ℚ
  m : ℚ
deriving DecidableEq

def align (stock market : Series) : List Bar :=
  stock.rows.filterMap (fun r ↦ r.2.bind fun s ↦ (market.at? r.1).map fun m ↦ ⟨r.1, s, m⟩)

structure MarketModel where
  alpha : ℚ
  beta : ℚ

def MarketModel.abnormal (model : MarketModel) (b : Bar) : ℚ :=
  b.s - (model.alpha + model.beta * b.m)

structure StudyWindow where
  estimationDays : ℕ := 60
  gapDays : ℕ := 5
  pre : ℕ := 0
  post : ℕ := 5

variable (lstsq : List ℚ → List ℚ → ℚ × ℚ)

def estimateMarketModel (stock market : List ℚ) : MarketModel :=
  ⟨(lstsq stock market).1, (lstsq stock market).2⟩

/-- The position of the last bar at or before the anchor, `-1` when there is none. -/
def anchorPos (df : List Bar) (anchor : Datetime) : ℤ :=
  (df.takeWhile (·.time ≤ anchor)).length - 1

def estimationWindow (df : List Bar) (anchor : Datetime) (w : StudyWindow) : List Bar :=
  let estEnd := anchorPos df anchor - w.gapDays
  iloc df (estEnd - w.estimationDays) estEnd

def eventWindow (df : List Bar) (anchor : Datetime) (w : StudyWindow) : List Bar :=
  iloc df (anchorPos df anchor - w.pre) (anchorPos df anchor + w.post + 1)

def modelOf (df : List Bar) (anchor : Datetime) (w : StudyWindow) : MarketModel :=
  let est := estimationWindow df anchor w
  estimateMarketModel lstsq (est.map (·.s)) (est.map (·.m))

def barsCar (df : List Bar) (anchor : Datetime) (w : StudyWindow) : Option ℚ :=
  if df = [] then none
  else
    let pos := anchorPos df anchor
    if pos < 0 then none
    else
      let estEnd := pos - w.gapDays
      let estStart := estEnd - w.estimationDays
      if estStart < 0 ∨ estEnd ≤ estStart ∨ df.length ≤ pos + w.post then none
      else some ((eventWindow df anchor w).map (modelOf lstsq df anchor w).abnormal).sum

/-- Cumulative abnormal return around the anchor, or none if the data is insufficient. -/
def eventCar (stock market : Series) (anchor : Datetime) (w : StudyWindow) : Option ℚ :=
  barsCar lstsq (align stock market) anchor w

/-- A panel of returns: one column a name, over common bars. -/
structure Panel where
  index : List Datetime
  sorted : index.Pairwise (· < ·)
  columns : List String
  nodup : columns.Nodup
  cell : String → Datetime → Option ℚ

namespace Panel

def series (p : Panel) (value : Datetime → Option ℚ) : Series where
  rows := p.index.map (fun t ↦ (t, value t))
  sorted := by
    have h : (p.index.map (fun t ↦ (t, value t))).map Prod.fst = p.index := by
      simp [Function.comp_def]
    rw [h]
    exact p.sorted

def column (p : Panel) (name : String) : Series := p.series (p.cell name)

def row (p : Panel) (t : Datetime) : List ℚ := p.columns.filterMap (p.cell · t)

/-- The equal-weight market: on each bar the mean of the returns there are. -/
def mean (p : Panel) : Series :=
  p.series (fun t ↦ if p.row t = [] then none else some ((p.row t).sum / (p.row t).length))

def change (p : Panel) (name : String) (t : Datetime) (v : ℚ) : Panel :=
  { p with cell := fun name' t' ↦
      if name' = name ∧ t' = t then (p.cell name' t').map (fun _ ↦ v) else p.cell name' t' }

end Panel

def studyCars (events : List (String × Datetime)) (panel : Panel) (marketReturns : Option Series)
    (w : StudyWindow) : List ℚ :=
  let market := marketReturns.getD panel.mean
  events.filterMap (fun ev ↦
    if ev.1 ∈ panel.columns then eventCar lstsq (panel.column ev.1) market ev.2 w else none)

structure EventOutcomeDistribution where
  label : String
  n : ℕ
  meanCar : ℚ
  sharePositive : ℚ

def aggregateEventStudy (events : List (String × Datetime)) (panel : Panel)
    (marketReturns : Option Series) (label : String) (w : StudyWindow) : EventOutcomeDistribution :=
  let cars := studyCars lstsq events panel marketReturns w
  if cars = [] then ⟨label, 0, 0, 0⟩
  else
    ⟨label, cars.length, cars.sum / cars.length, (cars.filter (0 < ·)).length / cars.length⟩

end MarketTrader.Memory
