import MarketTrader.Library.Falls
import MarketTrader.Library.Frame
import Mathlib.Analysis.SpecialFunctions.Pow.Real

namespace MarketTrader.Backtest

open Library

def tradingDays : ℕ := 252

/-- The irrational operations of the numeric library. -/
structure Powers (K : Type) where
  sqrt : K → K
  pow : K → K → K

section Metrics

variable {K : Type}

def clean (x : Column K) : List K := x.reduceOption

@[simp] theorem clean_nil : clean ([] : Column K) = [] := rfl

@[simp] theorem clean_map_some (xs : List K) : clean (xs.map some) = xs := by
  induction xs with
  | nil => rfl
  | cons x xs ih => exact congrArg (x :: ·) ih

@[simp] theorem clean_cons_some (x : K) (returns : Column K) :
    clean (some x :: returns) = x :: clean returns := rfl

variable [Field K] [LinearOrder K]

/-- A quotient by zero is not a number, nor is what is computed from it. -/
def divide (x y : K) : Option K := if y = 0 then none else some (x / y)

def mean (xs : List K) : Option K := divide xs.sum xs.length

/-- The standard deviation with one degree of freedom less. -/
def sampleStd (P : Powers K) (xs : List K) : Option K := do
  let m ← mean xs
  let v ← divide ((xs.map (fun x ↦ (x - m) ^ 2)).sum) ((xs.length : K) - 1)
  return P.sqrt v

variable (P : Powers K) (periodsPerYear : ℕ) (rf : K)

def annualizedReturn (returns : Column K) : Option K :=
  let r := clean returns
  if r = [] then some 0
  else
    let total := (r.map (1 + ·)).prod
    if total ≤ 0 then some (-1)
    else do
      let years ← divide (periodsPerYear : K) r.length
      return P.pow total years - 1

def annualizedVol (returns : Column K) : Option K :=
  let r := clean returns
  if r.length < 2 then some 0
  else do return (← sampleStd P r) * P.sqrt periodsPerYear

def sharpeRatio (returns : Column K) : Option K :=
  let r := clean returns
  if r.length < 2 then some 0
  else do
    let rate ← divide rf periodsPerYear
    let excess := r.map (· - rate)
    let sd ← sampleStd P excess
    if sd = 0 then return 0
    return (← divide (← mean excess) sd) * P.sqrt periodsPerYear

def sortinoRatio (returns : Column K) : Option K :=
  let r := clean returns
  if r.length < 2 then some 0
  else do
    let rate ← divide rf periodsPerYear
    let excess := r.map (· - rate)
    let downside := excess.filter (· < 0)
    if downside = [] then return 0
    let dd := P.sqrt (← mean (downside.map (· ^ 2)))
    if dd = 0 then return 0
    return (← divide (← mean excess) dd) * P.sqrt periodsPerYear

/-- The compounded equity after each return. -/
def equityFrom (acc : K) : List K → List K
  | [] => []
  | r :: rs => acc * (1 + r) :: equityFrom (acc * (1 + r)) rs

def drawdown (equity peak : K) : Option K := (divide equity peak).map (· - 1)

/-- The most negative peak-to-trough of the compounded equity curve. -/
def maxDrawdown (returns : Column K) : Option K :=
  let r := clean returns
  if r = [] then some 0
  else do
    let equity := equityFrom 1 r
    let peak := runningMax equity
    let drawdowns ← (equity.zip peak).mapM (fun p ↦ drawdown p.1 p.2)
    drawdowns.min?

def calmarRatio (returns : Column K) : Option K := do
  let mdd ← maxDrawdown returns
  if mdd = 0 then return 0
  divide (← annualizedReturn P periodsPerYear returns) |mdd|

def hitRate (returns : Column K) : Option K :=
  let r := clean returns
  if r = [] then some 0
  else mean (r.map (fun x ↦ if 0 < x then 1 else 0))

structure PerformanceSummary (K : Type) where
  nPeriods : ℕ
  annReturn : Option K
  annVol : Option K
  sharpe : Option K
  sortino : Option K
  calmar : Option K
  maxDrawdown : Option K
  hitRate : Option K
  avgTurnover : Option K

def summarize (returns : Column K) (turnover : Option (Column K)) : PerformanceSummary K :=
  let r := (clean returns).map some
  { nPeriods := r.length
    annReturn := annualizedReturn P periodsPerYear r
    annVol := annualizedVol P periodsPerYear r
    sharpe := sharpeRatio P periodsPerYear rf r
    sortino := sortinoRatio P periodsPerYear rf r
    calmar := calmarRatio P periodsPerYear r
    maxDrawdown := maxDrawdown r
    hitRate := hitRate r
    avgTurnover :=
      match turnover with
      | none => some 0
      | some turnover => if clean turnover = [] then some 0 else mean (clean turnover) }

/-- Each field of the summary is a number. -/
structure PerformanceSummary.IsNumber (s : PerformanceSummary K) : Prop where
  annReturn : s.annReturn.isSome
  annVol : s.annVol.isSome
  sharpe : s.sharpe.isSome
  sortino : s.sortino.isSome
  calmar : s.calmar.isSome
  maxDrawdown : s.maxDrawdown.isSome
  hitRate : s.hitRate.isSome
  avgTurnover : s.avgTurnover.isSome

variable {P periodsPerYear rf} {x y : K} {xs : List K} {returns : Column K}

@[simp] theorem divide_isSome : (divide x y).isSome ↔ y ≠ 0 := by
  unfold divide
  split <;> simp_all

theorem divide_of_ne (hy : y ≠ 0) : divide x y = some (x / y) := if_neg hy

variable [IsStrictOrderedRing K]

@[simp] theorem mean_isSome : (mean xs).isSome ↔ xs ≠ [] := by
  simp [mean]

theorem sampleStd_isSome (h : 2 ≤ xs.length) : (sampleStd P xs).isSome := by
  have hn : xs ≠ [] := by
    rintro rfl
    simp at h
  have hd : (xs.length : K) - 1 ≠ 0 := by
    have h1 : (2 : K) ≤ xs.length := by exact_mod_cast h
    linarith
  obtain ⟨m, hm⟩ := Option.isSome_iff_exists.mp (mean_isSome.mpr hn)
  simp only [sampleStd, hm, divide_of_ne hd]
  rfl

theorem annualizedReturn_isSome : (annualizedReturn P periodsPerYear returns).isSome := by
  unfold annualizedReturn
  dsimp only
  split
  · rfl
  · next hr =>
    have hn : ((clean returns).length : K) ≠ 0 := by
      rw [Nat.cast_ne_zero]
      exact fun h ↦ hr (List.length_eq_zero_iff.mp h)
    split
    · rfl
    · rw [divide_of_ne hn]
      rfl

theorem annualizedVol_isSome : (annualizedVol P periodsPerYear returns).isSome := by
  unfold annualizedVol
  dsimp only
  split
  · rfl
  · next hr =>
    have hstd : (sampleStd P (clean returns)).isSome := sampleStd_isSome (not_lt.mp hr)
    obtain ⟨sd, hsd⟩ := Option.isSome_iff_exists.mp hstd
    rw [hsd]
    rfl

theorem sharpeRatio_isSome (hp : 1 ≤ periodsPerYear) :
    (sharpeRatio P periodsPerYear rf returns).isSome := by
  unfold sharpeRatio
  dsimp only
  split
  · rfl
  · next hr =>
    have hp' : (periodsPerYear : K) ≠ 0 := Nat.cast_ne_zero.mpr (by omega)
    rw [divide_of_ne hp']
    set excess := (clean returns).map (· - rf / periodsPerYear) with he
    have hlen : 2 ≤ excess.length := by
      rw [he, List.length_map]
      exact not_lt.mp hr
    have hne : excess ≠ [] := by
      intro h
      rw [h] at hlen
      simp at hlen
    have hstd : (sampleStd P excess).isSome := sampleStd_isSome hlen
    obtain ⟨sd, hsd⟩ := Option.isSome_iff_exists.mp hstd
    obtain ⟨m, hm⟩ := Option.isSome_iff_exists.mp (mean_isSome.mpr hne)
    simp only [Option.bind_eq_bind, Option.bind_some, ← he, hsd, hm]
    split
    · rfl
    · next h0 =>
      rw [divide_of_ne h0]
      rfl

theorem sortinoRatio_isSome (hp : 1 ≤ periodsPerYear) :
    (sortinoRatio P periodsPerYear rf returns).isSome := by
  unfold sortinoRatio
  dsimp only
  split
  · rfl
  · next hr =>
    have hp' : (periodsPerYear : K) ≠ 0 := Nat.cast_ne_zero.mpr (by omega)
    rw [divide_of_ne hp']
    set excess := (clean returns).map (· - rf / periodsPerYear) with he
    have hne : excess ≠ [] := by
      intro h
      rw [he, List.map_eq_nil_iff] at h
      rw [h] at hr
      simp at hr
    obtain ⟨m, hm⟩ := Option.isSome_iff_exists.mp (mean_isSome.mpr hne)
    simp only [Option.bind_eq_bind, Option.bind_some, ← he, hm]
    split
    · rfl
    · next hdown =>
      have hsq : (excess.filter (· < 0)).map (· ^ 2) ≠ [] := by
        rwa [Ne, List.map_eq_nil_iff]
      obtain ⟨v, hv⟩ := Option.isSome_iff_exists.mp (mean_isSome.mpr hsq)
      simp only [hv, Option.bind_some]
      split
      · rfl
      · next h0 =>
        rw [divide_of_ne h0]
        rfl

theorem calmarRatio_isSome :
    (calmarRatio P periodsPerYear returns).isSome ↔ (maxDrawdown returns).isSome := by
  unfold calmarRatio
  cases hm : maxDrawdown returns with
  | none => rfl
  | some mdd =>
    have hyears : (annualizedReturn P periodsPerYear returns).isSome := annualizedReturn_isSome
    obtain ⟨a, ha⟩ := Option.isSome_iff_exists.mp hyears
    simp only [Option.bind_eq_bind, Option.bind_some, ha, Option.isSome_some, iff_true]
    split
    · rfl
    · next h0 => exact divide_isSome.mpr (abs_ne_zero.mpr h0)

theorem hitRate_isSome : (hitRate returns).isSome := by
  unfold hitRate
  dsimp only
  split
  · rfl
  · next hr =>
    rw [mean_isSome, Ne, List.map_eq_nil_iff]
    exact hr

/-- Only the drawdown can divide by zero. -/
theorem summarize_isNumber (hp : 1 ≤ periodsPerYear) {turnover : Option (Column K)} :
    (summarize P periodsPerYear rf returns turnover).IsNumber ↔
      (maxDrawdown ((clean returns).map some)).isSome := by
  constructor
  · exact fun h ↦ h.maxDrawdown
  · intro h
    refine ⟨annualizedReturn_isSome, annualizedVol_isSome, sharpeRatio_isSome hp,
      sortinoRatio_isSome hp, calmarRatio_isSome.mpr h, h, hitRate_isSome, ?_⟩
    cases turnover with
    | none => rfl
    | some turnover =>
      by_cases ht : clean turnover = []
      · simp [summarize, ht]
      · simp [summarize, ht]

end Metrics

end MarketTrader.Backtest
