import MarketTrader.Features.Base
import MarketTrader.Library.Slice
import Mathlib.Data.List.ReduceOption

namespace MarketTrader.Features

open Library MarketTrader.Core Storage Backtest

def ofPrices (name dataset : String)
    (fromPanel : PriceFrame → List String → Except FeatureError Scores) : Feature where
  name := name
  compute store asOf symbols :=
    match StorePriceView.pricePanel ⟨store, asOf, dataset, "close"⟩ with
    | .ok panel => fromPanel panel symbols
    | .error e => .error (.price e)
  fromPanel := some fromPanel

def changeOf (i j : ℤ) (col : Column ℚ) : Option ℚ :=
  let p := Column.ffill col
  match (ilocAt p j).join, (ilocAt p i).join with
  | some prev, some cur => pctChange prev cur
  | _, _ => none

/-- The change between two rows of the panel. A row that is not there is an error. -/
def rowChange (panel : PriceFrame) (i j : ℤ) (symbols : List String) :
    Except FeatureError Scores :=
  if (ilocAt panel.index i).isNone ∨ (ilocAt panel.index j).isNone then .error .indexError
  else .ok (panel.each (changeOf i j) symbols)

structure Momentum where
  lookback : ℤ := 60
  /-- The most recent periods left out. -/
  skip : ℤ := 0
  dataset : String

namespace Momentum

def name (f : Momentum) : String :=
  "mom_" ++ toString f.lookback ++ if f.skip ≠ 0 then "_skip" ++ toString f.skip else ""

def fromPanel (f : Momentum) (panel : PriceFrame) (symbols : List String) :
    Except FeatureError Scores :=
  if panel.isEmpty ∨ (panel.index.length : ℤ) < f.lookback + 1 then .ok (missing symbols)
  else rowChange panel (-1 - f.skip) (-1 - f.lookback) symbols

def feature (f : Momentum) : Feature := ofPrices f.name f.dataset f.fromPanel

end Momentum

structure MeanReversion where
  lookback : ℤ := 5
  dataset : String

namespace MeanReversion

def name (f : MeanReversion) : String := "meanrev_" ++ toString f.lookback

/-- Recent losers come out ahead. -/
def fromPanel (f : MeanReversion) (panel : PriceFrame) (symbols : List String) :
    Except FeatureError Scores :=
  if panel.isEmpty ∨ (panel.index.length : ℤ) < f.lookback + 1 then .ok (missing symbols)
  else (rowChange panel (-1) (-1 - f.lookback) symbols).map (List.map (fun p ↦ (p.1, p.2.map (-·))))

def feature (f : MeanReversion) : Feature := ofPrices f.name f.dataset f.fromPanel

end MeanReversion

structure Volatility where
  window : ℤ := 20
  /-- Calm names rank high. -/
  lowVol : Bool := false
  dataset : String

namespace Volatility

def name (f : Volatility) : String :=
  (if f.lowVol then "lowvol" else "vol") ++ "_" ++ toString f.window

def score (sqrt : ℚ → ℚ) (f : Volatility) (returns : Column ℚ) : Option ℚ :=
  (std sqrt (tailOf f.window returns)).map (fun v ↦ if f.lowVol then -v else v)

def fromPanel (sqrt : ℚ → ℚ) (f : Volatility) (panel : PriceFrame) (symbols : List String) :
    Except FeatureError Scores :=
  if panel.isEmpty then .ok (missing symbols)
  else
    let returns := (panel.diff pctChange).tail
    if returns.isEmpty then .ok (missing symbols) else .ok (returns.each (f.score sqrt) symbols)

def feature (sqrt : ℚ → ℚ) (f : Volatility) : Feature :=
  ofPrices f.name f.dataset (f.fromPanel sqrt)

end Volatility

/-! ### Symbols without a price do not matter -/

theorem changeOf_eq_none {col : Column ℚ} (h : ∀ x ∈ col, x = none) (i j : ℤ) :
    changeOf i j col = none := by
  have hj : (ilocAt (Column.ffill col) j).join = none := by
    cases hc : ilocAt (Column.ffill col) j with
    | none => rfl
    | some x =>
      rw [Column.ffill_eq_none col h x (mem_of_ilocAt hc)]
      rfl
  simp only [changeOf, hj]

theorem std_eq_none {col : Column ℚ} (h : ∀ x ∈ col, x = none) (sqrt : ℚ → ℚ) :
    std sqrt col = none := by
  have hnil : col.reduceOption = [] := by
    rw [List.eq_nil_iff_forall_not_mem]
    intro x hx
    cases h _ (List.reduceOption_mem_iff.mp hx)
  rw [std, hnil]
  rfl

/-- The panel matters by the symbols that it knows a price of. -/
def ByKnown (fromPanel : PriceFrame → List String → Except FeatureError Scores) : Prop :=
  ∀ panel trimmed symbols, Trims panel trimmed → fromPanel panel symbols = fromPanel trimmed symbols

theorem rowChange_trims {panel trimmed : PriceFrame} (h : Trims panel trimmed) (i j : ℤ)
    (symbols : List String) : rowChange panel i j symbols = rowChange trimmed i j symbols := by
  have hi : trimmed.index = panel.index := h.index
  have he : panel.each (changeOf i j) symbols = trimmed.each (changeOf i j) symbols := by
    rw [← h.select, Frame.each_select]
    intro a ha hk
    exact changeOf_eq_none (Frame.eq_none_of_not_mem_known ha hk) i j
  rw [rowChange, rowChange, hi, he]

theorem Momentum.byKnown (f : Momentum) : ByKnown f.fromPanel := by
  intro panel trimmed symbols h
  have hi : trimmed.index = panel.index := h.index
  rw [fromPanel, fromPanel, h.isEmpty, hi, rowChange_trims h]

theorem MeanReversion.byKnown (f : MeanReversion) : ByKnown f.fromPanel := by
  intro panel trimmed symbols h
  have hi : trimmed.index = panel.index := h.index
  rw [fromPanel, fromPanel, h.isEmpty, hi, rowChange_trims h]

theorem Volatility.byKnown (sqrt : ℚ → ℚ) (f : Volatility) : ByKnown (f.fromPanel sqrt) := by
  intro panel trimmed symbols h
  rw [fromPanel, fromPanel, h.isEmpty]
  by_cases hp : panel.isEmpty
  · rw [if_pos hp, if_pos hp]
  · rw [if_neg hp, if_neg hp]
    have hsel : (trimmed.diff pctChange).tail = (panel.diff pctChange).tail.select panel.known := by
      rw [← h.select, Frame.diff_select, Frame.tail_select]
    have hcols : ∀ {g : PriceFrame}, g.isEmpty = false →
        ((g.diff pctChange).tail.isEmpty ↔ g.index.tail = []) := by
      intro g hg
      simp only [Frame.isEmpty, Bool.or_eq_false_iff, List.isEmpty_eq_false_iff] at hg
      simp only [Frame.isEmpty, Bool.or_eq_true, List.isEmpty_iff, Frame.tail, Frame.diff,
        Dict.toList_mapVals, List.map_eq_nil_iff, hg.2, or_false]
    have hp' : panel.isEmpty = false := by simpa using hp
    have hempty : (trimmed.diff pctChange).tail.isEmpty = (panel.diff pctChange).tail.isEmpty := by
      rw [Bool.eq_iff_iff, hcols hp', hcols (h.isEmpty.trans hp'), ← h.select]
      rfl
    have heach : (panel.diff pctChange).tail.each (f.score sqrt) symbols =
        (trimmed.diff pctChange).tail.each (f.score sqrt) symbols := by
      rw [hsel, Frame.each_select]
      intro a ha hk
      obtain ⟨b, hb, rfl⟩ := List.mem_map.mp ha
      obtain ⟨c, hc, rfl⟩ := List.mem_map.mp hb
      have hnone : ∀ x ∈ tailOf f.window (Column.diff pctChange c.2).tail, x = none := by
        intro x hx
        exact Column.diff_eq_none pctChange c.2 (Frame.eq_none_of_not_mem_known hc hk) x
          (List.mem_of_mem_tail (mem_of_mem_tailOf hx))
      exact congrArg _ (std_eq_none hnone sqrt)
    simp only [hempty, heach]

/-- On timely prices a price feature has the same values from the rows of the full panel as from
the store. -/
theorem fromPanel_eq_compute {name dataset : String}
    {fromPanel : PriceFrame → List String → Except FeatureError Scores} (hf : ByKnown fromPanel)
    {store : InMemoryBitemporalStore} (h : Timely dataset "close" store) {d horizon : Datetime}
    (hd : d ≤ horizon) {full : PriceFrame}
    (hfull : StorePriceView.pricePanel ⟨store, horizon, dataset, "close"⟩ = .ok full)
    (symbols : List String) :
    fromPanel (full.upTo d) symbols =
      (ofPrices name dataset fromPanel).compute store d symbols := by
  obtain ⟨full', panel, hfull', hpanel, htrims⟩ := trims_storeView h hd
  rw [hfull, Except.ok.injEq] at hfull'
  subst hfull'
  simp only [ofPrices, hpanel]
  exact hf _ _ symbols htrims

end MarketTrader.Features
