import MarketTrader.Library.Frame
import MarketTrader.Storage.PointInTime

namespace MarketTrader.Backtest

open Library MarketTrader.Core Storage InMemoryBitemporalStore

/-- Prices or returns: a row an event time, a column a symbol. -/
abbrev PriceFrame := Frame Datetime String ℚ

abbrev PriceRecord := Frame.Entry Datetime String ℚ

inductive PriceError
  | notANumber (symbol : String)
deriving DecidableEq

/-- The record of one observation. A missing value is no record. -/
def priceRecord (fieldName : String) (o : Observation) : Except PriceError (Option PriceRecord) :=
  match o.get? fieldName with
  | none | some .null => .ok none
  | some v =>
    match v.float? with
    | some q => .ok (some ⟨o.eventTime, o.entityId, q⟩)
    | none => .error (.notANumber o.entityId)

def priceRecords (fieldName : String) : List Observation → Except PriceError (List PriceRecord)
  | [] => .ok []
  | o :: observations =>
    match priceRecord fieldName o, priceRecords fieldName observations with
    | .error e, _ | _, .error e => .error e
    | .ok none, .ok records => .ok records
    | .ok (some r), .ok records => .ok (r :: records)

def observationsToPriceFrame (observations : List Observation) (fieldName : String) :
    Except PriceError PriceFrame :=
  (priceRecords fieldName observations).map Frame.pivot

/-- The relative change from one price to the next. -/
def pctChange (prev cur : ℚ) : Option ℚ := if prev = 0 then none else some (cur / prev - 1)

def returnsPanel (panel : PriceFrame) : PriceFrame :=
  if panel.isEmpty then panel else (panel.diff pctChange).tail

structure PointInTimeView where
  asOf : Datetime
  pricePanel : PriceFrame
  returnsPanel : PriceFrame
  universeNames : List String

def PointInTimeView.ofPanel (asOf : Datetime) (panel : PriceFrame) : PointInTimeView where
  asOf := asOf
  pricePanel := panel
  returnsPanel := Backtest.returnsPanel panel
  universeNames := panel.known

structure StorePriceView where
  store : InMemoryBitemporalStore
  asOfTime : Datetime
  dataset : String
  priceField : String := "close"

def StorePriceView.pricePanel (v : StorePriceView) : Except PriceError PriceFrame :=
  observationsToPriceFrame (v.store.asOf v.asOfTime { dataset := some v.dataset }) v.priceField

def StorePriceView.view (v : StorePriceView) : Except PriceError PointInTimeView :=
  v.pricePanel.map (.ofPanel v.asOfTime)

structure PanelPriceView where
  panel : PriceFrame
  asOfTime : Datetime

def PanelPriceView.pricePanel (v : PanelPriceView) : PriceFrame := v.panel.upTo v.asOfTime

def PanelPriceView.view (v : PanelPriceView) : PointInTimeView := .ofPanel v.asOfTime v.pricePanel

/-! ### Records -/

def Readable (fieldName : String) (o : Observation) : Prop :=
  ∀ e, priceRecord fieldName o ≠ .error e

def record? (fieldName : String) (o : Observation) : Option PriceRecord :=
  (priceRecord fieldName o).toOption.join

variable {fieldName : String} {observations : List Observation} {o : Observation}

theorem record?_of_readable (h : Readable fieldName o) :
    priceRecord fieldName o = .ok (record? fieldName o) := by
  unfold record?
  cases hr : priceRecord fieldName o with
  | error e => exact absurd hr (h e)
  | ok r => rfl

theorem eq_of_record? {r : PriceRecord} (h : record? fieldName o = some r) :
    r.time = o.eventTime ∧ r.name = o.entityId := by
  unfold record? priceRecord at h
  split at h
  · cases h
  · cases h
  · split at h
    · cases h
      exact ⟨rfl, rfl⟩
    · cases h

theorem readable_of_num {q : ℚ} (h : o.get? fieldName = some (.num q)) : Readable fieldName o := by
  intro e he
  simp [priceRecord, h] at he

theorem priceRecords_eq_ok (h : ∀ o ∈ observations, Readable fieldName o) :
    priceRecords fieldName observations = .ok (observations.filterMap (record? fieldName)) := by
  induction observations with
  | nil => rfl
  | cons o observations ih =>
    rw [List.forall_mem_cons] at h
    rw [priceRecords, record?_of_readable h.1, ih h.2]
    cases hr : record? fieldName o with
    | none => simp [hr]
    | some r => simp [hr]

theorem readable_of_priceRecords {records : List PriceRecord}
    (h : priceRecords fieldName observations = .ok records) :
    ∀ o ∈ observations, Readable fieldName o := by
  induction observations generalizing records with
  | nil => simp
  | cons o observations ih =>
    rw [priceRecords] at h
    rw [List.forall_mem_cons]
    split at h
    · cases h
    · cases h
    · next ho hrest => exact ⟨fun e he ↦ by simp [he] at ho, ih hrest⟩
    · next ho hrest => exact ⟨fun e he ↦ by simp [he] at ho, ih hrest⟩

theorem filter_records (observations : List Observation) (t : Datetime) :
    (observations.filterMap (record? fieldName)).filter (·.time ≤ t) =
      (observations.filter (·.eventTime ≤ t)).filterMap (record? fieldName) := by
  rw [List.filter_filterMap, List.filterMap_filter]
  apply List.filterMap_congr
  intro o _
  cases hr : record? fieldName o with
  | none => simp
  | some r => simp [Option.filter, (eq_of_record? hr).1]

/-- The second panel is the first without the symbols that it knows no price of. -/
structure Trims (panel trimmed : PriceFrame) : Prop where
  select : panel.select panel.known = trimmed
  known : trimmed.known = panel.known
  isEmpty : trimmed.isEmpty = panel.isEmpty

/-- The panel of a history, cut at an instant and to the symbols known by then, is the panel of the
history up to that instant. -/
theorem trims_priceFrame (h : ∀ o ∈ observations, Readable fieldName o) (t : Datetime) :
    ∃ full cut, observationsToPriceFrame observations fieldName = .ok full ∧
      observationsToPriceFrame (observations.filter (·.eventTime ≤ t)) fieldName = .ok cut ∧
      Trims (full.upTo t) cut := by
  have hcut : ∀ o ∈ observations.filter (·.eventTime ≤ t), Readable fieldName o := by
    intro o ho
    exact h o (List.mem_of_mem_filter ho)
  have hsel := Frame.select_upTo_pivot (observations.filterMap (record? fieldName)) t
  have hempty := Frame.isEmpty_upTo_pivot (observations.filterMap (record? fieldName)) t
  rw [filter_records] at hsel hempty
  refine ⟨_, _, by rw [observationsToPriceFrame, priceRecords_eq_ok h]; rfl,
    by rw [observationsToPriceFrame, priceRecords_eq_ok hcut]; rfl, hsel, ?_, hempty⟩
  rw [Frame.known_pivot, ← hsel, Frame.names_select_known]

namespace Trims

variable {panel trimmed : PriceFrame}

theorem index (h : Trims panel trimmed) : trimmed.index = panel.index := by
  rw [← h.select]
  rfl

theorem returnsPanel_select (h : Trims panel trimmed) :
    (returnsPanel panel).select panel.known = returnsPanel trimmed := by
  unfold returnsPanel
  rw [h.isEmpty]
  split
  · exact h.select
  · rw [← Frame.tail_select, ← Frame.diff_select, h.select]

theorem returnsPanel_eq_none {c : String} {col : Column ℚ}
    (hc : (c, col) ∈ (returnsPanel panel).columns.toList) (hk : c ∉ panel.known) :
    ∀ x ∈ col, x = none := by
  unfold returnsPanel at hc
  split at hc
  · exact Frame.eq_none_of_not_mem_known hc hk
  · obtain ⟨a, ha, he⟩ := List.mem_map.mp hc
    obtain ⟨b, hb, rfl⟩ := List.mem_map.mp ha
    obtain ⟨rfl, rfl⟩ := Prod.mk.inj he
    intro x hx
    exact Column.diff_eq_none pctChange b.2 (Frame.eq_none_of_not_mem_known hb hk) x
      (List.mem_of_mem_tail hx)

end Trims

structure SameKnown (p q : PriceFrame) : Prop where
  known : p.known = q.known
  select : p.select p.known = q.select q.known

namespace SameKnown

variable {p q : PriceFrame}

theorem of_trims {trimmed : PriceFrame} (hp : Trims p trimmed) (hq : Trims q trimmed) :
    SameKnown p q where
  known := hp.known.symm.trans hq.known
  select := hp.select.trans hq.select.symm

theorem index (h : SameKnown p q) : p.index = q.index := by
  have hi : (p.select p.known).index = (q.select q.known).index := by rw [h.select]
  exact hi

theorem select_names (h : SameKnown p q) (l : List String) :
    SameKnown (p.select l) (q.select l) where
  known := by rw [Frame.known_select, Frame.known_select, h.known]
  select := by
    have hsel : ∀ f : PriceFrame,
        (f.select l).select (f.select l).known = (f.select f.known).select l := by
      intro f
      rw [Frame.select_select, Frame.select_select]
      apply Frame.select_congr
      intro c _
      simp only [List.mem_filter, Frame.mem_known_select, decide_eq_true_eq]
      tauto
    rw [hsel, hsel, h.select]

end SameKnown

/-- Each row of the dataset is known as it happens, and its price is a number. -/
def Timely (dataset fieldName : String) (store : InMemoryBitemporalStore) : Prop :=
  ∀ o ∈ store.toList, o.dataset = dataset →
    o.knowledgeTime = o.eventTime ∧ ∃ q, o.get? fieldName = some (.num q)

/-- The panel that was built once shows, at each earlier instant, what the store shows there. -/
theorem trims_storeView {store : InMemoryBitemporalStore} {dataset : String}
    (h : Timely dataset fieldName store) {t horizon : Datetime} (ht : t ≤ horizon) :
    ∃ full panel, StorePriceView.pricePanel ⟨store, horizon, dataset, fieldName⟩ = .ok full ∧
      StorePriceView.pricePanel ⟨store, t, dataset, fieldName⟩ = .ok panel ∧
      Trims (full.upTo t) panel := by
  have hread : ∀ o ∈ store.asOf horizon { dataset := some dataset }, Readable fieldName o := by
    intro o ho
    obtain ⟨hm, -, hd⟩ := mem_asOf_dataset ho
    obtain ⟨-, q, hq⟩ := h o hm hd
    exact readable_of_num hq
  obtain ⟨full, panel, hfull, hpanel, htrims⟩ := trims_priceFrame hread t
  refine ⟨full, panel, hfull, ?_, htrims⟩
  rw [StorePriceView.pricePanel, asOf_eq_filter (fun o ho hd ↦ (h o ho hd).1) ht]
  exact hpanel

end MarketTrader.Backtest
