import MarketTrader.Runtime.MeasuredIc
import Mathlib.Data.Finset.Lattice.Fold

namespace MarketTrader.Runtime

open Library MarketTrader.Core Storage InMemoryBitemporalStore Config Feedback Backtest Features
  Forecasting

/-- What the feature computes at an instant rests on the rows that are known by then. -/
def PointInTime (f : Feature) : Prop := ∀ store other d symbols, visible other d = visible store d →
  f.compute other d symbols = f.compute store d symbols

/-- The prices are numbers, where there are any. -/
def PricesRead (store : InMemoryBitemporalStore) : Prop :=
  ∀ o ∈ store.toList, o.dataset = priceDataset → Readable "close" o

/-- What is learnt at an instant is the same on each store with the same rows known by then. -/
structure LearnsPointInTime (sqrt : ℚ → ℚ) (store : InMemoryBitemporalStore) (asOf : Datetime) :
    Prop where
  grades : ∀ other, PricesRead other → visible other asOf = visible store asOf →
    ∀ horizonDays modelVersion minAbsIc,
      gradePredictions sqrt other asOf horizonDays modelVersion minAbsIc =
        gradePredictions sqrt store asOf horizonDays modelVersion minAbsIc
  weights : ∀ other, PricesRead other → visible other asOf = visible store asOf →
    ∀ settings features symbols horizonDays, (∀ f ∈ features, PointInTime f) →
      signalIcForWeighting sqrt other settings features symbols asOf horizonDays =
        signalIcForWeighting sqrt store settings features symbols asOf horizonDays

variable {sqrt : ℚ → ℚ} {store other : InMemoryBitemporalStore} {asOf d : Datetime}

theorem visible_of_le (h : visible other asOf = visible store asOf) (hd : d ≤ asOf) :
    visible other d = visible store d := by
  have hcut : ∀ s : InMemoryBitemporalStore,
      visible s d = (visible s asOf).filter (·.knowledgeTime ≤ d) := by
    intro s
    rw [visible, visible, List.filter_filter]
    apply List.filter_congr
    intro o _
    rw [Bool.eq_iff_iff, Bool.and_eq_true, decide_eq_true_eq, decide_eq_true_eq]
    exact ⟨fun ho ↦ ⟨ho, ho.trans hd⟩, And.left⟩
  rw [hcut, hcut, h]

theorem loadPredictions_congr (h : visible other asOf = visible store asOf)
    (modelVersion : Option String) :
    loadPredictions other asOf modelVersion = loadPredictions store asOf modelVersion := by
  rw [loadPredictions, loadPredictions, asOf_congr h]

theorem priceFrame_eq_ok (h : PricesRead store) (k : Datetime) :
    observationsToPriceFrame (store.asOf k { dataset := some priceDataset }) "close" =
      .ok (Frame.pivot ((store.asOf k { dataset := some priceDataset }).filterMap
        (record? "close"))) := by
  rw [observationsToPriceFrame, priceRecords_eq_ok]
  · rfl
  · intro o ho
    obtain ⟨hm, -, hd⟩ := mem_asOf_dataset ho
    exact h o hm hd

theorem mem_index_priceFrame {rows : List Observation} {panel : PriceFrame}
    (h : observationsToPriceFrame rows "close" = .ok panel) (hd : d ∈ panel.index) :
    ∃ o ∈ rows, o.eventTime = d := by
  rw [observationsToPriceFrame] at h
  cases hr : priceRecords "close" rows with
  | error e =>
    rw [hr] at h
    cases h
  | ok records =>
    rw [hr] at h
    rw [priceRecords_eq_ok (readable_of_priceRecords hr)] at hr
    cases hr
    cases h
    obtain ⟨r, hr, rfl⟩ := List.mem_map.mp (mem_sortedDistinct.mp hd)
    obtain ⟨o, ho, he⟩ := List.mem_filterMap.mp hr
    exact ⟨o, ho, (eq_of_record? he).1.symm⟩

/-! ### The history -/

theorem mem_measuredDates {index : List Datetime} {every warmup : ℕ} {maxDates : ℤ}
    {since : Option Datetime} (h : d ∈ measuredDates index every warmup maxDates since) :
    d ∈ index := by
  obtain ⟨x, hx, rfl⟩ := List.mem_map.mp (mem_of_mem_iloc (List.mem_of_mem_filter h))
  exact List.mem_of_mem_drop (List.fst_mem_of_mem_zipIdx (List.mem_of_mem_filter hx))

theorem icsOver_congr {features : List Feature} {symbols : List String} {panel : PriceFrame}
    {horizonDays : ℤ} {minNames : ℕ} {dates : List Datetime}
    (h : ∀ d ∈ dates, ∀ f ∈ features, f.compute other d symbols = f.compute store d symbols) :
    icsOver sqrt other features symbols panel horizonDays minNames dates =
      icsOver sqrt store features symbols panel horizonDays minNames dates := by
  induction dates with
  | nil => rfl
  | cons d dates ih =>
    rw [List.forall_mem_cons] at h
    have hd : icsAt sqrt other features symbols panel horizonDays minNames d =
        icsAt sqrt store features symbols panel horizonDays minNames d := by
      have hcol : ∀ f ∈ features, (signalColumn panel other d symbols f).map some =
          (signalColumn panel store d symbols f).map some := by
        intro f hf
        rw [signalColumn, signalColumn, h.1 f hf]
      rw [icsAt, icsAt, Dict.collect_congr hcol]
    rw [icsOver, icsOver, hd, ih h.2]

theorem measureSignalIc_congr (h : visible other asOf = visible store asOf)
    {features : List Feature} (hf : ∀ f ∈ features, PointInTime f)
    (hb : ∀ o ∈ visible store asOf, o.dataset = priceDataset → o.eventTime ≤ asOf)
    (symbols : List String) (horizonDays : ℤ) (every : ℕ) :
    measureSignalIc sqrt other features symbols asOf horizonDays every =
      measureSignalIc sqrt store features symbols asOf horizonDays every := by
  rw [measureSignalIc, measureSignalIc, asOf_congr h]
  cases hp : observationsToPriceFrame (store.asOf asOf { dataset := some priceDataset }) "close" with
  | error e => rfl
  | ok panel =>
    have hindex : ∀ d ∈ panel.index, d ≤ asOf := by
      intro d hd
      obtain ⟨o, ho, rfl⟩ := mem_index_priceFrame hp hd
      obtain ⟨hm, hk, hds⟩ := mem_asOf_dataset ho
      exact hb o (mem_visible.mpr ⟨hm, hk⟩) hds
    have hics : icsOver sqrt other features symbols panel horizonDays 5
          (measuredDates panel.index every 60 120 none) =
        icsOver sqrt store features symbols panel horizonDays 5
          (measuredDates panel.index every 60 120 none) :=
      icsOver_congr fun d hd f hf' ↦ hf f hf' store other d symbols
        (visible_of_le h (hindex d (mem_measuredDates hd)))
    simp only [hics]

/-! ### Nothing to grade -/

theorem gradePredictions_eq_empty (hp : PricesRead store) {horizonDays : ℤ}
    {modelVersion : Option String} {minAbsIc : ℚ}
    (hl : loadPredictions store asOf modelVersion = .ok []) :
    gradePredictions sqrt store asOf horizonDays modelVersion minAbsIc = .ok {} := by
  rw [gradePredictions, hl, priceFrame_eq_ok hp]
  rfl

theorem loadPredictions_eq_nil (h : ∀ preds, loadPredictions store asOf none = .ok preds → preds = [])
    (modelVersion : Option String) : (∃ e, loadPredictions store asOf modelVersion = .error e) ∨
      loadPredictions store asOf modelVersion = .ok [] := by
  simp only [loadPredictions] at h ⊢
  cases hr : readRecords (store.asOf asOf { dataset := some predictionDataset }) with
  | error e => exact .inl ⟨e, rfl⟩
  | ok records =>
    rw [hr] at h
    have hnil : records = [] := by simpa using h _ rfl
    rw [hnil]
    exact .inr rfl

theorem gradePredictions_congr (hs : PricesRead store) (ho : PricesRead other)
    (h : visible other asOf = visible store asOf) (hc : distantFuture ≤ asOf ∨
      ∀ preds, loadPredictions store asOf none = .ok preds → preds = [])
    (horizonDays : ℤ) (modelVersion : Option String) (minAbsIc : ℚ) :
    gradePredictions sqrt other asOf horizonDays modelVersion minAbsIc =
      gradePredictions sqrt store asOf horizonDays modelVersion minAbsIc := by
  have hload := loadPredictions_congr h modelVersion
  rcases hc with hfuture | hnone
  · rw [gradePredictions, gradePredictions, hload, asOf_congr (visible_of_le h hfuture)]
  · rcases loadPredictions_eq_nil hnone modelVersion with ⟨e, he⟩ | hnil
    · rw [gradePredictions, gradePredictions, hload, he]
    · rw [gradePredictions_eq_empty hs hnil, gradePredictions_eq_empty ho (hload.trans hnil)]

theorem gradePredictions_n {preds : List PredictionRecord} {panel : PriceFrame} {horizonDays : ℤ}
    {modelVersion : Option String} {minAbsIc : ℚ} {grades : Grades}
    (hl : loadPredictions store asOf modelVersion = .ok preds)
    (hp : observationsToPriceFrame
      (store.asOf distantFuture { dataset := some priceDataset }) "close" = .ok panel)
    (h : gradePredictions sqrt store asOf horizonDays modelVersion minAbsIc = .ok grades) :
    grades.n = (gradedPairs panel horizonDays preds).length := by
  rw [gradePredictions, hl, hp] at h
  dsimp only at h
  split at h
  · next hg =>
    cases h
    rw [hg]
    rfl
  · cases h
    rfl

/-! ### What becomes known later -/

section Later

variable {later : List Observation}

theorem visible_append {h : ((visible store asOf ++ later).map Observation.observationId).Nodup}
    (hl : ∀ o ∈ later, asOf < o.knowledgeTime) :
    visible ⟨visible store asOf ++ later, h⟩ asOf = visible store asOf := by
  have hlater : later.filter (·.knowledgeTime ≤ asOf) = [] := by
    rw [List.filter_eq_nil_iff]
    intro o ho hk
    exact absurd (of_decide_eq_true hk) (not_le.mpr (hl o ho))
  have hrows : (visible store asOf).filter (·.knowledgeTime ≤ asOf) = visible store asOf := by
    rw [List.filter_eq_self]
    intro o ho
    exact decide_eq_true (mem_visible.mp ho).2
  rw [visible, List.filter_append, hlater, hrows, List.append_nil]

/-- A row without a price takes the place of one that was known. -/
def withdrawn (asOf : Datetime) (n : ℕ) (o : Observation) : Observation :=
  { o with knowledgeTime := asOf + 1, value := .empty, observationId := n + 1 + o.observationId }

def laterBar (asOf start : Datetime) (symbol : String) (n i : ℕ) : Observation :=
  { source := "price"
    dataset := priceDataset
    entityType := "equity"
    entityId := symbol
    eventTime := start + 1 + i
    knowledgeTime := asOf + 1
    value := .ofList [("close", .num 1)]
    observationId := 2 * n + 2 + i }

def withdrawals (store : InMemoryBitemporalStore) (asOf : Datetime) (n : ℕ) : List Observation :=
  ((visible store asOf).filter (·.dataset = priceDataset)).map (withdrawn asOf n)

/-- All prices are withdrawn, and a symbol gets new ones. -/
def laterRows (store : InMemoryBitemporalStore) (asOf start : Datetime) (symbol : String)
    (n bars : ℕ) : List Observation :=
  withdrawals store asOf n ++ (List.range bars).map (laterBar asOf start symbol n)

variable {start : Datetime} {symbol : String} {n bars : ℕ} {o : Observation}

theorem mem_laterRows : o ∈ laterRows store asOf start symbol n bars ↔
    (∃ o' ∈ visible store asOf, o'.dataset = priceDataset ∧ withdrawn asOf n o' = o) ∨
      ∃ i < bars, laterBar asOf start symbol n i = o := by
  simp [laterRows, withdrawals, and_assoc]

theorem known_later (ho : o ∈ laterRows store asOf start symbol n bars) :
    o.knowledgeTime = asOf + 1 ∧ Readable "close" o := by
  rcases mem_laterRows.mp ho with ⟨o', -, -, rfl⟩ | ⟨i, -, rfl⟩
  · exact ⟨rfl, fun e he ↦ by cases he⟩
  · exact ⟨rfl, readable_of_num (q := 1) rfl⟩

theorem laterRows_nodup (hn : ∀ o ∈ visible store asOf, o.observationId ≤ n) :
    ((visible store asOf ++ laterRows store asOf start symbol n bars).map
      Observation.observationId).Nodup := by
  have hold : ((visible store asOf).map Observation.observationId).Nodup :=
    store.nodup.sublist (List.filter_sublist.map _)
  have hids : (withdrawals store asOf n).map Observation.observationId =
      (((visible store asOf).filter (·.dataset = priceDataset)).map
        Observation.observationId).map (n + 1 + ·) := by
    rw [withdrawals, List.map_map, List.map_map]
    rfl
  have hbars : ((List.range bars).map (laterBar asOf start symbol n)).map
      Observation.observationId = (List.range bars).map (2 * n + 2 + ·) := by
    rw [List.map_map]
    rfl
  have hapart : ∀ id i : ℕ, id ≤ n → (n + 1 + i ≠ id ∧ 2 * n + 2 + i ≠ id) ∧
      2 * n + 2 + i ≠ n + 1 + id := by
    intro id i h
    omega
  rw [laterRows, List.map_append, List.map_append, hids, hbars, List.nodup_append',
    List.nodup_append']
  refine ⟨hold, ⟨(hold.sublist (List.filter_sublist.map _)).map (add_right_injective _),
    List.nodup_range.map (add_right_injective _), ?_⟩, ?_⟩
  · intro id h₁ h₂
    obtain ⟨_, h, rfl⟩ := List.mem_map.mp h₁
    obtain ⟨o, ho, rfl⟩ := List.mem_map.mp h
    obtain ⟨i, -, he⟩ := List.mem_map.mp h₂
    exact absurd he (hapart _ i (hn o (List.mem_of_mem_filter ho))).2
  · intro id h₁ h₂
    obtain ⟨o, ho, rfl⟩ := List.mem_map.mp h₁
    rcases List.mem_append.mp h₂ with h | h
    · obtain ⟨j, -, he⟩ := List.mem_map.mp h
      exact absurd he (hapart _ j (hn o ho)).1.1
    · obtain ⟨j, -, he⟩ := List.mem_map.mp h
      exact absurd he (hapart _ j (hn o ho)).1.2

/-- The store as it stands at an instant, with all prices withdrawn later and a symbol priced
anew. -/
def repriced (store : InMemoryBitemporalStore) (asOf start : Datetime) (symbol : String) (n : ℕ)
    (hn : ∀ o ∈ visible store asOf, o.observationId ≤ n) (bars : ℕ) : InMemoryBitemporalStore :=
  ⟨visible store asOf ++ laterRows store asOf start symbol n bars, laterRows_nodup hn⟩

variable {hn : ∀ o ∈ visible store asOf, o.observationId ≤ n}

theorem pricesRead_repriced (hs : PricesRead store) :
    PricesRead (repriced store asOf start symbol n hn bars) := by
  intro o ho hd
  rcases List.mem_append.mp ho with h | h
  · exact hs o (mem_visible.mp h).1 hd
  · exact (known_later h).2

theorem visible_repriced :
    visible (repriced store asOf start symbol n hn bars) asOf = visible store asOf := by
  apply visible_append
  intro o ho
  rw [(known_later ho).1]
  exact Int.lt_succ asOf

/-- Whatever was known of the prices has been withdrawn in the end. -/
theorem mem_laterRows_of_read (hk : asOf < distantFuture)
    (ho : o ∈ (repriced store asOf start symbol n hn bars).asOf distantFuture
      { dataset := some priceDataset }) : o ∈ laterRows store asOf start symbol n bars := by
  obtain ⟨hm, -, hd⟩ := mem_asOf_dataset ho
  refine (List.mem_append.mp hm).resolve_left fun hold ↦ ?_
  have hlater : withdrawn asOf n o ∈ laterRows store asOf start symbol n bars :=
    mem_laterRows.mpr (.inl ⟨o, hold, hd, rfl⟩)
  have hrow : withdrawn asOf n o ∈ Query.select { dataset := some priceDataset }
      (visible (repriced store asOf start symbol n hn bars) distantFuture) := by
    simp only [Query.select, keepEqual, List.mem_filter, decide_eq_true_eq, mem_visible]
    exact ⟨⟨List.mem_append_right _ hlater, Int.add_one_le_of_lt hk⟩, hd⟩
  rw [InMemoryBitemporalStore.asOf, sortObservations, mem_sortBy, if_pos rfl] at ho
  have hle := recency_le_of_mem_collapse ho hrow rfl
  have hlt : recency o < recency (withdrawn asOf n o) :=
    Prod.Lex.toLex_lt_toLex.mpr (.inl (Int.lt_add_one_of_le (mem_visible.mp hold).2))
  exact absurd hle (not_le.mpr hlt)

theorem laterBar_read (hk : asOf < distantFuture) (hs : asOf ≤ start)
    (hb : ∀ o ∈ visible store asOf, o.dataset = priceDataset → o.eventTime ≤ asOf) {i : ℕ}
    (hi : i < bars) :
    laterBar asOf start symbol n i ∈ (repriced store asOf start symbol n hn bars).asOf
      distantFuture { dataset := some priceDataset } := by
  have hmem : laterBar asOf start symbol n i ∈ laterRows store asOf start symbol n bars :=
    mem_laterRows.mpr (.inr ⟨i, hi, rfl⟩)
  have hafter : ∀ t a s : ℤ, t ≤ a → a ≤ s → t ≠ s + 1 + i := by
    intro t a s h₁ h₂
    omega
  refine mem_asOf_of_unique (List.mem_append_right _ hmem) (Int.add_one_le_of_lt hk) rfl ?_
  intro o ho hd hkey
  have ht : o.eventTime = start + 1 + i := congrArg (·.2.2.2.1) hkey
  rcases List.mem_append.mp ho with h | h
  · exact absurd ht (hafter _ _ _ (hb o h hd) hs)
  · rcases mem_laterRows.mp h with ⟨o', ho', hd', rfl⟩ | ⟨j, -, rfl⟩
    · exact absurd ht (hafter _ _ _ (hb o' ho' hd') hs)
    · have hij : j = i := by
        exact Nat.cast_injective (add_left_cancel ht)
      rw [hij]

/-- With all prices withdrawn nothing is graded. -/
theorem gradePredictions_withdrawn (hs : PricesRead store) (hk : asOf < distantFuture)
    {preds : List PredictionRecord} (hl : loadPredictions store asOf none = .ok preds) :
    gradePredictions sqrt (repriced store asOf start symbol n hn 0) asOf 5 none 0 = .ok {} := by
  have hrecords : ((repriced store asOf start symbol n hn 0).asOf distantFuture
      { dataset := some priceDataset }).filterMap (record? "close") = [] := by
    rw [List.filterMap_eq_nil_iff]
    intro o ho
    rcases mem_laterRows.mp (mem_laterRows_of_read hk ho) with ⟨o', -, -, rfl⟩ | ⟨i, hi, -⟩
    · rfl
    · exact absurd hi (Nat.not_lt_zero i)
  rw [gradePredictions, loadPredictions_congr visible_repriced, hl,
    priceFrame_eq_ok (pricesRead_repriced hs), hrecords]
  have hgraded : gradedPairs (Frame.pivot []) 5 preds = [] := by
    rw [gradedPairs, List.flatMap_eq_nil_iff]
    intro g hg
    rw [if_pos (Frame.isEmpty_pivot.mpr rfl), List.filterMap_eq_nil_iff]
    intro p hp
    rfl
  dsimp only
  rw [if_pos hgraded]

/-- Five new bars of its symbol grade a prediction. -/
theorem gradePredictions_repriced (hs : PricesRead store) (hk : asOf < distantFuture)
    (hb : ∀ o ∈ visible store asOf, o.dataset = priceDataset → o.eventTime ≤ asOf)
    {preds : List PredictionRecord} (hl : loadPredictions store asOf none = .ok preds)
    {p : PredictionRecord} (hp : p ∈ preds) {grades : Grades}
    (h : gradePredictions sqrt (repriced store asOf (max asOf p.asOf) p.symbol n hn 5) asOf 5
      none 0 = .ok grades) : grades.n ≠ 0 := by
  have hl' : loadPredictions (repriced store asOf (max asOf p.asOf) p.symbol n hn 5) asOf none =
      .ok preds := (loadPredictions_congr visible_repriced none).trans hl
  have hread : PricesRead (repriced store asOf (max asOf p.asOf) p.symbol n hn 5) :=
    pricesRead_repriced hs
  rw [gradePredictions_n hl' (priceFrame_eq_ok hread distantFuture) h]
  have hrecord : ∀ i : ℕ, i < 5 → (⟨max asOf p.asOf + 1 + i, p.symbol, 1⟩ : PriceRecord) ∈
      ((repriced store asOf (max asOf p.asOf) p.symbol n hn 5).asOf distantFuture
        { dataset := some priceDataset }).filterMap (record? "close") := by
    intro i hi
    exact List.mem_filterMap.mpr ⟨laterBar asOf (max asOf p.asOf) p.symbol n i,
      laterBar_read hk (le_max_left _ _) hb hi, rfl⟩
  generalize ((repriced store asOf (max asOf p.asOf) p.symbol n hn 5).asOf distantFuture
    { dataset := some priceDataset }).filterMap (record? "close") = records at hrecord ⊢
  have hbars : 5 ≤ barsAfter (Frame.pivot records).index p.asOf := by
    have hnodup : ((List.range 5).map (fun i : ℕ ↦ max asOf p.asOf + 1 + (i : ℤ))).Nodup :=
      List.nodup_range.map fun i j hij ↦ Nat.cast_injective (add_left_cancel hij)
    have hsub : (List.range 5).map (fun i : ℕ ↦ max asOf p.asOf + 1 + (i : ℤ)) ⊆
        (Frame.pivot records).index.filter (p.asOf < ·) := by
      intro t ht
      obtain ⟨i, hi, rfl⟩ := List.mem_map.mp ht
      have hafter : ∀ (a b : ℤ) (i : ℕ), b < max a b + 1 + i := by
        intro a b i
        omega
      refine List.mem_filter.mpr ⟨mem_sortedDistinct.mpr ?_, decide_eq_true (hafter _ _ _)⟩
      exact List.mem_map.mpr ⟨_, hrecord i (List.mem_range.mp hi), rfl⟩
    exact (hnodup.subperm hsub).length_le
  have hname : p.symbol ∈ (Frame.pivot records).names :=
    Frame.mem_names_pivot.mpr ⟨_, hrecord 0 (by decide), rfl⟩
  cases hc : closesFrom (Frame.pivot records) p.symbol p.asOf with
  | nil => exact absurd hname (closesFrom_eq_nil.mp hc)
  | cons base after =>
    have hg := (mem_gradedPairs (by decide)).mpr ⟨hp, Int.ofNat_le.mpr hbars, base, after, hc, rfl⟩
    exact (List.length_pos_of_mem hg).ne'

/-! ### The composite -/

theorem signalIcForWeighting_congr (hs : PricesRead store) (ho : PricesRead other)
    (h : visible other asOf = visible store asOf) (hc : distantFuture ≤ asOf ∨
      ∀ preds, loadPredictions store asOf none = .ok preds → preds = [])
    (hb : ∀ o ∈ visible store asOf, o.dataset = priceDataset → o.eventTime ≤ asOf)
    (settings : Settings) {features : List Feature} (symbols : List String) (horizonDays : ℤ)
    (hf : ∀ f ∈ features, PointInTime f) :
    signalIcForWeighting sqrt other settings features symbols asOf horizonDays =
      signalIcForWeighting sqrt store settings features symbols asOf horizonDays := by
  rw [signalIcForWeighting, signalIcForWeighting, measuredSignalIc, measuredSignalIc,
    gradePredictions_congr hs ho h hc, measureSignalIc_congr h hf hb]

/-- Grading reads the prices as they end up. What is learnt at an instant can rest on none that
becomes known later only where there is nothing to grade, or no later instant. -/
theorem learns_point_in_time_iff (sqrt : ℚ → ℚ) (store : InMemoryBitemporalStore)
    (asOf : Datetime) (hs : PricesRead store)
    (hb : ∀ o ∈ visible store asOf, o.dataset = priceDataset → o.eventTime ≤ asOf) :
    LearnsPointInTime sqrt store asOf ↔ distantFuture ≤ asOf ∨
      ∀ preds, loadPredictions store asOf none = .ok preds → preds = [] := by
  constructor
  · intro h
    by_contra hc
    simp only [not_or, not_le, not_forall] at hc
    obtain ⟨hk, preds, hl, hne⟩ := hc
    obtain ⟨p, hp⟩ := List.exists_mem_of_ne_nil preds hne
    obtain ⟨n, hn⟩ : ∃ n, ∀ o ∈ visible store asOf, o.observationId ≤ n :=
      ⟨((visible store asOf).map Observation.observationId).toFinset.sup id, fun o ho ↦
        Finset.le_sup (f := id) (List.mem_toFinset.mpr (List.mem_map_of_mem ho))⟩
    have hgrades : ∀ bars, gradePredictions sqrt
        (repriced store asOf (max asOf p.asOf) p.symbol n hn bars) asOf 5 none 0 =
          gradePredictions sqrt store asOf 5 none 0 :=
      fun bars ↦ h.grades _ (pricesRead_repriced hs) visible_repriced 5 none 0
    have hnone : gradePredictions sqrt
        (repriced store asOf (max asOf p.asOf) p.symbol n hn 0) asOf 5 none 0 = .ok {} :=
      gradePredictions_withdrawn hs hk hl
    have hsome := (hgrades 5).trans ((hgrades 0).symm.trans hnone)
    exact gradePredictions_repriced hs hk hb hl hp hsome rfl
  · intro hc
    exact ⟨fun other ho h ↦ gradePredictions_congr hs ho h hc,
      fun other ho h settings features symbols horizonDays hf ↦
        signalIcForWeighting_congr hs ho h hc hb settings symbols horizonDays hf⟩

end Later

/-! ### A bar that comes later -/

def closeRow (t : Datetime) (id : UUID) (close : ℚ) : Observation :=
  { source := "price"
    dataset := priceDataset
    entityType := "equity"
    entityId := "A"
    eventTime := t
    knowledgeTime := t
    value := .ofList [("close", .num close)]
    observationId := id }

def predictionRow (id : UUID) : Observation :=
  { source := "forecast"
    dataset := predictionDataset
    entityType := "equity"
    entityId := "A"
    ref := some "composite"
    eventTime := 0
    knowledgeTime := 0
    value := .ofList [("probability", .num (3 / 4)), ("horizon_days", .num 1),
      ("model_version", .str "composite")]
    observationId := id }

theorem pricesRead_of_rows {rows : List Observation}
    (h : ∀ o ∈ rows, o.dataset = priceDataset → Readable "close" o) :
    PricesRead (.ofList rows) := by
  intro o ho
  exact h o ((Keyed.mem_of_mem_insertAll ho).resolve_left (by simp))

/-- Before there are predictions the composite has its weights from what is known. -/
theorem learns_point_in_time_at_start :
    LearnsPointInTime id (.ofList [closeRow 0 1 10, closeRow 5 2 11]) 0 := by
  have hs : PricesRead (.ofList [closeRow 0 1 10, closeRow 5 2 11]) := by
    apply pricesRead_of_rows
    rintro o (_ | ⟨_, _ | ⟨_, ⟨⟩⟩⟩) -
    · exact readable_of_num (q := 10) rfl
    · exact readable_of_num (q := 11) rfl
  refine (learns_point_in_time_iff id _ 0 hs ?_).mpr (.inr ?_)
  · decide
  · intro preds h
    cases h
    rfl

/-- A prediction is graded with a bar that becomes known after the instant it is graded at. -/
theorem graded_with_later_bar :
    let store : InMemoryBitemporalStore := .ofList [closeRow 0 1 10, predictionRow 2]
    let other : InMemoryBitemporalStore :=
      .ofList [closeRow 0 1 10, predictionRow 2, closeRow 5 3 11]
    PricesRead store ∧ PricesRead other ∧ visible other 0 = visible store 0 ∧
      ¬LearnsPointInTime id store 0 := by
  intro store other
  have hread : ∀ o ∈ [closeRow 0 1 10, predictionRow 2, closeRow 5 3 11],
      o.dataset = priceDataset → Readable "close" o := by
    rintro o (_ | ⟨_, _ | ⟨_, _ | ⟨_, ⟨⟩⟩⟩⟩) hd
    · exact readable_of_num (q := 10) rfl
    · exact absurd hd (by decide)
    · exact readable_of_num (q := 11) rfl
  have hother : PricesRead other := pricesRead_of_rows hread
  have hvisible : visible other 0 = visible store 0 := rfl
  refine ⟨pricesRead_of_rows fun o ho ↦ hread o (List.mem_of_mem_take (i := 2) ho), hother,
    hvisible, fun h ↦ ?_⟩
  have hgrades := congrArg (Except.map Grades.n) (h.grades other hother hvisible 1 none 0)
  revert hgrades
  decide +kernel

end MarketTrader.Runtime
