import MarketTrader.Forecasting.Dataset

namespace MarketTrader.Runtime

open Library MarketTrader.Core Storage InMemoryBitemporalStore Backtest Features Forecasting

def liveUniverse (symbols : List String) : PointInTimeUniverse :=
  ⟨symbols.map (fun s ↦ ⟨s, ⟨1990, 1, 1⟩, none⟩)⟩

/-- Every fifth bar known at `asOf`, and of these the last forty. -/
def trainingSchedule (store : InMemoryBitemporalStore) (asOf : Datetime) (every : ℕ := 5)
    (maxDates : ℤ := 40) : Except PriceError (List Datetime) :=
  (observationsToPriceFrame (store.asOf asOf { dataset := some priceDataset }) "close").map
    (fun panel ↦
      let dates := (panel.index.zipIdx.filter (·.2 % every = 0)).map Prod.fst
      if panel.isEmpty then [] else iloc dates (-maxDates) dates.length)

/-- What the trained forecaster learns from. -/
def forecastTrainingSet (store : InMemoryBitemporalStore) (fs : FeatureStore)
    (symbols : List String) (asOf : Datetime) (horizonDays : ℤ) :
    Except ForecastError TrainingSet :=
  match trainingSchedule store asOf with
  | .error e => .error (.price e)
  | .ok schedule => buildTrainingSet store fs schedule (liveUniverse symbols) horizonDays priceDataset

variable {panel : PriceFrame} {t : Datetime} {h : ℤ}

/-- Live grading has the forward return of the training labels, of full windows alone. -/
theorem forwardReturnsAt_eq (panel : PriceFrame) (t : Datetime) (hh : 1 ≤ h) :
    forwardReturnsAt panel t h =
      if h.toNat ≤ barsAfter panel.index t then forwardReturn (panel.diff pctChange) t h else [] := by
  have hlen : (labelBars panel.index t h).length = min h.toNat (barsAfter panel.index t) :=
    length_labelBars panel.sorted t (by omega)
  have hdef : forwardReturnsAt panel t h =
      if ((labelBars panel.index t h).length : ℤ) < h then []
      else (panel.diff pctChange).columns.toList.map (fun c ↦
        let pos : ℤ := (panel.index.filter (· ≤ t)).length
        (c.1, ((iloc c.2 pos (pos + h)).map (fun r ↦ 1 + r.getD 0)).prod - 1)) := rfl
  rw [hdef]
  by_cases hb : h.toNat ≤ barsAfter panel.index t
  · have hne : labelBars panel.index t h ≠ [] := by
      intro hnil
      rw [hnil, List.length_nil] at hlen
      omega
    rw [if_pos hb, if_neg (by omega), forwardReturn]
    exact (if_neg hne).symm
  · rw [if_neg hb, if_pos (by omega)]

theorem columns_diff_ne_nil (hp : panel.isEmpty = false) :
    (panel.diff pctChange).columns.toList ≠ [] := by
  have hn := (Frame.isEmpty_eq_false.mp hp).2
  simpa [Frame.names, Keyed.keys, Frame.diff, Dict.mapVals] using hn

theorem forwardReturnsAt_ne_nil (hp : panel.isEmpty = false) (t : Datetime) (hh : 1 ≤ h) :
    forwardReturnsAt panel t h ≠ [] ↔ h.toNat ≤ barsAfter panel.index t := by
  have hlen : (labelBars panel.index t h).length = min h.toNat (barsAfter panel.index t) :=
    length_labelBars panel.sorted t (by omega)
  rw [forwardReturnsAt_eq panel t hh]
  split
  · next hb =>
    rw [forwardReturn_ne_nil (columns_diff_ne_nil hp), ← List.length_pos_iff]
    change 0 < (labelBars panel.index t h).length ↔ _
    omega
  · next hb => simp [hb]

theorem forwardReturn_diff_ne_nil (hp : panel.isEmpty = false) (t : Datetime) (hh : 1 ≤ h) :
    forwardReturn (panel.diff pctChange) t h ≠ [] ↔ barsAfter panel.index t ≠ 0 := by
  have hlen : (labelBars panel.index t h).length = min h.toNat (barsAfter panel.index t) :=
    length_labelBars panel.sorted t (by omega)
  rw [forwardReturn_ne_nil (columns_diff_ne_nil hp), ← List.length_pos_iff]
  change 0 < (labelBars panel.index t h).length ↔ _
  omega

/-- At `t`, a training label is there exactly when live grading has an outcome, it is that outcome,
and no sample is labelled from a partial window. -/
structure SameOutcome (store : InMemoryBitemporalStore) (fs : FeatureStore)
    (universe' : PointInTimeUniverse) (panel : PriceFrame) (t : Datetime) (h : ℤ) : Prop where
  defined : forwardReturn (panel.diff pctChange) t h ≠ [] ↔ forwardReturnsAt panel t h ≠ []
  complete : forwardReturnsAt panel t h ≠ [] ↔ h.toNat ≤ barsAfter panel.index t
  agree : forwardReturnsAt panel t h ≠ [] →
    forwardReturn (panel.diff pctChange) t h = forwardReturnsAt panel t h
  trained : ∀ samples, samplesAt store fs universe' (panel.diff pctChange) h t = .ok samples →
    samples ≠ [] → h.toNat ≤ barsAfter panel.index t

/-- Training and grading part where the panel ends within the horizon. -/
theorem same_outcome_iff (store : InMemoryBitemporalStore) (fs : FeatureStore)
    (universe' : PointInTimeUniverse) (panel : PriceFrame) (hp : panel.isEmpty = false)
    (t : Datetime) (h : ℤ) (hh : 1 ≤ h) :
    SameOutcome store fs universe' panel t h ↔
      barsAfter panel.index t = 0 ∨ h ≤ barsAfter panel.index t := by
  have hat := forwardReturnsAt_ne_nil hp t hh
  have hfwd := forwardReturn_diff_ne_nil hp t hh
  constructor
  · rintro ⟨hdef, -, -, -⟩
    rw [hfwd, hat] at hdef
    omega
  · intro hb
    have hfull : forwardReturn (panel.diff pctChange) t h ≠ [] → h.toNat ≤ barsAfter panel.index t := by
      intro hne
      have := hfwd.mp hne
      omega
    refine ⟨⟨fun hne ↦ hat.mpr (hfull hne), fun hne ↦ hfwd.mpr ?_⟩, hat, fun hne ↦ ?_, ?_⟩
    · have := hat.mp hne
      omega
    · rw [forwardReturnsAt_eq panel t hh, if_pos (hat.mp hne)]
    · intro samples hs hne
      rcases samplesAt_cases hs with ⟨hnil, -⟩ | ⟨-, hl, -⟩
      · exact absurd hnil hne
      · exact hfull ((forwardReturn_ne_nil (columns_diff_ne_nil hp)).mpr hl)

/-- Two bars are left, as many as the label needs. -/
theorem same_outcome_short_horizon :
    let panel : PriceFrame := Frame.pivot [⟨0, "A", 10⟩, ⟨1, "A", 11⟩, ⟨2, "A", 12⟩]
    SameOutcome .empty ⟨.empty, []⟩ (liveUniverse ["A"]) panel 0 2 :=
  (same_outcome_iff .empty ⟨.empty, []⟩ (liveUniverse ["A"]) _ (by decide) 0 2 (by decide)).mpr
    (by decide)

/-- Of seven bars the schedule has the first and the sixth, and one bar is left after the sixth. -/
theorem partial_window_label : ¬∀ (store : InMemoryBitemporalStore) (fs : FeatureStore)
    (symbols : List String) (asOf : Datetime) (schedule : List Datetime) (panel : PriceFrame)
    (h : ℤ), trainingSchedule store asOf = .ok schedule →
      observationsToPriceFrame (store.asOf distantFuture { dataset := some priceDataset }) "close" =
        .ok panel → 1 ≤ h →
      ∀ t ∈ schedule, SameOutcome store fs (liveUniverse symbols) panel t h := by
  intro hall
  let bar (n : ℕ) : Observation :=
    { source := "p", dataset := priceDataset, entityType := "equity", entityId := "A"
      eventTime := n, knowledgeTime := n, value := .ofList [("close", .num (10 + n))]
      observationId := n }
  let store : InMemoryBitemporalStore := .ofList ((List.range 7).map bar)
  have hs : trainingSchedule store 6 = .ok [0, 5] := by decide +kernel
  have hpanel : (observationsToPriceFrame
      (store.asOf distantFuture { dataset := some priceDataset }) "close").map
        (fun panel ↦ (panel.isEmpty, barsAfter panel.index 5)) = .ok (false, 1) := by
    decide +kernel
  cases hp : observationsToPriceFrame
      (store.asOf distantFuture { dataset := some priceDataset }) "close" with
  | error e =>
    rw [hp] at hpanel
    cases hpanel
  | ok panel =>
    rw [hp] at hpanel
    simp only [Except.map, Except.ok.injEq, Prod.mk.injEq] at hpanel
    obtain ⟨hne, hafter⟩ := hpanel
    have hdef := (hall store ⟨store, []⟩ ["A"] 6 [0, 5] panel 5 hs hp (by decide) 5
      (by decide)).defined
    rw [forwardReturn_diff_ne_nil hne 5 (by decide), forwardReturnsAt_ne_nil hne 5 (by decide),
      hafter] at hdef
    omega

end MarketTrader.Runtime
