import MarketTrader.Features.Base
import MarketTrader.Runtime.Learning

namespace MarketTrader.Forecasting

open Library MarketTrader.Core Storage InMemoryBitemporalStore Backtest Features

inductive ForecastError
  | price (e : PriceError)
  | feature (e : FeatureError)
  | valueError (text : String)
  /-- No sample was built, so the frame of samples has no feature columns. -/
  | keyError
deriving DecidableEq

/-! ### Universe and regime -/

structure Constituent where
  symbol : String
  added : Date
  removed : Option Date

structure PointInTimeUniverse where
  constituents : List Constituent

def Constituent.activeOn (c : Constituent) (on : Date) : Bool :=
  c.added.order ≤ on.order ∧ c.removed.all (fun removed ↦ on.order < removed.order)

def PointInTimeUniverse.membersOn (u : PointInTimeUniverse) (on : Date) : List String :=
  sortBy id ((u.constituents.filter (·.activeOn on)).map Constituent.symbol)

def fredDataset : String := "macro.series"

/-- The last known value of each macro series. -/
def latestSeries (store : InMemoryBitemporalStore) (asOf : Datetime) :
    Except ForecastError (Dict String ℚ) :=
  Dict.collect Observation.entityId
    (fun o ↦
      match o.get? "value" with
      | none | some .null => .ok none
      | some v =>
        match v.float? with
        | some q => .ok (some q)
        | none => .error (.valueError "value")) .empty
    (store.asOf asOf { dataset := some fredDataset })

/-- A positive slope of the yield curve, or an unknown one, is risk-on. -/
def riskOn (store : InMemoryBitemporalStore) (asOf : Datetime) : Except ForecastError Bool := do
  let latest ← latestSeries store asOf
  match Dict.get? latest "DGS10", Dict.get? latest "DGS2" with
  | some long, some short => return 0 < long - short
  | _, _ => return true

/-! ### Samples -/

structure FeatureStore where
  store : InMemoryBitemporalStore
  features : List Feature

namespace FeatureStore

def featureNames (fs : FeatureStore) : List String := fs.features.map Feature.name

def computeMatrix (fs : FeatureStore) (asOf : Datetime) (symbols : List String) :
    Except FeatureError FeatureMatrix :=
  Features.computeMatrix fs.features fs.store asOf symbols

end FeatureStore

/-- What one name looked like at a decision time, and how it did. The label is realised by `t1`. -/
structure Sample where
  symbol : String
  features : List (String × Option ℚ)
  label : ℤ
  t0 : Datetime
  t1 : Datetime

structure TrainingSet where
  samples : List Sample
  featureNames : List String

def regimeFeature : String := "regime_risk_on"

def realizedReturns (store : InMemoryBitemporalStore) (dataset : String) :
    Except PriceError PriceFrame :=
  (observationsToPriceFrame (store.asOf distantFuture { dataset := some dataset }) "close").map
    (fun panel ↦ if panel.isEmpty then panel else panel.diff pctChange)

/-- The bars that a label is made of: the first ones strictly after the decision. -/
def labelBars (index : List Datetime) (asOf : Datetime) (horizon : ℤ) : List Datetime :=
  let pos : ℤ := (index.filter (· ≤ asOf)).length
  iloc index pos (pos + horizon)

def forwardReturn (returns : PriceFrame) (asOf : Datetime) (horizon : ℤ) : List (String × ℚ) :=
  let pos : ℤ := (returns.index.filter (· ≤ asOf)).length
  if labelBars returns.index asOf horizon = [] then []
  else returns.columns.toList.map
    (fun c ↦ (c.1, ((iloc c.2 pos (pos + horizon)).map (fun r ↦ 1 + r.getD 0)).prod - 1))

def validSymbols (matrix : FeatureMatrix) (forward : List (String × ℚ)) : List String :=
  matrix.symbols.filter (· ∈ forward.map Prod.fst)

def valueOf (forward : List (String × ℚ)) (symbol : String) : ℚ :=
  ((forward.find? (·.1 = symbol)).map Prod.snd).getD 0

def median (xs : List ℚ) : ℚ :=
  let s := sortBy id xs
  if s.length % 2 = 1 then s.getD (s.length / 2) 0
  else (s.getD (s.length / 2 - 1) 0 + s.getD (s.length / 2) 0) / 2

def cell (matrix : FeatureMatrix) (feature symbol : String) : Option ℚ :=
  (Dict.get? matrix.columns feature).bind (fun s ↦ (s.find? (·.1 = symbol)).bind Prod.snd)

/-- A generous bound for purging. -/
def labelTime (d : Datetime) (horizonDays : ℤ) : Datetime := d + Timedelta.ofDays (horizonDays * 2)

def samplesAt (store : InMemoryBitemporalStore) (fs : FeatureStore) (universe' : PointInTimeUniverse)
    (returns : PriceFrame) (horizonDays : ℤ) (d : Datetime) : Except ForecastError (List Sample) :=
  match fs.computeMatrix d (universe'.membersOn d.date) with
  | .error e => .error (.feature e)
  | .ok matrix =>
    let forward := forwardReturn returns d horizonDays
    let valid := validSymbols matrix forward
    if matrix.isEmpty ∨ valid.length < 2 then .ok []
    else
      match riskOn store d with
      | .error e => .error e
      | .ok risk =>
        let mid := median (valid.map (valueOf forward))
        .ok (valid.map (fun s ↦
          { symbol := s
            features := fs.featureNames.map (fun f ↦ (f, cell matrix f s)) ++
              [(regimeFeature, some (if risk then 1 else 0))]
            label := if mid < valueOf forward s then 1 else 0
            t0 := d
            t1 := labelTime d horizonDays }))

def samplesOver (store : InMemoryBitemporalStore) (fs : FeatureStore)
    (universe' : PointInTimeUniverse) (returns : PriceFrame) (horizonDays : ℤ) :
    List Datetime → Except ForecastError (List Sample)
  | [] => .ok []
  | d :: rest =>
    match samplesAt store fs universe' returns horizonDays d with
    | .error e => .error e
    | .ok samples =>
      match samplesOver store fs universe' returns horizonDays rest with
      | .error e => .error e
      | .ok later => .ok (samples ++ later)

def buildTrainingSet (store : InMemoryBitemporalStore) (fs : FeatureStore)
    (schedule : List Datetime) (universe' : PointInTimeUniverse) (horizonDays : ℤ)
    (dataset : String) : Except ForecastError TrainingSet :=
  match realizedReturns store dataset with
  | .error e => .error (.price e)
  | .ok returns =>
    match samplesOver store fs universe' returns horizonDays (sortBy id schedule) with
    | .error e => .error e
    | .ok [] => .error .keyError
    | .ok samples => .ok ⟨samples, fs.featureNames ++ [regimeFeature]⟩

/-! ### The bars of a label -/

variable {index : List Datetime} {t : Datetime} {h : ℤ}

/-- How many bars are strictly after `t`. -/
def barsAfter (index : List Datetime) (t : Datetime) : ℕ := (index.filter (t < ·)).length

theorem labelBars_eq (hi : index.Pairwise (· < ·)) (t : Datetime) (hh : 0 ≤ h) :
    labelBars index t h = (index.filter (t < ·)).take h.toNat := by
  rw [labelBars, iloc_add index (List.length_filter_le _ _) hh, filter_lt_eq_drop hi]

theorem length_labelBars (hi : index.Pairwise (· < ·)) (t : Datetime) (hh : 0 ≤ h) :
    (labelBars index t h).length = min h.toNat (barsAfter index t) := by
  rw [labelBars_eq hi t hh, List.length_take, barsAfter]

theorem forwardReturn_ne_nil {returns : PriceFrame} (he : returns.columns.toList ≠ []) :
    forwardReturn returns t h ≠ [] ↔ labelBars returns.index t h ≠ [] := by
  unfold forwardReturn
  split
  · next hl => simp [hl]
  · next hl => simp [hl, he]

/-! ### Which decision times give samples -/

section Samples

variable {store : InMemoryBitemporalStore} {fs : FeatureStore} {universe' : PointInTimeUniverse}
  {returns panel : PriceFrame} {samples : List Sample} {d : Datetime} {s : Sample}

/-- The features of the day's members can be computed, and at least two members have a price. -/
def Labelled (fs : FeatureStore) (universe' : PointInTimeUniverse) (names : List String)
    (d : Datetime) : Prop :=
  ∃ matrix, fs.computeMatrix d (universe'.membersOn d.date) = .ok matrix ∧
    matrix.isEmpty = false ∧ 2 ≤ (matrix.symbols.filter (· ∈ names)).length

theorem forwardReturn_nil (hl : labelBars returns.index d h = []) : forwardReturn returns d h = [] :=
  if_pos hl

theorem validSymbols_forwardReturn (matrix : FeatureMatrix)
    (hl : labelBars returns.index d h ≠ []) :
    validSymbols matrix (forwardReturn returns d h) =
      matrix.symbols.filter (· ∈ returns.names) := by
  have hf : (forwardReturn returns d h).map Prod.fst = returns.names := by
    rw [forwardReturn, if_neg hl, List.map_map]
    rfl
  rw [validSymbols, hf]

/-- What a decision time contributes: nothing, or a sample of each name, made of its label. -/
theorem samplesAt_cases (hs : samplesAt store fs universe' returns h d = .ok samples) :
    (samples = [] ∧ ¬(labelBars returns.index d h ≠ [] ∧ Labelled fs universe' returns.names d)) ∨
      (samples ≠ [] ∧ labelBars returns.index d h ≠ [] ∧ Labelled fs universe' returns.names d ∧
        ∀ s ∈ samples, s.t0 = d ∧ s.t1 = labelTime d h) := by
  unfold samplesAt at hs
  split at hs
  · cases hs
  next matrix hm =>
    dsimp only at hs
    have hlab : labelBars returns.index d h ≠ [] →
        (Labelled fs universe' returns.names d ↔ ¬(matrix.isEmpty ∨
          (validSymbols matrix (forwardReturn returns d h)).length < 2)) := by
      intro hl
      rw [validSymbols_forwardReturn matrix hl, Labelled, hm, not_or, not_lt, Bool.not_eq_true]
      simp only [Except.ok.injEq, exists_eq_left']
    split at hs
    · next hskip =>
      refine .inl ⟨(Except.ok.inj hs).symm, fun hl ↦ ?_⟩
      exact (hlab hl.1).mp hl.2 hskip
    · next hskip =>
      split at hs
      · cases hs
      have hl : labelBars returns.index d h ≠ [] := by
        intro hnil
        rw [forwardReturn_nil hnil] at hskip
        simp [validSymbols] at hskip
      have hs := (Except.ok.inj hs).symm
      refine .inr ⟨?_, hl, (hlab hl).mpr hskip, ?_⟩
      · rw [hs, ne_eq, List.map_eq_nil_iff, ← List.length_eq_zero_iff]
        omega
      · rw [hs]
        exact List.forall_mem_map.mpr fun _ _ ↦ ⟨rfl, rfl⟩

theorem samplesOver_ok {schedule : List Datetime}
    (hs : samplesOver store fs universe' returns h schedule = .ok samples) :
    (∀ s ∈ samples, ∃ d ∈ schedule, ∃ here, samplesAt store fs universe' returns h d = .ok here ∧
      s ∈ here) ∧
    ∀ d ∈ schedule, ∃ here, samplesAt store fs universe' returns h d = .ok here ∧
      ∀ s ∈ here, s ∈ samples := by
  induction schedule generalizing samples with
  | nil =>
    cases hs
    simp
  | cons d rest ih =>
    rw [samplesOver] at hs
    split at hs
    · cases hs
    next here hd =>
      split at hs
      · cases hs
      next later hlater =>
        obtain ⟨hfrom, hto⟩ := ih hlater
        cases hs
        constructor
        · intro s hm
          rcases List.mem_append.mp hm with hm | hm
          · exact ⟨d, List.mem_cons_self, here, hd, hm⟩
          · obtain ⟨d', hd', hrest⟩ := hfrom s hm
            exact ⟨d', List.mem_cons_of_mem d hd', hrest⟩
        · intro d' hd'
          rcases List.mem_cons.mp hd' with rfl | hd'
          · exact ⟨here, hd, fun s hm ↦ List.mem_append_left later hm⟩
          · obtain ⟨here', hh', hm⟩ := hto d' hd'
            exact ⟨here', hh', fun s hs ↦ List.mem_append_right here (hm s hs)⟩

theorem realizedReturns_ok {dataset : String} (hr : realizedReturns store dataset = .ok returns)
    (hp : observationsToPriceFrame (store.asOf distantFuture { dataset := some dataset }) "close" =
      .ok panel) : returns.index = panel.index ∧ returns.names = panel.names := by
  rw [realizedReturns, hp] at hr
  have hr : returns = if panel.isEmpty then panel else panel.diff pctChange :=
    (Except.ok.inj hr).symm
  split at hr
  · rw [hr]
    exact ⟨rfl, rfl⟩
  · rw [hr]
    exact ⟨rfl, by simp [Frame.names, Keyed.keys, Frame.diff, Dict.mapVals]⟩

/-- The samples are those of the scheduled times that have a label bar and two priced names. -/
theorem buildTrainingSet_ok {schedule : List Datetime} {dataset : String} {ts : TrainingSet}
    (hts : buildTrainingSet store fs schedule universe' h dataset = .ok ts)
    (hp : observationsToPriceFrame (store.asOf distantFuture { dataset := some dataset }) "close" =
      .ok panel) :
    (∀ s ∈ ts.samples, s.t0 ∈ schedule ∧ s.t1 = labelTime s.t0 h ∧
      Labelled fs universe' panel.names s.t0) ∧
    ∀ d ∈ schedule, Labelled fs universe' panel.names d → labelBars panel.index d h ≠ [] →
      ∃ s ∈ ts.samples, s.t0 = d ∧ s.t1 = labelTime d h := by
  unfold buildTrainingSet at hts
  split at hts
  · cases hts
  next returns hr =>
    obtain ⟨hi, hn⟩ := realizedReturns_ok hr hp
    split at hts
    · cases hts
    · cases hts
    next samples _ hs =>
      cases hts
      obtain ⟨hfrom, hto⟩ := samplesOver_ok hs
      rw [← hi, ← hn]
      constructor
      · intro s hm
        obtain ⟨d, hd, here, hh, hm⟩ := hfrom s hm
        rcases samplesAt_cases hh with ⟨rfl, -⟩ | ⟨-, -, hl, ht⟩
        · cases hm
        · obtain ⟨rfl, h₁⟩ := ht s hm
          exact ⟨(sortBy_perm id schedule).mem_iff.mp hd, h₁, hl⟩
      · intro d hd hlab hl
        obtain ⟨here, hh, hsub⟩ := hto d ((sortBy_perm id schedule).mem_iff.mpr hd)
        rcases samplesAt_cases hh with ⟨-, hnot⟩ | ⟨hne, -, -, ht⟩
        · exact absurd ⟨hl, hlab⟩ hnot
        · obtain ⟨s, hm⟩ := List.exists_mem_of_ne_nil here hne
          exact ⟨s, hsub s hm, ht s hm⟩

end Samples

end MarketTrader.Forecasting
