import MarketTrader.Forecasting.Dataset
import MarketTrader.Library.DictSum
import MarketTrader.Library.Root
import MarketTrader.Memory.Episodic
import MarketTrader.Runtime.Grading

namespace MarketTrader.Runtime

open Library MarketTrader.Core Storage InMemoryBitemporalStore Feedback Backtest Features Portfolio
  Forecasting Memory

inductive EvaluationError
  | learning (e : LearningError)
  | regime (e : ForecastError)
deriving DecidableEq

/-- A decision, how it came out, and the regime it was made in. -/
structure JournalEntry where
  symbol : String
  asOf : Datetime
  probability : ℚ
  realizedReturn : ℚ
  won : Bool
  regime : String
  features : List (String × ℚ)

def regimeLabel (store : InMemoryBitemporalStore) (t : Datetime) : Except ForecastError String :=
  (riskOn store t).map (fun on ↦ if on then "risk_on" else "risk_off")

def JournalEntry.ofGraded (regime : String) (g : PredictionRecord × ℚ) : JournalEntry :=
  { symbol := g.1.symbol
    asOf := g.1.asOf
    probability := g.1.probability
    realizedReturn := g.2
    won := 0 < g.2
    regime := regime
    features := g.1.features }

/-- The entries of the decisions of one instant after another. -/
def journalOf (store : InMemoryBitemporalStore) (panel : PriceFrame) (horizon : ℤ) :
    List (Datetime × List PredictionRecord) → Except ForecastError (List JournalEntry)
  | [] => .ok []
  | (t, group) :: groups =>
    let forward := if panel.isEmpty then [] else forwardReturnsAt panel t horizon
    -- the horizon has not elapsed yet
    if forward = [] then journalOf store panel horizon groups
    else do
      let regime ← regimeLabel store t
      let rest ← journalOf store panel horizon groups
      return group.filterMap (fun p ↦ (forward.find? (·.1 = p.symbol)).map
        (fun r ↦ .ofGraded regime (p, r.2))) ++ rest

def buildTradeJournal (store : InMemoryBitemporalStore) (asOf : Datetime) (modelVersion : String)
    (horizonDays : ℤ := 5) : Except EvaluationError (List JournalEntry) :=
  match loadPredictions store asOf (some modelVersion) with
  | .error e => .error (.learning (.prediction e))
  | .ok preds =>
    match observationsToPriceFrame
      (store.asOf distantFuture { dataset := some priceDataset }) "close" with
    | .error e => .error (.learning (.price e))
    | .ok panel => (journalOf store panel horizonDays (byTime preds).toList).mapError .regime

/-! ### Attribution -/

/-- The names of the rows, each where it first comes. -/
def columnNames (rows : List (List (String × ℚ))) : List String :=
  (rows.flatMap (List.map Prod.fst)).reverse.dedup.reverse

def signalIc (sqrt : ℚ → ℚ) (frame : List (List (String × ℚ))) (ret : List ℚ) : Weights :=
  .ofList ((columnNames frame).filterMap (fun name ↦
    let pairs := (frame.zip ret).filterMap (fun g ↦
      (g.1.find? (·.1 = name)).map (fun f ↦ (f.2, g.2)))
    if variance (pairs.map Prod.fst) = 0 then none
    else (correlation sqrt pairs).map (fun q ↦ (name, q))))

structure RegimeStats where
  regime : String
  n : ℕ
  hitRate : ℚ
  meanReturn : ℚ
  ic : Weights

structure AttributionReport where
  n : ℕ := 0
  hitRate : ℚ := 0
  meanReturn : ℚ := 0
  ic : Weights := .empty
  byRegime : List RegimeStats := []

def hitRateOf (journal : List JournalEntry) : ℚ :=
  (journal.countP JournalEntry.won : ℚ) / journal.length

def meanReturnOf (journal : List JournalEntry) : ℚ :=
  (journal.map JournalEntry.realizedReturn).sum / journal.length

def icOf (sqrt : ℚ → ℚ) (journal : List JournalEntry) : Weights :=
  signalIc sqrt (journal.map JournalEntry.features) (journal.map JournalEntry.realizedReturn)

def attributePerformance (sqrt : ℚ → ℚ) (journal : List JournalEntry) : AttributionReport :=
  if journal = [] then {}
  else
    { n := journal.length
      hitRate := hitRateOf journal
      meanReturn := meanReturnOf journal
      ic := icOf sqrt journal
      byRegime := (sortedDistinct (journal.map JournalEntry.regime)).map (fun regime ↦
        let sub := journal.filter (·.regime = regime)
        { regime := regime
          n := sub.length
          hitRate := hitRateOf sub
          meanReturn := meanReturnOf sub
          ic := icOf sqrt sub }) }

/-! ### Episodic recall -/

/-- The value of a feature, zero where it is missing. -/
def filled (features : List (String × ℚ)) (name : String) : ℚ :=
  ((features.find? (·.1 = name)).map Prod.snd).getD 0

/-- The mean of a column and its deviation, one where it is constant. -/
def standardizer (sqrt : ℚ → ℚ) (col : List ℚ) : ℚ × ℚ :=
  let sd := sqrt (variance col)
  (col.sum / col.length, if sd = 0 then 1 else sd)

/-- Features in the units of the journal. -/
def standardized (sqrt : ℚ → ℚ) (journal : List JournalEntry) (features : List (String × ℚ)) :
    List ℚ :=
  (columnNames (journal.map JournalEntry.features)).map (fun name ↦
    let s := standardizer sqrt (journal.map (fun e ↦ filled e.features name))
    (filled features name - s.1) / s.2)

def JournalEntry.episode (sqrt : ℚ → ℚ) (journal : List JournalEntry) (e : JournalEntry) :
    Episode :=
  { key := e.symbol ++ "@" ++ e.asOf.date.isoformat
    vector := standardized sqrt journal e.features
    outcome := e.realizedReturn
    regime := some e.regime }

def buildEpisodicMemory (sqrt : ℚ → ℚ) (journal : List JournalEntry) : EpisodicMemory :=
  EpisodicMemory.addMany {} (journal.map (JournalEntry.episode sqrt journal))

/-- How the past decisions closest to a setup came out. -/
def analogOutcomes (sqrt : ℚ → ℚ) (journal : List JournalEntry) (query : List (String × ℚ))
    (regime : Option String := none) (k : ℤ := 8) : OutcomeDistribution :=
  if journal = [] then {}
  else (buildEpisodicMemory sqrt journal).outcomeDistribution sqrt
    (standardized sqrt journal query) k regime none

/-! ### The journal and the grades -/

section Journal

variable {sqrt : ℚ → ℚ} {store : InMemoryBitemporalStore} {panel : PriceFrame} {horizon : ℤ}
  {journal : List JournalEntry}

def labelAt (store : InMemoryBitemporalStore) (t : Datetime) : String :=
  (regimeLabel store t).toOption.getD "unknown"

/-- The journal has an entry for each graded decision, with the regime of its own time. -/
theorem journalOf_eq {groups : List (Datetime × List PredictionRecord)}
    (hg : ∀ g ∈ groups, ∀ p ∈ g.2, p.asOf = g.1)
    (h : journalOf store panel horizon groups = .ok journal) :
    let graded := groups.flatMap (fun g ↦
      let forward := if panel.isEmpty then [] else forwardReturnsAt panel g.1 horizon
      g.2.filterMap (fun p ↦ (forward.find? (·.1 = p.symbol)).map (fun r ↦ (p, r.2))))
    journal = graded.map (fun g ↦ .ofGraded (labelAt store g.1.asOf) g) ∧
      ∀ g ∈ graded, regimeLabel store g.1.asOf = .ok (labelAt store g.1.asOf) := by
  induction groups generalizing journal with
  | nil =>
    cases h
    exact ⟨rfl, by simp⟩
  | cons g groups ih =>
    obtain ⟨t, group⟩ := g
    rw [List.forall_mem_cons] at hg
    rw [journalOf] at h
    by_cases hnone : (if panel.isEmpty then [] else forwardReturnsAt panel t horizon) = []
    · rw [if_pos hnone] at h
      simpa [hnone] using ih hg.2 h
    · rw [if_neg hnone] at h
      cases hregime : regimeLabel store t with
      | error e =>
        rw [hregime] at h
        cases h
      | ok regime =>
        cases hrest : journalOf store panel horizon groups with
        | error e =>
          rw [hregime, hrest] at h
          cases h
        | ok rest =>
          rw [hregime, hrest] at h
          obtain rfl := Except.ok.inj h
          obtain ⟨rfl, hlabels⟩ := ih hg.2 hrest
          have hlabel : labelAt store t = regime := by
            rw [labelAt, hregime]
            rfl
          constructor
          · rw [List.flatMap_cons, List.map_append, List.map_filterMap]
            congr 1
            apply List.filterMap_congr
            intro p hp
            rw [Option.map_map]
            apply Option.map_congr
            intro r _
            rw [Function.comp_apply, hg.1 p hp, hlabel]
          · intro g hgm
            rw [List.flatMap_cons, List.mem_append] at hgm
            rcases hgm with hgm | hgm
            · obtain ⟨p, hp, hr⟩ := List.mem_filterMap.mp hgm
              obtain ⟨r, -, rfl⟩ := Option.map_eq_some_iff.mp hr
              rw [hg.1 p hp, hlabel, hregime]
            · exact hlabels g hgm

theorem icOf_ofGraded (regime : Datetime → String) (graded : List (PredictionRecord × ℚ)) :
    icOf sqrt (graded.map (fun g ↦ .ofGraded (regime g.1.asOf) g)) =
      informationCoefficients sqrt graded := by
  have hzip : ((graded.map (fun g ↦ JournalEntry.ofGraded (regime g.1.asOf) g)).map
      JournalEntry.features).zip ((graded.map (fun g ↦ JournalEntry.ofGraded (regime g.1.asOf) g)).map
        JournalEntry.realizedReturn) = graded.map (fun g ↦ (g.1.features, g.2)) := by
    rw [List.map_map, List.map_map, List.zip_map']
    rfl
  rw [icOf, signalIc, hzip, informationCoefficients, columnNames]
  simp only [List.map_map, List.flatMap_map, List.filterMap_map, Function.comp_def,
    JournalEntry.ofGraded]

/-- The journal and the grades are two readings of one set of decisions: what stops one stops the
other, both count the same decisions and find the same IC of each signal, and an entry of the
journal says whether it was won and which regime was on at its own time. -/
theorem journal_agrees_with_grading (sqrt : ℚ → ℚ) (store : InMemoryBitemporalStore)
    (asOf : Datetime) (version : String) (horizon : ℤ) (minAbsIc : ℚ) :
    match gradePredictions sqrt store asOf horizon (some version) minAbsIc with
    | .error e => buildTradeJournal store asOf version horizon = .error (.learning e)
    | .ok grades => ∀ journal, buildTradeJournal store asOf version horizon = .ok journal →
      (attributePerformance sqrt journal).n = grades.n ∧
        (attributePerformance sqrt journal).ic = grades.ic ∧
        ∀ e ∈ journal, e.won = decide (0 < e.realizedReturn) ∧
          regimeLabel store e.asOf = .ok e.regime := by
  rw [gradePredictions, buildTradeJournal]
  cases loadPredictions store asOf (some version) with
  | error e => rfl
  | ok preds =>
    cases observationsToPriceFrame
      (store.asOf distantFuture { dataset := some priceDataset }) "close" with
    | error e => rfl
    | ok panel =>
      have hg : ∀ g ∈ (byTime preds).toList, ∀ p ∈ g.2, p.asOf = g.1 := by
        rintro ⟨t, group⟩ hgm p hp
        obtain ⟨rfl, -⟩ := mem_byTime.mp hgm
        exact of_decide_eq_true (List.mem_filter.mp hp).2
      have hentries : ∀ journal, (journalOf store panel horizon (byTime preds).toList).mapError
          EvaluationError.regime = .ok journal →
          journal = (gradedPairs panel horizon preds).map
            (fun g ↦ .ofGraded (labelAt store g.1.asOf) g) ∧
          ∀ e ∈ journal, e.won = decide (0 < e.realizedReturn) ∧
            regimeLabel store e.asOf = .ok e.regime := by
        intro journal h
        cases hj : journalOf store panel horizon (byTime preds).toList with
        | error e =>
          rw [hj] at h
          cases h
        | ok journal' =>
          rw [hj] at h
          obtain rfl := Except.ok.inj h
          obtain ⟨hjournal, hlabel⟩ := journalOf_eq hg hj
          refine ⟨hjournal, fun e he ↦ ?_⟩
          rw [hjournal] at he
          obtain ⟨g, hgm, rfl⟩ := List.mem_map.mp he
          exact ⟨rfl, hlabel g hgm⟩
      by_cases hnil : gradedPairs panel horizon preds = []
      · simp only [hnil, if_true]
        intro journal h
        obtain ⟨hjournal, hall⟩ := hentries journal h
        rw [hnil] at hjournal
        subst hjournal
        exact ⟨rfl, rfl, hall⟩
      · simp only [hnil, if_false]
        intro journal h
        obtain ⟨hjournal, hall⟩ := hentries journal h
        have hne : journal ≠ [] := by
          rw [hjournal]
          exact fun h ↦ hnil (List.map_eq_nil_iff.mp h)
        rw [attributePerformance, if_neg hne]
        refine ⟨?_, ?_, hall⟩
        · rw [hjournal]
          exact List.length_map _
        · rw [hjournal]
          exact icOf_ofGraded _ _

end Journal

/-! ### The overall figures and those by regime -/

theorem length_mul_hitRateOf (journal : List JournalEntry) :
    (journal.length : ℚ) * hitRateOf journal =
      (journal.map (fun e ↦ if e.won then (1 : ℚ) else 0)).sum := by
  have hsum : (journal.map (fun e ↦ if e.won then (1 : ℚ) else 0)).sum =
      journal.countP JournalEntry.won := by
    induction journal with
    | nil => rfl
    | cons e journal ih =>
      rw [List.map_cons, List.sum_cons, ih, List.countP_cons]
      push_cast
      exact add_comm _ _
  rw [hsum, hitRateOf, mul_div_cancel_of_imp']
  intro h
  have hnil : journal = [] := List.length_eq_zero_iff.mp (by exact_mod_cast h)
  rw [hnil]
  rfl

theorem length_mul_meanReturnOf (journal : List JournalEntry) :
    (journal.length : ℚ) * meanReturnOf journal =
      (journal.map JournalEntry.realizedReturn).sum := by
  rw [meanReturnOf, mul_div_cancel_of_imp']
  intro h
  have hnil : journal = [] := List.length_eq_zero_iff.mp (by exact_mod_cast h)
  rw [hnil]
  rfl

/-- The line of a regime is what the decisions made in it would say on their own, every decision
counts in one line, and the overall figures are the means of the lines, weighted by the decisions in
them. -/
theorem attribution_by_regime (sqrt : ℚ → ℚ) (journal : List JournalEntry) :
    let report := attributePerformance sqrt journal
    (report.byRegime.map RegimeStats.regime).Pairwise (· < ·) ∧
      (∀ s ∈ report.byRegime,
        let sub := journal.filter (·.regime = s.regime)
        let alone := attributePerformance sqrt sub
        sub ≠ [] ∧ s.n = alone.n ∧ s.hitRate = alone.hitRate ∧ s.meanReturn = alone.meanReturn ∧
          s.ic = alone.ic) ∧
      (report.byRegime.map RegimeStats.n).sum = report.n ∧
      (report.byRegime.map (fun s ↦ (s.n : ℚ) * s.hitRate)).sum = report.n * report.hitRate ∧
      (report.byRegime.map (fun s ↦ (s.n : ℚ) * s.meanReturn)).sum =
        report.n * report.meanReturn := by
  intro report
  unfold report
  by_cases hne : journal = []
  · subst hne
    simp [attributePerformance]
  rw [attributePerformance, if_neg hne]
  have hkeys := sortedDistinct_pairwise (journal.map JournalEntry.regime)
  have hnodup : (sortedDistinct (journal.map JournalEntry.regime)).Nodup := hkeys.imp ne_of_lt
  have hmem : ∀ e ∈ journal, e.regime ∈ sortedDistinct (journal.map JournalEntry.regime) :=
    fun e he ↦ mem_sortedDistinct.mpr (List.mem_map_of_mem he)
  refine ⟨by simpa [Function.comp_def] using hkeys, ?_, ?_, ?_, ?_⟩
  · intro s hs
    obtain ⟨regime, hr, rfl⟩ := List.mem_map.mp hs
    have hsub : journal.filter (·.regime = regime) ≠ [] := by
      obtain ⟨e, he, rfl⟩ := List.mem_map.mp (mem_sortedDistinct.mp hr)
      exact List.ne_nil_of_mem (List.mem_filter.mpr ⟨he, decide_eq_true rfl⟩)
    simp only [attributePerformance, hsub, if_false, ne_eq, not_false_eq_true, and_self]
  · have h := sum_parts hnodup hmem (fun _ ↦ (1 : ℕ))
    simpa [Function.comp_def] using h
  · have h := sum_parts hnodup hmem (fun e ↦ if e.won then (1 : ℚ) else 0)
    simpa [Function.comp_def, length_mul_hitRateOf] using h
  · have h := sum_parts hnodup hmem JournalEntry.realizedReturn
    simpa [Function.comp_def, length_mul_meanReturnOf] using h

/-! ### Units of a feature -/

section Units

/-- Features with every value stated in another unit. -/
def restate (a b : String → ℚ) (features : List (String × ℚ)) : List (String × ℚ) :=
  features.map (fun f ↦ (f.1, a f.1 * f.2 + b f.1))

def JournalEntry.restate (a b : String → ℚ) (e : JournalEntry) : JournalEntry :=
  { e with features := Runtime.restate a b e.features }

/-- Another unit for each feature of the journal: another scale where the feature varies, another
zero where it is never missing. -/
structure Restatement (sqrt : ℚ → ℚ) (journal : List JournalEntry) (query : List (String × ℚ))
    (a b : String → ℚ) : Prop where
  root : ∀ name ∈ columnNames (journal.map JournalEntry.features), a name ≠ 0 ∧
    ∀ x, sqrt (a name ^ 2 * x) = |a name| * sqrt x
  scale : ∀ name ∈ columnNames (journal.map JournalEntry.features), |a name| = 1 ∨
    sqrt (variance (journal.map (fun e ↦ filled e.features name))) ≠ 0
  zero : ∀ name ∈ columnNames (journal.map JournalEntry.features), b name = 0 ∨
    (∀ e ∈ journal, name ∈ e.features.map Prod.fst) ∧ name ∈ query.map Prod.fst

variable {sqrt : ℚ → ℚ} {journal : List JournalEntry} {features query : List (String × ℚ)}
  {a b : String → ℚ} {name : String}

theorem columnNames_restate (rows : List (List (String × ℚ))) :
    columnNames (rows.map (restate a b)) = columnNames rows := by
  simp only [columnNames, List.flatMap_map, restate, List.map_map, Function.comp_def]

theorem filled_restate (h : b name = 0 ∨ name ∈ features.map Prod.fst) :
    filled (restate a b features) name = a name * filled features name + b name := by
  have hfind : (restate a b features).find? (·.1 = name) =
      (features.find? (·.1 = name)).map (fun f ↦ (f.1, a f.1 * f.2 + b f.1)) := List.find?_map
  unfold filled
  rw [hfind]
  cases hf : features.find? (·.1 = name) with
  | none =>
    have hb : b name = 0 := by
      refine h.resolve_right fun hm ↦ ?_
      obtain ⟨f, hfm, rfl⟩ := List.mem_map.mp hm
      simpa using List.find?_eq_none.mp hf f hfm
    simp [hb]
  | some f =>
    have hname : f.1 = name := by simpa using List.find?_some hf
    simp [hname]

theorem mean_affine {xs : List ℚ} (hx : xs ≠ []) (a b : ℚ) :
    (xs.map (fun x ↦ a * x + b)).sum / xs.length = a * (xs.sum / xs.length) + b := by
  have hlen : (xs.length : ℚ) ≠ 0 := by exact_mod_cast (List.length_pos_of_ne_nil hx).ne'
  rw [List.sum_map_add, List.sum_map_mul_left, List.map_id', List.map_const', List.sum_replicate]
  field_simp
  simp

theorem variance_affine {xs : List ℚ} (hx : xs ≠ []) (a b : ℚ) :
    variance (xs.map (fun x ↦ a * x + b)) = a ^ 2 * variance xs := by
  simp only [variance, List.length_map, List.map_map, mean_affine hx, Function.comp_def]
  have hterm : ∀ x, (a * x + b - (a * (xs.sum / xs.length) + b)) ^ 2 =
      a ^ 2 * (x - xs.sum / xs.length) ^ 2 := fun x ↦ by ring
  simp only [hterm]
  rw [List.sum_map_mul_left, mul_div_assoc]

theorem standardizer_affine {xs : List ℚ} (hx : xs ≠ []) {a b : ℚ}
    (hroot : ∀ x, sqrt (a ^ 2 * x) = |a| * sqrt x) (ha : a ≠ 0)
    (hscale : |a| = 1 ∨ sqrt (variance xs) ≠ 0) :
    standardizer sqrt (xs.map (fun x ↦ a * x + b)) =
      (a * (standardizer sqrt xs).1 + b, |a| * (standardizer sqrt xs).2) := by
  unfold standardizer
  rw [List.length_map, mean_affine hx, variance_affine hx, hroot]
  by_cases hsd : sqrt (variance xs) = 0
  · have hone : |a| = 1 := hscale.resolve_right (not_not_intro hsd)
    simp [hsd, hone]
  · have hsd' : |a| * sqrt (variance xs) ≠ 0 := mul_ne_zero (abs_ne_zero.mpr ha) hsd
    simp only [hsd, hsd', if_false]

/-- In other units a standardised feature is what it was, but for its sign where the scale is
turned round. -/
theorem standardized_restate (features : List (String × ℚ)) (hj : journal ≠ []) (h : Restatement sqrt journal query a b)
    (hf : ∀ name ∈ columnNames (journal.map JournalEntry.features), b name = 0 ∨
      name ∈ features.map Prod.fst) :
    standardized sqrt (journal.map (.restate a b)) (restate a b features) =
      List.zipWith (· * ·) ((columnNames (journal.map JournalEntry.features)).map
        (fun name ↦ a name / |a name|)) (standardized sqrt journal features) := by
  have hcols : (journal.map (JournalEntry.restate a b)).map JournalEntry.features =
      (journal.map JournalEntry.features).map (restate a b) := by
    simp only [List.map_map]
    rfl
  unfold standardized
  rw [hcols, columnNames_restate, List.zipWith_map, List.zipWith_self]
  apply List.map_congr_left
  intro name hname
  obtain ⟨ha, hroot⟩ := h.root name hname
  have habs : |a name| ≠ 0 := abs_ne_zero.mpr ha
  have hcol : (journal.map (JournalEntry.restate a b)).map (fun e ↦ filled e.features name) =
      (journal.map (fun e ↦ filled e.features name)).map (fun x ↦ a name * x + b name) := by
    rw [List.map_map, List.map_map]
    apply List.map_congr_left
    intro e he
    exact filled_restate ((h.zero name hname).imp_right fun hz ↦ hz.1 e he)
  have hne : journal.map (fun e ↦ filled e.features name) ≠ [] :=
    fun hnil ↦ hj (List.map_eq_nil_iff.mp hnil)
  simp only [hcol, standardizer_affine hne hroot ha (h.scale name hname)]
  rw [filled_restate (hf name hname)]
  field_simp
  ring

theorem distance_signs {signs v q : List ℚ} (hs : ∀ x ∈ signs, x ^ 2 = 1)
    (hv : v.length = signs.length) (hq : q.length = signs.length) :
    distance sqrt (List.zipWith (· * ·) signs v) (List.zipWith (· * ·) signs q) =
      distance sqrt v q := by
  have hterms : List.zipWith (fun x y ↦ (x - y) ^ 2) (List.zipWith (· * ·) signs v)
      (List.zipWith (· * ·) signs q) = List.zipWith (fun x y ↦ (x - y) ^ 2) v q := by
    induction signs generalizing v q with
    | nil =>
      rw [List.length_eq_zero_iff.mp hv, List.length_eq_zero_iff.mp hq]
      rfl
    | cons x signs ih =>
      obtain ⟨y, v, rfl⟩ := List.exists_cons_of_length_eq_add_one hv
      obtain ⟨z, q, rfl⟩ := List.exists_cons_of_length_eq_add_one hq
      rw [List.forall_mem_cons] at hs
      have hterm : (x * y - x * z) ^ 2 = (y - z) ^ 2 := by
        rw [← mul_sub, mul_pow, hs.1, one_mul]
      simp only [List.zipWith_cons_cons, hterm,
        ih hs.2 (Nat.succ.inj hv) (Nat.succ.inj hq)]
  rw [distance, distance, hterms]

theorem length_standardized :
    (standardized sqrt journal features).length =
      (columnNames (journal.map JournalEntry.features)).length := List.length_map _

/-- What the past decisions closest to a setup came to does not depend on the units that the
features are stated in, nor on which way round. -/
theorem analog_outcomes_restate (sqrt : ℚ → ℚ) (journal : List JournalEntry)
    (query : List (String × ℚ)) (a b : String → ℚ) (h : Restatement sqrt journal query a b)
    (regime : Option String) (k : ℤ) :
    analogOutcomes sqrt (journal.map (.restate a b)) (restate a b query) regime k =
      analogOutcomes sqrt journal query regime k := by
  by_cases hj : journal = []
  · rw [hj]
    rfl
  let signs := (columnNames (journal.map JournalEntry.features)).map (fun name ↦ a name / |a name|)
  let turn : Episode → Episode := fun e ↦ { e with vector := List.zipWith (· * ·) signs e.vector }
  have hsigns : ∀ x ∈ signs, x ^ 2 = 1 := by
    intro x hx
    obtain ⟨name, hname, rfl⟩ := List.mem_map.mp hx
    have ha := (h.root name hname).1
    rw [div_pow, sq_abs, div_self (pow_ne_zero 2 ha)]
  have hquery := standardized_restate query hj h fun name hname ↦
    (h.zero name hname).imp_right And.right
  have hmem : buildEpisodicMemory sqrt (journal.map (.restate a b)) =
      ⟨(buildEpisodicMemory sqrt journal).episodes.map turn⟩ := by
    have hall : ∀ journal : List JournalEntry, (buildEpisodicMemory sqrt journal).episodes =
        journal.map (JournalEntry.episode sqrt journal) := fun journal ↦
      (EpisodicMemory.addMany_episodes _ _).trans (List.nil_append _)
    have hepisodes : (buildEpisodicMemory sqrt (journal.map (.restate a b))).episodes =
        (buildEpisodicMemory sqrt journal).episodes.map turn := by
      rw [hall, hall, List.map_map, List.map_map]
      apply List.map_congr_left
      intro e he
      have hvector := standardized_restate e.features hj h fun name hname ↦
        (h.zero name hname).imp_right fun hz ↦ hz.1 e he
      simp only [Function.comp_apply, JournalEntry.episode, JournalEntry.restate, hvector, turn,
        signs]
    rw [← hepisodes]
  rw [analogOutcomes, analogOutcomes, if_neg hj, if_neg (fun hnil ↦ hj (List.map_eq_nil_iff.mp hnil)),
    hmem, hquery]
  apply EpisodicMemory.outcomeDistribution_map turn _ (fun _ ↦ rfl) (fun _ ↦ rfl) fun _ ↦ rfl
  intro e he
  rw [buildEpisodicMemory, EpisodicMemory.addMany_episodes, List.nil_append] at he
  obtain ⟨e, -, rfl⟩ := List.mem_map.mp he
  exact distance_signs hsigns (by simp [signs, JournalEntry.episode, length_standardized])
    (by simp [signs, length_standardized])

def twoDecisions : List JournalEntry :=
  [⟨"A", 0, 1 / 2, 1 / 10, true, "risk_on", [("momentum", 1)]⟩,
    ⟨"B", 0, 1 / 2, -1 / 20, false, "risk_on", [("momentum", 3)]⟩]

/-- In percent, from another zero and turned round. -/
theorem restatement_twoDecisions : Restatement (rootFor [(1, 1)]) twoDecisions [("momentum", 1)]
    (fun _ ↦ -100) (fun _ ↦ 5) := by
  have hcols : columnNames (twoDecisions.map JournalEntry.features) = ["momentum"] := by decide
  constructor
  · intro name _
    refine ⟨by norm_num, fun x ↦ ?_⟩
    have h := rootFor_mul [(1, 1)] (show (0 : ℚ) < 100 by norm_num) x
    norm_num at h ⊢
    exact h
  · intro name hname
    rw [hcols, List.mem_singleton] at hname
    subst hname
    exact .inr (by decide +kernel)
  · intro name hname
    rw [hcols, List.mem_singleton] at hname
    subst hname
    exact .inr ⟨by decide, by decide⟩

theorem analog_outcomes_restate_two :
    analogOutcomes (rootFor [(1, 1)])
        (twoDecisions.map (.restate (fun _ ↦ -100) (fun _ ↦ 5)))
        (restate (fun _ ↦ -100) (fun _ ↦ 5) [("momentum", 1)]) (some "risk_on") 1 =
      analogOutcomes (rootFor [(1, 1)]) twoDecisions [("momentum", 1)] (some "risk_on") 1 :=
  analog_outcomes_restate _ _ _ _ _ restatement_twoDecisions _ _

end Units

end MarketTrader.Runtime
