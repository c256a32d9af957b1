import MarketTrader.Runtime.GoalBook

namespace MarketTrader.Runtime

open Library MarketTrader.Core Storage InMemoryBitemporalStore Config Portfolio Features Backtest
  Execution Feedback

variable {β : Type} {N : Numerics} {D : Digests} {B : Broker β} {settings : Settings}
  {options : CycleOptions} {limits : RiskLimits} {w : World β} {store : InMemoryBitemporalStore}
  {asOf : Datetime} {symbols selected held names excluded : List String} {prices : Dict String ℚ}
  {matrix : FeatureMatrix} {ranked : List (String × ℚ)} {positions : List Position}
  {book : Weights} {symbol : String}

/-! ### The names of a book -/

/-- The book holds nothing but these names. -/
def NamesIn (names : List String) (book : Weights) : Prop := ∀ s ∈ book.keys, s ∈ names

namespace NamesIn

theorem empty (names : List String) : NamesIn names .empty := fun s hs ↦ by cases hs

theorem mono {names' : List String} (h : NamesIn names book) (hn : ∀ s ∈ names, s ∈ names') :
    NamesIn names' book :=
  fun s hs ↦ hn s (h s hs)

theorem of_list {l : List (String × ℚ)} (h : ∀ a ∈ l, a.1 ∈ names) :
    NamesIn names (.ofList l) := by
  intro s hs
  obtain ⟨a, ha, rfl⟩ := Keyed.mem_keys.mp hs
  exact h a (Keyed.mem_of_mem_ofList ha)

theorem of_longIn (h : LongIn names book) : NamesIn names book := by
  intro s hs
  obtain ⟨a, ha, rfl⟩ := Keyed.mem_keys.mp hs
  exact (h a ha).1

theorem mapVals (h : NamesIn names book) (f : String → ℚ → ℚ) :
    NamesIn names (Dict.mapVals f book) := by
  rwa [NamesIn, Dict.keys_mapVals]

theorem filter (h : NamesIn names book) (p : String × ℚ → Bool) : NamesIn names (book.filter p) := by
  intro s hs
  obtain ⟨a, ha, rfl⟩ := Keyed.mem_keys.mp hs
  exact h _ (Keyed.mem_keys.mpr ⟨a, List.mem_of_mem_filter ha, rfl⟩)

theorem capExposure (h : NamesIn names book) (p : String → Bool) (cap : ℚ) :
    NamesIn names (capExposure p cap book) := by
  unfold Portfolio.capExposure
  dsimp only
  split
  · exact h.mapVals _
  · exact h

theorem capNet (h : NamesIn names book) (limits : RiskLimits) :
    NamesIn names (capNet limits book) := by
  unfold Portfolio.capNet
  dsimp only
  split
  · split
    · exact h.mapVals _
    · exact h
  · exact h

theorem applyRiskLimits (h : NamesIn names book) (limits : RiskLimits) :
    NamesIn names (applyRiskLimits book limits none) :=
  ((((h.mapVals _).capExposure _ _).capNet limits).filter _ :)

theorem volatilityTargetWeights (h : NamesIn names book) (N : Numerics) (cov : List (List ℚ))
    (targetVol : ℚ) : NamesIn names (volatilityTargetWeights N book cov targetVol) := by
  unfold Portfolio.volatilityTargetWeights
  dsimp only
  split
  · exact h
  · exact h.mapVals _

theorem volTargetWeights (h : NamesIn names book) (N : Numerics) (returns : PriceFrame)
    (targetVol maxGross : ℚ) :
    NamesIn names (volTargetWeights N book returns targetVol maxGross) := by
  let kept := book.keys.filter (· ∈ returns.names)
  let window := (returns.pick kept).columns.toList.filterMap (fun c ↦
    if c.2.all Option.isSome then some (c.1, c.2.reduceOption) else none)
  have hwindow : ∀ c ∈ window, c.1 ∈ names := by
    intro c hc
    obtain ⟨a, ha, hac⟩ := List.mem_filterMap.mp hc
    obtain rfl := Option.some.inj (Option.ite_none_right_eq_some.mp hac).2
    obtain ⟨s, hs, hsa⟩ := List.mem_filterMap.mp (Keyed.mem_of_mem_ofList ha)
    obtain ⟨col, -, rfl⟩ := Option.map_eq_some_iff.mp hsa
    exact h s (List.mem_of_mem_filter hs)
  have hw : NamesIn names (.ofList (window.map (fun c ↦ (c.1, Dict.getD book c.1 0)))) := by
    apply of_list
    intro a ha
    obtain ⟨c, hc, rfl⟩ := List.mem_map.mp ha
    exact hwindow c hc
  have hscaled := hw.volatilityTargetWeights N (N.ledoitWolf (window.map Prod.snd)) targetVol
  unfold Runtime.volTargetWeights
  dsimp only
  split
  · exact h
  · refine filter ?_ _
    split
    · exact hscaled.mapVals _
    · exact hscaled

end NamesIn

theorem namesIn_tiltWeights (N : Numerics) (scores : Option Scores) (names : List String)
    (tiltStrength : ℚ) : NamesIn names (tiltWeights N scores names tiltStrength) := by
  have hbase := NamesIn.of_longIn (longIn_equalWeights names)
  unfold tiltWeights
  split
  · exact hbase
  · next scores =>
    split
    · exact hbase
    · dsimp only
      split
      · apply NamesIn.of_list
        intro a ha
        obtain ⟨b, hb, rfl⟩ := List.mem_map.mp ha
        obtain ⟨c, hc, rfl⟩ := List.mem_map.mp hb
        have hfst := List.mem_map_of_mem (f := Prod.fst) hc
        rw [fst_crossSectionalZscore, List.map_map, reindex, List.map_map] at hfst
        obtain ⟨s, hs, hfst⟩ := List.mem_map.mp hfst
        exact hfst ▸ hs
      · exact hbase

theorem namesIn_sizeBook (N : Numerics) (returns : PriceFrame) (targetVol : ℚ)
    (limits : RiskLimits) (scores : Option Scores) (tiltStrength : ℚ) (lookback : ℤ) :
    NamesIn returns.names (sizeBook N returns targetVol limits scores tiltStrength lookback) := by
  have hraw := namesIn_tiltWeights N scores returns.names tiltStrength
  unfold sizeBook
  dsimp only
  split
  · exact NamesIn.empty _
  · refine NamesIn.applyRiskLimits (NamesIn.filter ?_ _) limits
    split
    · refine NamesIn.volatilityTargetWeights ?_ N _ _
      have hclean : NamesIn returns.names (.ofList ((cleanColumns returns lookback).map (fun c ↦
          (c.1, Dict.getD (tiltWeights N scores returns.names tiltStrength) c.1 0)))) := by
        apply NamesIn.of_list
        intro a ha
        obtain ⟨c, hc, rfl⟩ := List.mem_map.mp ha
        exact mem_names_of_clean hc
      split
      · exact hclean.mapVals _
      · exact hclean
    · exact hraw.mapVals _

theorem mem_ranked_of_selected {names : List String} {enterK exitK : ℤ} {cap : Option ℤ}
    (h : symbol ∈ selectWithHysteresis names held enterK exitK cap) : symbol ∈ names := by
  have hparts : ∀ s ∈ names.filter (fun s ↦ s ∈ held ∧ s ∈ iloc names 0 exitK) ++
      (iloc names 0 enterK).filter (· ∉ held), s ∈ names := by
    intro s hs
    rcases List.mem_append.mp hs with hs | hs
    · exact List.mem_of_mem_filter hs
    · exact mem_of_mem_iloc (List.mem_of_mem_filter hs)
  unfold selectWithHysteresis at h
  dsimp only at h
  split at h
  · exact hparts symbol h
  · exact hparts symbol (mem_of_mem_iloc h)

theorem namesIn_chassisBook
    (h : chassisBook N settings options limits store asOf ranked excluded = .ok book) :
    NamesIn ((ranked.map Prod.fst).filter (· ∉ excluded)) book := by
  unfold chassisBook at h
  dsimp only at h
  split at h
  · cases h
  · cases h
    exact NamesIn.empty _
  · next returns hr =>
    split at h
    · cases h
      exact NamesIn.empty _
    · cases h
      exact (namesIn_sizeBook N returns _ limits _ _ _).mono (names_trailingReturns hr)

theorem namesIn_winnersBook
    (h : winnersBook N settings options limits store asOf matrix ranked held excluded = .ok book) :
    NamesIn ((ranked.map Prod.fst).filter (· ∉ excluded)) book := by
  let winners := (selectWithHysteresis (ranked.map Prod.fst) held
    (bands options ranked.length).1 (bands options ranked.length).2
    options.maxPositions).filter (· ∉ excluded)
  have hbase : ∀ mode, NamesIn ((ranked.map Prod.fst).filter (· ∉ excluded))
      (riskWeights winners matrix mode ranked) := by
    intro mode
    refine (NamesIn.of_longIn (longIn_riskWeights mode ranked)).mono fun s hs ↦ ?_
    obtain ⟨hs, hout⟩ := List.mem_filter.mp hs
    exact List.mem_filter.mpr ⟨mem_ranked_of_selected hs, hout⟩
  unfold winnersBook at h
  dsimp only at h
  split at h
  · split at h
    · cases h
    · cases h
      exact (hbase _).applyRiskLimits limits
    · cases h
      exact ((hbase _).volTargetWeights N _ _ _).applyRiskLimits limits
  · cases h
    exact (hbase _).applyRiskLimits limits

/-- Whatever the mode, the new book holds nothing that is not ranked, and nothing reserved. -/
theorem namesIn_targetBook
    (h : targetBook N settings options limits store asOf matrix ranked positions prices =
      .ok book) : NamesIn ((ranked.map Prod.fst).filter (· ∉ options.reserved)) book := by
  unfold targetBook at h
  split at h
  · cases h
  · next cut _ =>
    have hout : ∀ s ∈ (ranked.map Prod.fst).filter (· ∉ cut ++ options.reserved),
        s ∈ (ranked.map Prod.fst).filter (· ∉ options.reserved) := by
      intro s hs
      simp only [List.mem_filter, List.mem_append, not_or, decide_eq_true_eq] at hs ⊢
      exact ⟨hs.1, hs.2.2⟩
    dsimp only at h
    split at h
    · cases h
      exact NamesIn.empty _
    · split at h
      · exact (namesIn_chassisBook h).mono hout
      · exact (namesIn_winnersBook h).mono hout

/-! ### The ranking of a composite -/

/-- A weighted sum of the z-scores, whatever the weights. -/
def IsComposite (sqrt : ℚ → ℚ) (scorer : ScoreFn) : Prop :=
  ∀ matrix asOf, ∃ weights, scorer matrix asOf = .ok (compositeScore sqrt matrix weights)

theorem isComposite_compositeScorer (sqrt : ℚ → ℚ) :
    IsComposite sqrt (fun m _ ↦ .ok (compositeScorer sqrt m)) :=
  fun _ _ ↦ ⟨_, rfl⟩

theorem isComposite_icWeightedScorer (sqrt : ℚ → ℚ) (ic : Weights) (minAbsIc : ℚ) :
    IsComposite sqrt (fun m _ ↦ .ok (icWeightedScorer sqrt ic minAbsIc m)) :=
  fun _ _ ↦ ⟨_, rfl⟩

/-- The scorer of a cycle, the equal-weight composite by default. -/
def scorerOf (N : Numerics) (options : CycleOptions) : ScoreFn :=
  options.scoreFn.getD (fun m _ ↦ .ok (compositeScorer N.sqrt m))

theorem mem_rank_compositeScore (sqrt : ℚ → ℚ) (matrix : FeatureMatrix) (weights : Weights) :
    symbol ∈ (rank (compositeScore sqrt matrix weights)).map Prod.fst ↔
      symbol ∈ matrix.symbols := by
  rw [rank, ((sortBy_perm _ _).map _).mem_iff, compositeScore, List.filterMap_map]
  simp

theorem computeMatrix_spec {features : List Feature}
    (h : computeMatrix features store asOf symbols = .ok matrix) :
    matrix.symbols = symbols ∧ (matrix.columns.toList = [] ↔ features = []) ∧
      ∀ f ∈ features, ∃ scores, f.compute store asOf symbols = .ok scores := by
  obtain ⟨columns, hc, rfl⟩ := map_eq_ok.mp h
  have hok : ∀ f ∈ features, ∃ scores, f.compute store asOf symbols = .ok scores := by
    intro f hf
    obtain ⟨v, hv⟩ := Dict.ok_of_collect hc f hf
    obtain ⟨scores, hs, -⟩ := map_eq_ok.mp hv
    exact ⟨scores, hs⟩
  refine ⟨rfl, ⟨fun hempty ↦ ?_, ?_⟩, hok⟩
  · refine List.eq_nil_iff_forall_not_mem.mpr fun f hf ↦ ?_
    obtain ⟨scores, hs⟩ := hok f hf
    have hmem : f.name ∈ columns.keys :=
      (Dict.mem_keys_collect hc).mpr (.inr ⟨f, hf, rfl, reindex scores symbols, by rw [hs]; rfl⟩)
    rw [Keyed.keys, show columns.toList = [] from hempty] at hmem
    cases hmem
  · rintro rfl
    cases hc
    rfl

/-- The ranking has the listed symbols, all of them. -/
theorem mem_ranked (hs : IsComposite N.sqrt (scorerOf N options))
    (h : rankUniverse N options store asOf symbols = .ok (matrix, ranked)) :
    symbol ∈ ranked.map Prod.fst ↔ symbol ∈ symbols ∧ options.features ≠ [] := by
  unfold rankUniverse at h
  split at h
  · cases h
  · next m hm =>
    obtain ⟨hsymbols, hcols, -⟩ := computeMatrix_spec hm
    obtain ⟨weights, hw⟩ := hs m asOf
    rw [scorerOf] at hw
    dsimp only at h
    rw [hw] at h
    by_cases he : m.isEmpty
    · rw [if_pos he] at h
      cases h
      have hnone : ¬(symbol ∈ symbols ∧ options.features ≠ []) := by
        rintro ⟨hsym, hf⟩
        rw [FeatureMatrix.isEmpty, Bool.or_eq_true, List.isEmpty_iff, List.isEmpty_iff,
          hsymbols] at he
        rcases he with rfl | he
        · cases hsym
        · exact hf (hcols.mp he)
      simpa [rank, sortBy] using hnone
    · rw [if_neg he] at h
      cases h
      have hf : options.features ≠ [] := by
        intro hf
        rw [FeatureMatrix.isEmpty, hcols.mpr hf] at he
        simp at he
      rw [mem_rank_compositeScore, hsymbols]
      simp [hf]

theorem exists_ranking (hs : IsComposite N.sqrt (scorerOf N options)) :
    (∃ ranking, rankUniverse N options store asOf symbols = .ok ranking) ↔
      ∀ f ∈ options.features, ∃ scores, f.compute store asOf symbols = .ok scores := by
  constructor
  · rintro ⟨ranking, h⟩
    unfold rankUniverse at h
    split at h
    · cases h
    · next m hm => exact (computeMatrix_spec hm).2.2
  · intro hok
    obtain ⟨columns, hc⟩ : ∃ columns, Dict.collect Feature.name
        (fun f ↦ (f.compute store asOf symbols).map (fun s ↦ some (reindex s symbols))) .empty
        options.features = .ok columns := by
      refine Dict.collect_total fun f hf ↦ ?_
      obtain ⟨scores, h⟩ := hok f hf
      exact ⟨some (reindex scores symbols), by rw [h]; rfl⟩
    have hm : computeMatrix options.features store asOf symbols = .ok ⟨symbols, columns⟩ := by
      rw [computeMatrix, hc]
      rfl
    obtain ⟨weights, hw⟩ := hs ⟨symbols, columns⟩ asOf
    rw [scorerOf] at hw
    rw [rankUniverse, hm]
    dsimp only
    rw [hw]
    split
    · next e he => split at he <;> cases he
    · exact ⟨_, rfl⟩

/-! ### What a cycle leaves behind -/

theorem mem_of_logCyclePredictions {horizonDays : ℤ} {modelVersion : String} {o : Observation}
    (h : o ∈ (logCyclePredictions D store ranked matrix asOf modelVersion horizonDays).toList) :
    o ∈ store.toList ∨ o.entityId ∈ ranked.map Prod.fst := by
  unfold logCyclePredictions at h
  split at h
  · exact .inl h
  · refine (Keyed.mem_of_mem_insertAll h).imp_right fun hm ↦ ?_
    obtain ⟨rec, hrec, rfl⟩ := List.mem_map.mp hm
    obtain ⟨s, hs, rfl⟩ := List.mem_map.mp hrec
    exact List.mem_map_of_mem hs

/-- What a cycle logs, and what it aims at, is ranked. -/
theorem runPaperCycle_ranked {out : Except CycleError CycleResult × World β}
    (h : runPaperCycle N D B settings options w asOf symbols prices = out) :
    out.2.store = w.store ∧ (∃ e, out.1 = .error e) ∨
    ∃ matrix ranked, rankUniverse N options w.store asOf symbols = .ok (matrix, ranked) ∧
      (∀ o ∈ out.2.store.toList, o.dataset = predictionDataset →
        o ∈ w.store.toList ∨ o.entityId ∈ ranked.map Prod.fst) ∧
      ∀ result, out.1 = .ok result → NamesIn (ranked.map Prod.fst) result.targetWeights := by
  subst h
  unfold runPaperCycle
  dsimp only
  generalize (if options.cancelStaleOrders then cancelStale B options.reserved w.broker
    else w.broker) = b
  split
  · next e _ => exact .inl ⟨rfl, e, rfl⟩
  · next matrix ranked hr =>
    refine .inr ⟨matrix, ranked, hr, ?_⟩
    have hlog : ∀ o ∈ (if options.predictionLog ∧ !matrix.isEmpty then
        logCyclePredictions D w.store ranked matrix asOf options.modelVersion
          options.predictionHorizon
        else w.store).toList, o ∈ w.store.toList ∨ o.entityId ∈ ranked.map Prod.fst := by
      intro o ho
      split at ho
      · exact mem_of_logCyclePredictions ho
      · exact .inl ho
    split
    · exact ⟨fun o ho _ ↦ hlog o ho, fun result hres ↦ by cases hres⟩
    · next book hbook =>
      have hnames := (namesIn_targetBook hbook).mono fun s hs ↦ List.mem_of_mem_filter hs
      split
      · refine ⟨fun o ho _ ↦ hlog o ho, fun result hres ↦ ?_⟩
        cases hres
        exact hnames
      · have hspares : ∀ (e : ExecutionEngine) (w' : World β) (goal : Dict String ℚ),
            ∀ o ∈ (rebalance D B e w' goal prices asOf).world.store.toList,
              o.dataset = predictionDataset → o ∈ w'.store.toList := fun e w' goal o ho hd ↦
          (spares_rebalance_of_ne (by decide) (by decide) B e w' goal prices asOf).mem_of_mem ho hd
        split
        · exact ⟨fun o ho hd ↦ hlog o (hspares _ _ _ o ho hd), fun result hres ↦ by cases hres⟩
        · refine ⟨fun o ho hd ↦ hlog o (hspares _ _ _ o ho hd), fun result hres ↦ ?_⟩
          cases hres
          exact hnames

/-! ### Dead tickers -/

/-- No price of the symbol is known at the time. -/
def Dead (store : InMemoryBitemporalStore) (asOf : Datetime) (symbol : String) : Prop :=
  ∀ o ∈ store.asOf asOf { dataset := some priceDataset }, o.entityId ≠ symbol

/-- The symbol is neither ranked nor chosen, nothing is logged for it, and the cycle does not aim at
holding it. -/
structure DropsOut (N : Numerics) (D : Digests) (B : Broker β) (settings : Settings)
    (options : CycleOptions) (w : World β) (asOf : Datetime) (symbols : List String)
    (prices : Dict String ℚ) (symbol : String) : Prop where
  ranking : ∀ matrix ranked, rankUniverse N options w.store asOf symbols = .ok (matrix, ranked) →
    symbol ∉ ranked.map Prod.fst
  slot : ∀ matrix ranked, rankUniverse N options w.store asOf symbols = .ok (matrix, ranked) →
    ∀ held, symbol ∉ selectWithHysteresis (ranked.map Prod.fst) held
      (bands options ranked.length).1 (bands options ranked.length).2 options.maxPositions
  prediction : ∀ o ∈ (runPaperCycle N D B settings options w asOf symbols prices).2.store.toList,
    o.dataset = predictionDataset → o.entityId = symbol → o ∈ w.store.toList
  target : ∀ result, (runPaperCycle N D B settings options w asOf symbols prices).1 = .ok result →
    symbol ∉ result.targetWeights.keys

theorem dropsOut_of_not_ranked (h : ∀ matrix ranked,
    rankUniverse N options w.store asOf symbols = .ok (matrix, ranked) →
      symbol ∉ ranked.map Prod.fst) :
    DropsOut N D B settings options w asOf symbols prices symbol where
  ranking := h
  slot matrix ranked hr held hs := h matrix ranked hr (mem_ranked_of_selected hs)
  prediction o ho hd hs := by
    rcases runPaperCycle_ranked rfl with ⟨hstore, -⟩ | ⟨matrix, ranked, hr, hlog, -⟩
    · rwa [hstore] at ho
    · exact (hlog o ho hd).resolve_right fun hm ↦ h matrix ranked hr (hs ▸ hm)
  target result hres hs := by
    rcases runPaperCycle_ranked rfl with ⟨-, e, he⟩ | ⟨matrix, ranked, hr, -, htarget⟩
    · rw [hres] at he
      cases he
    · exact h matrix ranked hr (htarget result hres symbol hs)

/-- A composite leaves out the dead tickers only where there are none among the listed symbols, or
where nothing is ranked at all. -/
theorem dead_ticker_drops_out_iff (N : Numerics) (D : Digests) (B : Broker β) (settings : Settings)
    (options : CycleOptions) (hs : IsComposite N.sqrt (scorerOf N options)) (w : World β)
    (asOf : Datetime) (symbols : List String) (prices : Dict String ℚ) :
    (∀ symbol, Dead w.store asOf symbol →
      DropsOut N D B settings options w asOf symbols prices symbol) ↔
    (∀ symbol ∈ symbols, ¬Dead w.store asOf symbol) ∨ options.features = [] ∨
      ∃ f ∈ options.features, ∃ e, f.compute w.store asOf symbols = .error e := by
  constructor
  · intro h
    by_contra hno
    push Not at hno
    obtain ⟨⟨symbol, hsymbol, hdead⟩, hf, hraises⟩ := hno
    have hok : ∀ f ∈ options.features, ∃ scores, f.compute w.store asOf symbols = .ok scores := by
      intro f hfm
      cases hc : f.compute w.store asOf symbols with
      | error e => exact absurd hc (hraises f hfm e)
      | ok scores => exact ⟨scores, rfl⟩
    obtain ⟨⟨matrix, ranked⟩, hr⟩ := (exists_ranking hs).mpr hok
    exact (h symbol hdead).ranking matrix ranked hr ((mem_ranked hs hr).mpr ⟨hsymbol, hf⟩)
  · intro h symbol hdead
    refine dropsOut_of_not_ranked fun matrix ranked hr hm ↦ ?_
    obtain ⟨hsymbol, hf⟩ := (mem_ranked hs hr).mp hm
    rcases h with hlive | hnil | ⟨f, hfm, e, he⟩
    · exact hlive symbol hsymbol hdead
    · exact hf hnil
    · obtain ⟨scores, hok⟩ := (exists_ranking hs).mp ⟨_, hr⟩ f hfm
      rw [he] at hok
      cases hok

/-! ### One dead ticker between a winner and a loser -/

def barAt (symbol : String) (t : Datetime) (close : ℚ) : Observation :=
  { fetchedRow "alpaca" priceDataset symbol none (.ofList [("close", .num close)]) with
    eventTime := t
    knowledgeTime := t }

/-- "A" gains and "B" loses. There is no price of "C". -/
def winnerAndLoser : World PaperBroker where
  broker := { prices := .empty, cash := 1000, positions := .empty }
  store := ingest .plain .empty [barAt "A" 0 100, barAt "B" 0 100, barAt "A" 1 110, barAt "B" 1 90]
  submitted := []

def twoWinners : CycleOptions where
  features := [({ lookback := 1, dataset := priceDataset } : Momentum).feature]
  topQuantile := 1
  maxPositions := some 2

theorem isComposite_twoWinners : IsComposite Numerics.plain.sqrt (scorerOf .plain twoWinners) :=
  isComposite_compositeScorer _

theorem dead_winnerAndLoser : Dead winnerAndLoser.store 1 "C" := by
  unfold Dead
  decide +kernel

theorem dead_ticker_drops_out_unlisted : Dead winnerAndLoser.store 1 "C" ∧
    DropsOut .plain .plain paperBroker {} twoWinners winnerAndLoser 1 ["A", "B"] .empty "C" := by
  have hlive : ∀ symbol ∈ ["A", "B"], ¬Dead winnerAndLoser.store 1 symbol := by
    unfold Dead
    decide +kernel
  exact ⟨dead_winnerAndLoser, (dead_ticker_drops_out_iff .plain .plain paperBroker {} twoWinners
    isComposite_twoWinners winnerAndLoser 1 ["A", "B"] .empty).mpr (.inl hlive) "C"
      dead_winnerAndLoser⟩

/-- A listed ticker without a price scores the average, and takes the place of the loser. -/
theorem dead_ticker_takes_slot :
    ¬∀ (β : Type) (N : Numerics) (D : Digests) (B : Broker β) (settings : Settings)
      (options : CycleOptions), IsComposite N.sqrt (scorerOf N options) →
      ∀ (w : World β) (asOf : Datetime) (symbols : List String) (prices : Dict String ℚ) symbol,
      Dead w.store asOf symbol →
      DropsOut N D B settings options w asOf symbols prices symbol := by
  intro h
  have hrun : ((runPaperCycle .plain .plain paperBroker {} twoWinners winnerAndLoser 1
      ["A", "B", "C"] .empty).1.toOption.any (fun r ↦ r.targetWeights.keys = ["A", "C"])) := by
    decide +kernel
  have hdrops := h PaperBroker .plain .plain paperBroker {} twoWinners isComposite_twoWinners
    winnerAndLoser 1 ["A", "B", "C"] .empty "C" dead_winnerAndLoser
  cases hout : (runPaperCycle .plain .plain paperBroker {} twoWinners winnerAndLoser 1
      ["A", "B", "C"] .empty).1 with
  | error e =>
    rw [hout] at hrun
    cases hrun
  | ok result =>
    rw [hout] at hrun
    have hkeys : result.targetWeights.keys = ["A", "C"] := of_decide_eq_true hrun
    apply hdrops.target result hout
    rw [hkeys]
    exact List.mem_cons_of_mem _ List.mem_cons_self

end MarketTrader.Runtime
