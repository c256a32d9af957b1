import MarketTrader.Backtest.Replay

namespace MarketTrader.Backtest

open Library MarketTrader.Core Storage InMemoryBitemporalStore Portfolio Features
  MarketTrader.Runtime

variable {N : Numerics} {D : Digests} {setup : ReplaySetup} {full full' : PriceFrame}
  {horizon t : Datetime} {ts : List Datetime} {s s' : Learner}

/-! ### What is revealed -/

/-- The learners cannot be told apart up to the horizon. -/
structure Learner.Agree (horizon : Datetime) (s s' : Learner) : Prop where
  store : s.store = s'.store
  hidden : s.hidden.filter (·.knowledgeTime ≤ horizon) =
    s'.hidden.filter (·.knowledgeTime ≤ horizon)
  sorted : s.hidden.Pairwise (fun a b ↦ a.knowledgeTime ≤ b.knowledgeTime)
  sorted' : s'.hidden.Pairwise (fun a b ↦ a.knowledgeTime ≤ b.knowledgeTime)

theorem takeWhile_eq_filter {l : List Observation}
    (hl : l.Pairwise (fun a b ↦ a.knowledgeTime ≤ b.knowledgeTime)) (ht : t ≤ horizon) :
    l.takeWhile (·.knowledgeTime ≤ t) =
      (l.filter (·.knowledgeTime ≤ horizon)).filter (·.knowledgeTime ≤ t) := by
  induction l with
  | nil => rfl
  | cons o l ih =>
    rw [List.pairwise_cons] at hl
    by_cases ho : o.knowledgeTime ≤ t
    · rw [List.takeWhile_cons_of_pos (by simpa using ho), ih hl.2,
        List.filter_cons_of_pos (by simpa using ho.trans ht),
        List.filter_cons_of_pos (by simpa using ho)]
    · rw [List.takeWhile_cons_of_neg (by simpa using ho)]
      symm
      rw [List.filter_eq_nil_iff]
      intro a ha hle
      have hle := of_decide_eq_true hle
      rcases List.mem_cons.mp (List.mem_of_mem_filter ha) with rfl | ha
      · exact ho hle
      · exact ho ((hl.1 a ha).trans hle)

theorem dropWhile_eq_filter {l : List Observation}
    (hl : l.Pairwise (fun a b ↦ a.knowledgeTime ≤ b.knowledgeTime)) :
    l.dropWhile (·.knowledgeTime ≤ t) = l.filter (t < ·.knowledgeTime) := by
  induction l with
  | nil => rfl
  | cons o l ih =>
    rw [List.pairwise_cons] at hl
    by_cases ho : o.knowledgeTime ≤ t
    · rw [List.dropWhile_cons_of_pos (by simpa using ho), ih hl.2,
        List.filter_cons_of_neg (by simpa using ho)]
    · rw [List.dropWhile_cons_of_neg (by simpa using ho)]
      symm
      rw [List.filter_eq_self]
      intro a ha
      rcases List.mem_cons.mp ha with rfl | ha
      · exact decide_eq_true (not_le.mp ho)
      · exact decide_eq_true ((not_le.mp ho).trans_le (hl.1 a ha))

namespace Learner.Agree

theorem start {observations observations' : List Observation}
    (h : observations.filter (·.knowledgeTime ≤ horizon) =
      observations'.filter (·.knowledgeTime ≤ horizon)) :
    Agree horizon (.start observations) (.start observations') where
  store := rfl
  hidden := by
    simp only [Learner.start]
    rw [filter_sortBy, filter_sortBy, h]
  sorted := sortBy_pairwise _ _
  sorted' := sortBy_pairwise _ _

theorem reveal (h : Agree horizon s s') (ht : t ≤ horizon) :
    Agree horizon (s.reveal t) (s'.reveal t) where
  store := by
    simp only [Learner.reveal]
    rw [takeWhile_eq_filter h.sorted ht, takeWhile_eq_filter h.sorted' ht, h.store, h.hidden]
  hidden := by
    simp only [Learner.reveal]
    rw [dropWhile_eq_filter h.sorted, dropWhile_eq_filter h.sorted', List.filter_comm,
      List.filter_comm (l := s'.hidden), h.hidden]
  sorted := h.sorted.sublist (List.dropWhile_sublist _)
  sorted' := h.sorted'.sublist (List.dropWhile_sublist _)

theorem learn (h : Agree horizon s s') (ht : t ≤ horizon) :
    (∃ e, Backtest.learn N D setup t s = .error e ∧ Backtest.learn N D setup t s' = .error e) ∨
      ∃ store ic ranked,
        Backtest.learn N D setup t s = .ok (⟨store, (s.reveal t).hidden⟩, ic, ranked) ∧
        Backtest.learn N D setup t s' = .ok (⟨store, (s'.reveal t).hidden⟩, ic, ranked) := by
  unfold Backtest.learn
  dsimp only
  rw [(h.reveal ht).store]
  cases computeMatrix setup.features (s'.reveal t).store t (sortedDistinct setup.symbols) with
  | error e => exact .inl ⟨_, rfl, rfl⟩
  | ok matrix =>
    dsimp only
    cases gradePredictions N.sqrt (s'.reveal t).store t setup.horizonDays
        (some setup.modelVersion) setup.minAbsIc with
    | error e => exact .inl ⟨_, rfl, rfl⟩
    | ok graded => exact .inr ⟨_, _, _, rfl, rfl⟩

end Learner.Agree

theorem map_decideAll_congr {β : Type} {g : Decision → β} (hts : ∀ t ∈ ts, t ≤ horizon)
    (hg : ∀ t ∈ ts, ∀ ic ranked, g ⟨t, ic, replayBook N setup full t ranked⟩ =
      g ⟨t, ic, replayBook N setup full' t ranked⟩)
    (h : s.Agree horizon s') :
    (decideAll N D setup full ts s).map (List.map g) =
      (decideAll N D setup full' ts s').map (List.map g) := by
  induction ts generalizing s s' with
  | nil => rfl
  | cons t rest ih =>
    rw [List.forall_mem_cons] at hts hg
    rw [decideAll, decideAll]
    rcases h.learn (N := N) (D := D) hts.1 with ⟨e, he, he'⟩ |
      ⟨store, ic, ranked, hl, hl'⟩
    · rw [he, he']
    · have hr := h.reveal hts.1
      have hagree : Learner.Agree horizon ⟨store, (s.reveal t).hidden⟩
          ⟨store, (s'.reveal t).hidden⟩ := ⟨rfl, hr.hidden, hr.sorted, hr.sorted'⟩
      have ih := ih hts.2 hg.2 hagree
      rw [hl, hl']
      dsimp only
      cases hd : decideAll N D setup full rest ⟨store, (s.reveal t).hidden⟩ with
      | error e =>
        cases hd' : decideAll N D setup full' rest ⟨store, (s'.reveal t).hidden⟩ with
        | error e' =>
          rw [hd, hd'] at ih
          cases ih
          rfl
        | ok later =>
          rw [hd, hd'] at ih
          cases ih
      | ok later =>
        cases hd' : decideAll N D setup full' rest ⟨store, (s'.reveal t).hidden⟩ with
        | error e' =>
          rw [hd, hd'] at ih
          cases ih
        | ok later' =>
          rw [hd, hd'] at ih
          have ih : later.map g = later'.map g := Except.ok.inj ih
          simp only [Except.map, List.map_cons, hg.1, ih]

/-! ### What is sized -/

def Covariable (returns : PriceFrame) (lookback : ℤ) : Prop :=
  2 ≤ (cleanColumns returns lookback).length ∧ 20 ≤ (tailOf lookback returns.index).length

instance (returns : PriceFrame) (lookback : ℤ) : Decidable (Covariable returns lookback) :=
  inferInstanceAs (Decidable (_ ∧ _))

/-- What the sizing of a book takes from a return panel: the columns without a gap, if they suffice
for a covariance, and the names, unless those columns share the book evenly. -/
def sizingInputs (returns : PriceFrame) (tiltStrength : ℚ) (lookback : ℤ) :
    Option (List (String × List ℚ)) × Option (List String) :=
  (if Covariable returns lookback then some (cleanColumns returns lookback) else none,
    if Covariable returns lookback ∧ tiltStrength ≤ 0 then none else some returns.names)

theorem getD_equalWeights {names : List String} {symbol : String} (h : symbol ∈ names) :
    Dict.getD (equalWeights names) symbol 0 = 1 / names.length := by
  have hset : equalWeights names = Dict.setAll .empty names (1 / (names.length : ℚ)) := by
    rw [equalWeights, Keyed.ofList, Keyed.insertAll, List.foldl_map]
    rfl
  rw [hset, Dict.getD, Dict.get?_setAll, if_pos h]
  rfl

/-- The shares of some names in an even book are even among themselves. -/
theorem even_shares {names : List String} {clean : List (String × List ℚ)}
    (hn : (clean.map Prod.fst).Nodup) (hc : ∀ c ∈ clean, c.1 ∈ names) (hne : clean ≠ []) :
    let w : Weights := .ofList (clean.map (fun c ↦ (c.1, Dict.getD (equalWeights names) c.1 0)))
    0 < netOf w ∧
      Dict.mapVals (fun _ v ↦ v / netOf w) w = equalWeights (clean.map Prod.fst) := by
  intro w
  have hlist : ∀ q : ℚ, (.ofList (clean.map (fun c ↦ (c.1, q))) : Weights).toList =
      clean.map (fun c ↦ (c.1, q)) := by
    intro q
    have hnodup : ((([] : List (String × ℚ)) ++ clean.map (fun c ↦ (c.1, q))).map
        Prod.fst).Nodup := by
      rw [List.nil_append, List.map_map]
      exact hn
    exact Keyed.toList_insertAll (d := .empty) hnodup
  have hw : w = .ofList (clean.map (fun c ↦ (c.1, (1 / names.length : ℚ)))) := by
    have hmap : clean.map (fun c ↦ (c.1, Dict.getD (equalWeights names) c.1 0)) =
        clean.map (fun c ↦ (c.1, (1 / names.length : ℚ))) := by
      apply List.map_congr_left
      intro c hcm
      rw [getD_equalWeights (hc c hcm)]
    exact congrArg Keyed.ofList hmap
  have hclean : (0 : ℚ) < clean.length := by
    exact_mod_cast List.length_pos_of_ne_nil hne
  have hnames : (0 : ℚ) < names.length := by
    obtain ⟨c, hcm⟩ := List.exists_mem_of_ne_nil _ hne
    exact_mod_cast List.length_pos_of_mem (hc c hcm)
  have hnet : netOf w = clean.length / names.length := by
    rw [hw, netOf, hlist, List.map_map]
    have hconst : clean.map ((fun p : String × ℚ ↦ p.2) ∘ fun c ↦ (c.1, (1 / names.length : ℚ))) =
        clean.map (fun _ ↦ (1 / names.length : ℚ)) := rfl
    rw [hconst, List.map_const', List.sum_replicate, nsmul_eq_mul, mul_one_div]
  constructor
  · rw [hnet]
    exact div_pos hclean hnames
  · apply Keyed.ext
    have heven : equalWeights (clean.map Prod.fst) =
        .ofList (clean.map (fun c ↦ (c.1, (1 / clean.length : ℚ)))) := by
      rw [equalWeights, List.map_map, List.length_map]
      rfl
    rw [heven, hlist, Dict.toList_mapVals, hnet, hw, hlist, List.map_map]
    apply List.map_congr_left
    intro c _
    rw [Function.comp_apply, div_div_div_cancel_right₀ hnames.ne']

theorem fst_cleanColumns (returns : PriceFrame) (lookback : ℤ) :
    ((cleanColumns returns lookback).map Prod.fst).Nodup := by
  apply Dict.nodup_filterMap
  intro c b hb
  dsimp only at hb
  split at hb
  · cases hb
    rfl
  · cases hb

/-- Without a tilt, and with a covariance, the book is sized from an even one over the columns
without a gap. -/
theorem sizeBook_untilted {returns : PriceFrame} {lookback : ℤ} (h : Covariable returns lookback)
    {tiltStrength : ℚ} (ht : tiltStrength ≤ 0) (targetVol : ℚ) (limits : RiskLimits)
    (scores : Option Scores) (sectors : Option (Dict String String)) (regimeDerisk : ℚ) :
    sizeBook N returns targetVol limits scores tiltStrength lookback sectors regimeDerisk =
      let clean := cleanColumns returns lookback
      applyRiskLimits ((volatilityTargetWeights N (equalWeights (clean.map Prod.fst))
        (N.ledoitWolf (clean.map Prod.snd)) (targetVol * max 0 regimeDerisk)).filter
          (fun p ↦ 1 / 10 ^ 9 < |p.2|)) limits sectors := by
  have hne : cleanColumns returns lookback ≠ [] := by
    intro hnil
    have h := h.1
    rw [hnil] at h
    exact absurd h (by decide)
  have hnames : returns.names ≠ [] := by
    obtain ⟨c, hc⟩ := List.exists_mem_of_ne_nil _ hne
    exact List.ne_nil_of_mem (mem_names_of_clean hc)
  have htilt : tiltWeights N scores returns.names tiltStrength = equalWeights returns.names := by
    unfold tiltWeights
    cases scores with
    | none => rfl
    | some scores => exact if_pos ht
  obtain ⟨hpos, heven⟩ := even_shares (fst_cleanColumns returns lookback)
    (fun c hc ↦ mem_names_of_clean hc) hne
  unfold Covariable at h
  unfold sizeBook
  dsimp only
  rw [if_neg hnames, htilt, if_pos h, if_pos hpos, heven]

theorem sizeBook_congr {returns returns' : PriceFrame} {lookback : ℤ} {tiltStrength : ℚ}
    (h : sizingInputs returns tiltStrength lookback = sizingInputs returns' tiltStrength lookback)
    (targetVol : ℚ) (limits : RiskLimits) (scores : Option Scores)
    (sectors : Option (Dict String String)) (regimeDerisk : ℚ) :
    sizeBook N returns targetVol limits scores tiltStrength lookback sectors regimeDerisk =
      sizeBook N returns' targetVol limits scores tiltStrength lookback sectors regimeDerisk := by
  unfold sizingInputs at h
  rw [Prod.mk.injEq] at h
  obtain ⟨hclean, hnames⟩ := h
  by_cases hc : Covariable returns lookback
  · rw [if_pos hc] at hclean
    have hc' : Covariable returns' lookback := by
      by_contra hc'
      rw [if_neg hc'] at hclean
      cases hclean
    rw [if_pos hc', Option.some_inj] at hclean
    by_cases ht : tiltStrength ≤ 0
    · rw [sizeBook_untilted hc ht, sizeBook_untilted hc' ht, hclean]
    · rw [if_neg (fun hn ↦ ht hn.2), if_neg (fun hn ↦ ht hn.2), Option.some_inj] at hnames
      unfold Covariable at hc hc'
      unfold sizeBook
      dsimp only
      rw [if_pos hc, if_pos hc', hclean, hnames]
  · rw [if_neg hc] at hclean
    have hc' : ¬Covariable returns' lookback := by
      intro hc'
      rw [if_pos hc'] at hclean
      cases hclean
    rw [if_neg (fun hn ↦ hc hn.1), if_neg (fun hn ↦ hc' hn.1), Option.some_inj] at hnames
    unfold Covariable at hc hc'
    unfold sizeBook
    dsimp only
    rw [if_neg hc, if_neg hc', hnames]

/-- What a replay decides up to a time, or what stops it by then. -/
def decidedBy (N : Numerics) (D : Digests) (setup : ReplaySetup) (observations : List Observation)
    (horizon : Datetime) : Except ReplayError (List Decision) :=
  match replayPanel observations setup.symbols with
  | .error e => .error e
  | .ok full =>
    decideAll N D setup full ((sortBy id setup.schedule).filter (· ≤ horizon)) (.start observations)

theorem decideAll_filter {decisions : List Decision} (hs : ts.Pairwise (· ≤ ·))
    (h : decideAll N D setup full ts s = .ok decisions) :
    decideAll N D setup full (ts.filter (· ≤ horizon)) s =
      .ok (decisions.filter (·.t ≤ horizon)) := by
  induction ts generalizing s decisions with
  | nil =>
    cases h
    rfl
  | cons t rest ih =>
    have htimes := decideAll_times h
    rw [List.pairwise_cons] at hs
    by_cases ht : t ≤ horizon
    · rw [List.filter_cons_of_pos (by simpa using ht)]
      rw [decideAll] at h ⊢
      split at h
      · cases h
      · next s' ic ranked hl =>
        cases hd : decideAll N D setup full rest s' with
        | error e => simp [hd, Except.map] at h
        | ok later =>
          rw [hd] at h
          cases h
          rw [ih hs.2 hd, List.filter_cons_of_pos (by simpa using ht)]
          rfl
    · have hlate : ∀ t' ∈ t :: rest, ¬t' ≤ horizon := by
        intro t' ht' hle
        rcases List.mem_cons.mp ht' with rfl | ht'
        · exact ht hle
        · exact ht ((hs.1 t' ht').trans hle)
      have hnil : (t :: rest).filter (· ≤ horizon) = [] := by
        rw [List.filter_eq_nil_iff]
        intro t' ht'
        simpa using hlate t' ht'
      have hnil' : decisions.filter (·.t ≤ horizon) = [] := by
        rw [List.filter_eq_nil_iff]
        intro d hd
        simpa using hlate d.t (htimes ▸ List.mem_map_of_mem hd)
      rw [hnil, hnil']
      rfl

theorem decidedBy_eq {observations : List Observation} {decisions : List Decision}
    (hp : replayPanel observations setup.symbols = .ok full)
    (h : decideAll N D setup full (sortBy id setup.schedule) (.start observations) =
      .ok decisions) :
    decidedBy N D setup observations horizon = .ok (decisions.filter (·.t ≤ horizon)) := by
  unfold decidedBy
  rw [hp]
  exact decideAll_filter (sortBy_pairwise id setup.schedule) h

/-- The IC at a rebalance owes nothing to what becomes knowable later, and neither does the book,
where the panels of the two whole histories size alike up to the rebalance. -/
theorem replay_no_look_ahead (N : Numerics) (D : Digests) (setup : ReplaySetup)
    (horizon : Datetime) (observations observations' : List Observation) (full full' : PriceFrame)
    (hobs : observations.filter (·.knowledgeTime ≤ horizon) =
      observations'.filter (·.knowledgeTime ≤ horizon))
    (hp : replayPanel observations setup.symbols = .ok full)
    (hp' : replayPanel observations' setup.symbols = .ok full') :
    (decidedBy N D setup observations horizon).map (List.map (fun d ↦ (d.t, d.ic))) =
      (decidedBy N D setup observations' horizon).map (List.map (fun d ↦ (d.t, d.ic))) ∧
    ((∀ t ∈ setup.schedule, t ≤ horizon →
      sizingInputs ((full.diff pctChange).upTo t) setup.tiltStrength 90 =
        sizingInputs ((full'.diff pctChange).upTo t) setup.tiltStrength 90) →
      decidedBy N D setup observations horizon = decidedBy N D setup observations' horizon) := by
  have hts : ∀ t ∈ (sortBy id setup.schedule).filter (· ≤ horizon), t ≤ horizon := by
    intro t ht
    exact of_decide_eq_true (List.mem_filter.mp ht).2
  have hagree := Learner.Agree.start hobs
  unfold decidedBy
  rw [hp, hp']
  constructor
  · exact map_decideAll_congr hts (fun t _ ic ranked ↦ rfl) hagree
  · intro hsize
    have hsame : ∀ t ∈ (sortBy id setup.schedule).filter (· ≤ horizon), ∀ ic ranked,
        id (⟨t, ic, replayBook N setup full t ranked⟩ : Decision) =
          id ⟨t, ic, replayBook N setup full' t ranked⟩ := by
      intro t ht ic ranked
      have ht' : t ∈ setup.schedule := mem_sortBy.mp (List.mem_filter.mp ht).1
      rw [replayBook, sizeBook_congr (hsize t ht' (hts t ht))]
      rfl
    have hbook := map_decideAll_congr (D := D) hts hsame hagree
    have hid : ∀ r : Except ReplayError (List Decision), r.map (List.map id) = r := by
      intro r
      cases r with
      | error e => rfl
      | ok decisions => exact congrArg Except.ok (List.map_id decisions)
    rwa [hid, hid] at hbook

def knownClose (symbol : String) (t : Datetime) (close : ℚ) (id : UUID) : Observation where
  source := "p"
  dataset := priceDataset
  entityType := "equity"
  entityId := symbol
  eventTime := t
  knowledgeTime := t
  value := .ofList [("close", .num close)]
  observationId := id

def twoSymbolReplay : ReplaySetup where
  symbols := ["A", "B"]
  schedule := [0, 5]
  features := []

/-- A symbol that is first traded after the rebalance has a share of the book formed at it. -/
theorem later_listing_moves_book :
    let observations := [knownClose "A" 0 10 1, knownClose "A" 5 11 2]
    let observations' := [knownClose "A" 0 10 1, knownClose "A" 5 11 2, knownClose "B" 5 7 3]
    ∃ decisions decisions', observations.filter (·.knowledgeTime ≤ 0) =
        observations'.filter (·.knowledgeTime ≤ 0) ∧
      decidedBy .plain .plain twoSymbolReplay observations 0 = .ok decisions ∧
      decidedBy .plain .plain twoSymbolReplay observations' 0 = .ok decisions' ∧
      decisions.map (fun d ↦ (d.t, d.book.toList)) = [(0, [("A", 1 / 10)])] ∧
      decisions'.map (fun d ↦ (d.t, d.book.toList)) = [(0, [("A", 1 / 10), ("B", 1 / 10)])] := by
  refine ⟨_, _, rfl, rfl, rfl, ?_⟩
  decide +kernel

theorem replay_no_look_ahead_later_bar :
    let observations := [knownClose "A" 0 10 1, knownClose "A" 5 11 2]
    let observations' := [knownClose "A" 0 10 1, knownClose "A" 5 12 2]
    decidedBy .plain .plain twoSymbolReplay observations 0 =
      decidedBy .plain .plain twoSymbolReplay observations' 0 := by
  intro observations observations'
  have hpanels : ∃ full full', replayPanel observations twoSymbolReplay.symbols = .ok full ∧
      replayPanel observations' twoSymbolReplay.symbols = .ok full' ∧
      ∀ t ∈ twoSymbolReplay.schedule, t ≤ 0 →
        sizingInputs ((full.diff pctChange).upTo t) twoSymbolReplay.tiltStrength 90 =
          sizingInputs ((full'.diff pctChange).upTo t) twoSymbolReplay.tiltStrength 90 := by
    refine ⟨_, _, rfl, rfl, ?_⟩
    decide +kernel
  obtain ⟨full, full', hp, hp', hsize⟩ := hpanels
  exact (replay_no_look_ahead .plain .plain twoSymbolReplay 0 observations observations' full full'
    rfl hp hp').2 hsize

end MarketTrader.Backtest
