import MarketTrader.Backtest.Governed

namespace MarketTrader.Backtest

open Library MarketTrader.Core Storage Portfolio Features

variable {N : Numerics} {w : Weights} {cov : List (List ℚ)} {names : List String}
  {limits : RiskLimits} {panel returns : PriceFrame} {t : Datetime} {view : PointInTimeView}

/-! ### The limits that do not bind -/

theorem abs_netOf_le (w : Weights) : |netOf w| ≤ grossOf w := by
  have h := List.le_sum_of_subadditive (abs : ℚ → ℚ) abs_zero.le abs_add_le (w.toList.map (·.2))
  rwa [List.map_map] at h

/-- The limits cap the gross exposure as the governor does. -/
theorem applyRiskLimits_scale {c cap : ℚ} (hgross : 0 < grossOf w) (hc : 0 ≤ c)
    (hcap : limits.maxGrossExposure = cap) (h0 : 0 ≤ cap) (hnet : cap ≤ limits.maxNetExposure)
    (hpos : ∀ a ∈ (scale c w).toList, |a.2| ≤ limits.maxPositionWeight)
    (hz : ∀ a ∈ (scale (min c (cap / grossOf w)) w).toList, a.2 ≠ 0) :
    applyRiskLimits (scale c w) limits none = scale (min c (cap / grossOf w)) w := by
  have hclip : clipPositions limits (scale c w) = scale c w := by
    refine Dict.mapVals_id fun a ha ↦ ?_
    have hle := abs_le.mp (hpos a ha)
    have hn : -limits.maxPositionWeight ≤ limits.maxPositionWeight := hle.1.trans hle.2
    rw [clip, max_eq_right hn, min_eq_left hn, max_eq_right hle.1, min_eq_right hle.2]
  have hcapped : capGross limits (scale c w) = scale (min c (cap / grossOf w)) w := by
    rw [← capTo_scale hgross hc h0, capGross, capExposure, capTo, ← hcap, grossOf_eq_exposureOf]
    rfl
  have hle : |netOf (scale (min c (cap / grossOf w)) w)| ≤ limits.maxNetExposure := by
    have hmin : 0 ≤ min c (cap / grossOf w) := le_min hc (div_nonneg h0 hgross.le)
    refine (abs_netOf_le _).trans (le_trans ?_ hnet)
    rw [grossOf_scale hmin, ← le_div_iff₀ hgross]
    exact min_le_right _ _
  rw [applyRiskLimits, hclip, hcapped, capSectors,
    capNet_of_le (hle.trans (le_add_of_nonneg_right (by norm_num)))]
  apply Keyed.ext
  rw [Keyed.toList_filter, List.filter_eq_self]
  exact fun a ha ↦ decide_eq_true (hz a ha)

/-! ### The books that are sized -/

theorem keys_tiltWeights (hn : names.Nodup) (scores : Option Scores) (tiltStrength : ℚ) :
    (tiltWeights N scores names tiltStrength).keys = names := by
  have heven : (equalWeights names).keys = names := by
    have hkeys : ((names.map (fun s ↦ (s, (1 / names.length : ℚ)))).map Prod.fst) = names := by
      rw [List.map_map]
      exact List.map_id _
    exact (Keyed.keys_ofList (by rwa [hkeys])).trans hkeys
  unfold tiltWeights
  dsimp only
  split
  · exact heven
  · next scores =>
    split
    · exact heven
    · split
      · have hkeys : ∀ g : String × Option ℚ → ℚ, ∀ q : ℚ,
            (((crossSectionalZscore N.sqrt ((reindex scores names).map
              (fun p ↦ (p.1, some (p.2.getD 0))))).map (fun p ↦ (p.1, g p))).map
                (fun p ↦ (p.1, p.2 / q))).map Prod.fst = names := by
          intro g q
          rw [List.map_map, List.map_map]
          refine (fst_crossSectionalZscore N.sqrt _).trans ?_
          rw [List.map_map, reindex, List.map_map]
          exact List.map_id _
        exact (Keyed.keys_ofList (by rwa [hkeys])).trans (hkeys _ _)
      · exact heven

theorem zscore_of_some {sqrt : ℚ → ℚ} {s : Scores} (h : ∀ p ∈ s, p.2.isSome) :
    zscore sqrt s = crossSectionalZscore sqrt s := by
  unfold zscore crossSectionalZscore
  cases (std sqrt (s.map Prod.snd)).filter (· ≠ 0) with
  | none =>
    apply List.map_congr_left
    intro p hp
    obtain ⟨q, hq⟩ := Option.isSome_iff_exists.mp (h p hp)
    rw [hq, Option.map_some]
  | some sd => rfl

/-- The strategy whose book the sizer starts from: even, or tilted by the scores. -/
def baseStrategy (N : Numerics) (scores : Option SignalMap) (tiltStrength : ℚ) : Strategy :=
  match scores with
  | none => equalWeightStrategy
  | some scores => ScoreTiltStrategy.strategy N ⟨scores, tiltStrength, "tilt"⟩

theorem baseStrategy_eq {scores : Option SignalMap} {tiltStrength : ℚ}
    (h : scores = none ∨ 0 < tiltStrength) (view : PointInTimeView) (t : Datetime) :
    (baseStrategy N scores tiltStrength).targetWeights view t =
      tiltWeights N ((scores.bind (Dict.get? · t)).map Keyed.toList) view.universeNames
        tiltStrength := by
  cases scores with
  | none => rfl
  | some scores =>
    have ht := h.resolve_left (Option.some_ne_none scores)
    simp only [baseStrategy, ScoreTiltStrategy.strategy, ScoreTiltStrategy.targetWeights,
      Option.bind_some]
    cases hs : Dict.get? scores t with
    | none => rfl
    | some score =>
      have hz : zscore N.sqrt ((reindex score.toList view.universeNames).map
          (fun p ↦ (p.1, some (p.2.getD 0)))) = crossSectionalZscore N.sqrt
            ((reindex score.toList view.universeNames).map (fun p ↦ (p.1, some (p.2.getD 0)))) := by
        apply zscore_of_some
        intro p hp
        obtain ⟨a, -, rfl⟩ := List.mem_map.mp hp
        rfl
      simp only [ScoreTiltStrategy.tilted, hz, Option.map_some, tiltWeights, if_neg (not_le.mpr ht)]

theorem names_pick (hn : names.Nodup) (h : ∀ s ∈ names, s ∈ returns.names) :
    (returns.pick names).names = names := by
  have hkeys : ∀ l : List String, (∀ s ∈ l, s ∈ returns.names) →
      (l.filterMap (fun c ↦ (Dict.get? returns.columns c).map (fun col ↦ (c, col)))).map
        Prod.fst = l := by
    intro l hl
    induction l with
    | nil => rfl
    | cons c l ih =>
      rw [List.forall_mem_cons] at hl
      obtain ⟨col, hcol⟩ := Dict.mem_keys_iff.mp hl.1
      rw [List.filterMap_cons, hcol, Option.map_some, List.map_cons, ih hl.2]
  rw [Frame.names, Frame.pick]
  exact (Keyed.keys_ofList (by rwa [hkeys names h])).trans (hkeys names h)

theorem known_subset_returns (panel : PriceFrame) :
    ∀ s ∈ panel.known, s ∈ (returnsPanel panel).names := by
  intro s hs
  obtain ⟨col, hc, -⟩ := Frame.mem_known.mp hs
  have hnames : (returnsPanel panel).names = panel.names := by
    unfold returnsPanel
    split
    · rfl
    · exact Dict.keys_mapVals.trans Dict.keys_mapVals
  rw [hnames]
  exact Keyed.mem_keys.mpr ⟨_, hc, rfl⟩

/-! ### The sizer and the governor -/

namespace SizedBookStrategy

variable (s : SizedBookStrategy)

/-- The governed strategy over the book that the sizer starts from. -/
def governor (N : Numerics) : VolTargetedStrategy where
  inner := baseStrategy N s.scores s.tiltStrength
  targetVol := s.targetVol
  maxGross := s.limits.maxGrossExposure
  lookback := s.lookback

/-- At this date the governor has a covariance to go by, no name reaches the position limit and no
weight is next to nothing. -/
structure Unbound (N : Numerics) (view : PointInTimeView) (t : Datetime) : Prop where
  governs : (s.governor N).Governs N view t
  position : ∀ a ∈ (volatilityTargetWeights N ((s.governor N).governed view t)
    ((s.governor N).covariance N view t) s.targetVol).toList, |a.2| ≤ s.limits.maxPositionWeight
  noDust : ∀ a ∈ (capTo s.limits.maxGrossExposure (volatilityTargetWeights N
    ((s.governor N).governed view t) ((s.governor N).covariance N view t) s.targetVol)).toList,
      1 / 10 ^ 9 < |a.2|

variable {s}

/-- Before there is enough history the governor holds its inner book as it is. -/
structure Scarce (N : Numerics) (view : PointInTimeView) (t : Datetime) : Prop where
  history : view.returnsPanel.index ≠ []
  short : ((s.governor N).window view ((s.governor N).inner.targetWeights view t)).length < 2 ∨
    (tailOf s.lookback view.returnsPanel.index).length < 20
  within : WithinCaps s.limits none ((s.governor N).inner.targetWeights view t)
  noDust : ∀ a ∈ ((s.governor N).inner.targetWeights view t).toList, 1 / 10 ^ 9 < |a.2|

section Dates

variable (hbase : s.scores = none ∨ 0 < s.tiltStrength)

/-- What the sizer is called with on a view of a panel. -/
theorem targetWeights_ofPanel (hne : panel.known ≠ []) (hrows : (returnsPanel panel).index ≠ []) :
    s.targetWeights N (.ofPanel t panel) t =
      sizeBook N ((returnsPanel panel).pick panel.known) s.targetVol s.limits
        ((s.scores.bind (Dict.get? · t)).map Keyed.toList) s.tiltStrength s.lookback := by
  have hknown : panel.known.filter (· ∈ (returnsPanel panel).names) = panel.known :=
    List.filter_eq_self.mpr fun k hk ↦ decide_eq_true (known_subset_returns panel k hk)
  have hempty : (returnsPanel panel).isEmpty = false := by
    refine Frame.isEmpty_eq_false.mpr ⟨hrows, fun hnil ↦ ?_⟩
    obtain ⟨k, hk⟩ := List.exists_mem_of_ne_nil _ hne
    have hm := known_subset_returns panel k hk
    rw [hnil] at hm
    cases hm
  have hsome : ¬((returnsPanel panel).isEmpty ∨
      panel.known.filter (· ∈ (returnsPanel panel).names) = []) := by
    rw [hknown, hempty]
    simp [hne]
  refine (if_neg hsome).trans ?_
  exact congrArg (fun l ↦ sizeBook N ((returnsPanel panel).pick l) s.targetVol s.limits
    ((s.scores.bind (Dict.get? · t)).map Keyed.toList) s.tiltStrength s.lookback) hknown

include hbase

theorem inner_ofPanel (panel : PriceFrame) (t : Datetime) :
    (s.governor N).inner.targetWeights (.ofPanel t panel) t =
      tiltWeights N ((s.scores.bind (Dict.get? · t)).map Keyed.toList) panel.known
        s.tiltStrength :=
  baseStrategy_eq hbase (.ofPanel t panel) t

/-- The governor and the sizer look at the same columns. -/
theorem window_ofPanel (panel : PriceFrame) (t : Datetime) :
    (s.governor N).window (.ofPanel t panel)
        ((s.governor N).inner.targetWeights (.ofPanel t panel) t) =
      cleanColumns ((returnsPanel panel).pick panel.known) s.lookback := by
  have hknown : panel.known.filter (· ∈ (returnsPanel panel).names) = panel.known :=
    List.filter_eq_self.mpr fun k hk ↦ decide_eq_true (known_subset_returns panel k hk)
  rw [VolTargetedStrategy.window, inner_ofPanel hbase, keys_tiltWeights (nodup_known panel)]
  exact congrArg (fun l ↦ cleanColumns ((returnsPanel panel).pick l) s.lookback) hknown

theorem known_ne_nil (h : ((s.governor N).inner.targetWeights (.ofPanel t panel) t).toList ≠ []) :
    panel.known ≠ [] := by
  intro hnil
  have hkeys := keys_tiltWeights (N := N) (nodup_known panel)
    ((s.scores.bind (Dict.get? · t)).map Keyed.toList) s.tiltStrength
  rw [← inner_ofPanel hbase, hnil] at hkeys
  exact h (List.map_eq_nil_iff.mp hkeys)

theorem targetWeights_of_scarce (h : s.Scarce N (.ofPanel t panel) t) :
    s.targetWeights N (.ofPanel t panel) t =
      (s.governor N).targetWeights N (.ofPanel t panel) t := by
  let raw := (s.governor N).inner.targetWeights (.ofPanel t panel) t
  have hgov : (s.governor N).targetWeights N (.ofPanel t panel) t = raw := by
    unfold VolTargetedStrategy.targetWeights
    dsimp only
    split
    · rfl
    · exact if_pos h.short
  rw [hgov]
  by_cases hne : panel.known = []
  · have hempty : raw = .empty := by
      have hkeys := keys_tiltWeights (N := N) (nodup_known panel)
        ((s.scores.bind (Dict.get? · t)).map Keyed.toList) s.tiltStrength
      rw [← inner_ofPanel hbase, hne] at hkeys
      exact Keyed.ext (List.map_eq_nil_iff.mp hkeys)
    rw [hempty]
    refine if_pos (.inr ?_)
    exact congrArg (List.filter _) hne
  · have hshort := h.short
    rw [window_ofPanel hbase] at hshort
    have hkeep : raw.filter (fun p ↦ 1 / 10 ^ 9 < |p.2|) = raw := by
      apply Keyed.ext
      rw [Keyed.toList_filter, List.filter_eq_self]
      exact fun a ha ↦ decide_eq_true (h.noDust a ha)
    have hone : Dict.mapVals (fun _ v ↦ v * max 0 1) raw = raw :=
      Dict.mapVals_id fun a _ ↦ by rw [max_eq_right zero_le_one, mul_one]
    have hsize : sizeBook N ((returnsPanel panel).pick panel.known) s.targetVol s.limits
        ((s.scores.bind (Dict.get? · t)).map Keyed.toList) s.tiltStrength s.lookback =
          applyRiskLimits ((Dict.mapVals (fun _ v ↦ v * max 0 1) raw).filter
            (fun p ↦ 1 / 10 ^ 9 < |p.2|)) s.limits none := by
      have hnot : ¬(2 ≤ (cleanColumns ((returnsPanel panel).pick panel.known) s.lookback).length ∧
          20 ≤ (tailOf s.lookback ((returnsPanel panel).pick panel.known).index).length) := by
        intro hboth
        rcases hshort with hlt | hlt
        · exact absurd hboth.1 (not_le.mpr hlt)
        · exact absurd hboth.2 (not_le.mpr hlt)
      unfold sizeBook
      dsimp only
      rw [names_pick (nodup_known panel) (known_subset_returns panel), if_neg hne, if_neg hnot,
        ← inner_ofPanel hbase]
    rw [targetWeights_ofPanel hne h.history, hsize, hone, hkeep]
    refine applyRiskLimits_of_within h.within fun a ha h0 ↦ ?_
    have hd := h.noDust a ha
    rw [h0, abs_zero] at hd
    exact absurd hd (by norm_num)

theorem targetWeights_of_unbound (hroot : RootScales N) (ht : 0 ≤ s.targetVol)
    (hgross : 0 ≤ s.limits.maxGrossExposure)
    (hnet : s.limits.maxGrossExposure ≤ s.limits.maxNetExposure)
    (h : s.Unbound N (.ofPanel t panel) t) :
    s.targetWeights N (.ofPanel t panel) t =
      (s.governor N).targetWeights N (.ofPanel t panel) t := by
  let book := (s.governor N).governed (.ofPanel t panel) t
  let cov := (s.governor N).covariance N (.ofPanel t panel) t
  obtain ⟨hg, hpos, hdust⟩ := h
  have hv : 0 < annualVol N book cov := hg.vol
  have hbook : 0 < grossOf book := grossOf_pos hroot hv
  have hratio : 0 ≤ s.targetVol / annualVol N book cov := div_nonneg ht hv.le
  rw [volatilityTargetWeights_of_pos hg.vol] at hpos hdust
  rw [capTo_scale hbook hratio hgross] at hdust
  have hgov : (s.governor N).targetWeights N (.ofPanel t panel) t = scale (min
      (s.targetVol / annualVol N book cov) (s.limits.maxGrossExposure / grossOf book)) book := by
    rw [VolTargetedStrategy.targetWeights_of_governs hg,
      volatilityTargetWeights_of_pos hg.vol]
    refine (congrArg (Keyed.filter · _) (capTo_scale hbook hratio hgross)).trans ?_
    apply Keyed.ext
    rw [Keyed.toList_filter, List.filter_eq_self]
    exact fun a ha ↦ decide_eq_true (hdust a ha)
  -- whether it is brought to one first does not matter to the target
  have hsized : volatilityTargetWeights N
      (if 0 < netOf book then Dict.mapVals (fun _ v ↦ v / netOf book) book else book) cov
        (s.targetVol * max 0 1) = scale (s.targetVol / annualVol N book cov) book := by
    rw [max_eq_right zero_le_one, mul_one]
    split
    · next hnet =>
      have hdiv : Dict.mapVals (fun _ v ↦ v / netOf book) book = scale (1 / netOf book) book := by
        refine congrArg (Dict.mapVals · book) (funext fun _ ↦ funext fun v ↦ ?_)
        exact div_eq_mul_one_div v _
      rw [hdiv, volatilityTargetWeights_scale hroot (one_div_pos.mpr hnet) hv,
        volatilityTargetWeights_of_pos hv]
    · exact volatilityTargetWeights_of_pos hv _
  have hkeep : (scale (s.targetVol / annualVol N book cov) book).filter
      (fun p ↦ 1 / 10 ^ 9 < |p.2|) = scale (s.targetVol / annualVol N book cov) book := by
    apply Keyed.ext
    rw [Keyed.toList_filter, List.filter_eq_self]
    intro a ha
    obtain ⟨b, hb, rfl⟩ := List.mem_map.mp ha
    have hb' := hdust _ (List.mem_map_of_mem (f := fun a ↦ (a.1, a.2 * min
      (s.targetVol / annualVol N book cov) (s.limits.maxGrossExposure / grossOf book))) hb)
    have hmin : 0 ≤ min (s.targetVol / annualVol N book cov)
        (s.limits.maxGrossExposure / grossOf book) :=
      le_min hratio (div_nonneg hgross hbook.le)
    refine decide_eq_true (hb'.trans_le ?_)
    dsimp only
    rw [abs_mul, abs_mul, abs_of_nonneg hmin, abs_of_nonneg hratio]
    exact mul_le_mul_of_nonneg_left (min_le_left _ _) (abs_nonneg _)
  have hlimits := applyRiskLimits_scale hbook hratio rfl hgross hnet hpos fun a ha h0 ↦ by
    have hd := hdust a ha
    rw [h0, abs_zero] at hd
    exact absurd hd (by norm_num)
  have hne := known_ne_nil hbase hg.held
  have hrows : (returnsPanel panel).index ≠ [] := by
    intro hnil
    have hrows : 20 ≤ (tailOf s.lookback (returnsPanel panel).index).length := hg.rows
    have hle := (tailOf_sublist s.lookback (returnsPanel panel).index).length_le
    rw [hnil] at hle hrows
    exact absurd (hrows.trans hle) (by decide)
  have hsize : sizeBook N ((returnsPanel panel).pick panel.known) s.targetVol s.limits
      ((s.scores.bind (Dict.get? · t)).map Keyed.toList) s.tiltStrength s.lookback =
        applyRiskLimits ((volatilityTargetWeights N
          (if 0 < netOf book then Dict.mapVals (fun _ v ↦ v / netOf book) book else book) cov
            (s.targetVol * max 0 1)).filter (fun p ↦ 1 / 10 ^ 9 < |p.2|)) s.limits none := by
    have hcols := hg.columns
    have hpart : book = VolTargetedStrategy.part ((s.governor N).inner.targetWeights
      (.ofPanel t panel) t) (cleanColumns ((returnsPanel panel).pick panel.known) s.lookback) :=
        congrArg (VolTargetedStrategy.part _) (window_ofPanel hbase panel t)
    have hcov : cov = N.ledoitWolf ((cleanColumns ((returnsPanel panel).pick panel.known)
        s.lookback).map Prod.snd) := by
      rw [← window_ofPanel hbase panel t]
      rfl
    rw [window_ofPanel hbase] at hcols
    unfold sizeBook
    dsimp only
    rw [names_pick (nodup_known panel) (known_subset_returns panel), if_neg hne,
      if_pos ⟨hcols, hg.rows⟩, ← inner_ofPanel hbase, hpart, hcov]
    rfl
  rw [hgov, targetWeights_ofPanel hne hrows, hsize, hsized, hkeep]
  exact hlimits

end Dates

end SizedBookStrategy

/-! ### A run -/

theorem rebalanceAll_congr {strategy strategy' : Strategy} {ts : List Datetime}
    (h : ∀ t ∈ ts, decided panel strategy t = decided panel strategy' t) (costModel : CostModel)
    (last : Datetime) (books : BacktestBooks) :
    rebalanceAll panel strategy costModel last ts books =
      rebalanceAll panel strategy' costModel last ts books := by
  induction ts generalizing books with
  | nil => rfl
  | cons t rest ih =>
    rw [List.forall_mem_cons] at h
    have hstep : rebalanceAt panel strategy costModel t (rest.head?.getD last) books =
        rebalanceAt panel strategy' costModel t (rest.head?.getD last) books := by
      simp only [rebalanceAt, h.1]
    rw [rebalanceAll, rebalanceAll, hstep, ih h.2]

/-- Strategies that decide alike at every rebalance have one result. -/
theorem runBacktest_congr {strategy strategy' : Strategy} {store : InMemoryBitemporalStore}
    {dataset priceField : String} {restrictTo : Option (List String)}
    (hp : backtestPanel store dataset priceField restrictTo = .ok panel) {schedule : List Datetime}
    (h : ∀ t ∈ schedule, decided panel strategy t = decided panel strategy' t)
    (costModel : Option CostModel) :
    runBacktest store strategy schedule costModel dataset priceField restrictTo =
      (runBacktest store strategy' schedule costModel dataset priceField restrictTo).map
        (fun result ↦ { result with strategyName := strategy.name }) := by
  unfold runBacktest
  split
  · rfl
  · next first rest hs =>
    have hall : ∀ t ∈ first :: rest, decided panel strategy t = decided panel strategy' t := by
      intro t ht
      rw [← hs, mem_sortBy] at ht
      exact h t ht
    rw [hp]
    dsimp only
    rw [rebalanceAll_congr hall]
    rfl

def zigzagSizer : SizedBookStrategy :=
  { targetVol := 1 / 10, limits := { maxPositionWeight := 1 / 2 } }

end MarketTrader.Backtest
