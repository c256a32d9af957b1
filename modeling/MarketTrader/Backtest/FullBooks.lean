import MarketTrader.Backtest.BuyAndHold
import MarketTrader.Backtest.Strategies
import MarketTrader.Library.DictSum
import MarketTrader.Portfolio.LongOnly

namespace MarketTrader.Backtest

open Library MarketTrader.Core Storage Portfolio Features

variable {names l : List String} {w w' : Weights} {panel : PriceFrame} {t bar : Datetime}

/-- A book that is long only, in some of the names, and either empty or fully invested. -/
structure FullBook (names : List String) (w : Weights) : Prop where
  long : LongIn names w
  full : w = .empty ∨ netOf w = 1

theorem fullBook_empty (names : List String) : FullBook names .empty :=
  ⟨LongIn.empty names, .inl rfl⟩

theorem fullBook_shares {parts : List (String × ℚ)} (hn : (parts.map Prod.fst).Nodup)
    (h : ∀ a ∈ parts, a.1 ∈ names ∧ 0 ≤ a.2) (ht : 0 < (parts.map Prod.snd).sum) :
    FullBook names
      (.ofList (parts.map (fun p ↦ (p.1, p.2 / (parts.map Prod.snd).sum)))) := by
  refine ⟨longIn_shares h (if_pos ht), .inr ?_⟩
  have hkeys : ((parts.map (fun p ↦ (p.1, p.2 / (parts.map Prod.snd).sum))).map
      Prod.fst).Nodup := by
    rw [List.map_map]
    exact hn
  rw [netOf, Keyed.toList_ofList hkeys, List.map_map]
  simp only [Function.comp_def, div_eq_mul_inv, List.sum_map_mul_right]
  exact mul_inv_cancel₀ ht.ne'

theorem fullBook_equalWeights (hn : l.Nodup) (h : ∀ s ∈ l, s ∈ names) :
    FullBook names (equalWeights l) := by
  refine ⟨(longIn_equalWeights l).mono h, ?_⟩
  have hkeys : ((l.map (fun s ↦ (s, (1 / l.length : ℚ)))).map Prod.fst).Nodup := by
    simpa [Function.comp_def] using hn
  by_cases hl : l = []
  · subst hl
    exact .inl rfl
  · have hlen : (l.length : ℚ) ≠ 0 := by simpa using hl
    right
    rw [netOf, equalWeights, Keyed.toList_ofList hkeys, List.map_map, Function.comp_def,
      List.map_const', List.sum_replicate, nsmul_eq_mul, mul_one_div_cancel hlen]

/-! ### The strategies -/

theorem iloc_sublist {α : Type} (l : List α) (start stop : ℤ) : (iloc l start stop).Sublist l :=
  (List.take_sublist _ _).trans (List.drop_sublist _ _)

/-- The names at the top of a ranking are some of those that were ranked, each once. -/
theorem top_names {ranked : List (String × ℚ)} (hn : (ranked.map Prod.fst).Nodup) (k : ℤ) :
    ((iloc (descending ranked) 0 k).map Prod.fst).Nodup ∧
      ∀ s ∈ (iloc (descending ranked) 0 k).map Prod.fst, s ∈ ranked.map Prod.fst := by
  have hperm : ((descending ranked).map Prod.fst).Perm (ranked.map Prod.fst) :=
    (sortBy_perm _ ranked).map _
  have hsub := (iloc_sublist (descending ranked) 0 k).map Prod.fst
  exact ⟨hsub.nodup (hperm.nodup_iff.mpr hn), fun s hs ↦ hperm.mem_iff.mp (hsub.subset hs)⟩

theorem fst_dropna_sublist (s : Scores) : ((dropna s).map Prod.fst).Sublist (s.map Prod.fst) := by
  apply filterMap_map_sublist
  intro a b hb
  obtain ⟨q, -, rfl⟩ := Option.map_eq_some_iff.mp hb
  rfl

theorem mem_dropna {s : Scores} {a : String × ℚ} : a ∈ dropna s ↔ (a.1, some a.2) ∈ s := by
  rw [dropna, List.mem_filterMap]
  constructor
  · rintro ⟨b, hb, hm⟩
    obtain ⟨q, hq, rfl⟩ := Option.map_eq_some_iff.mp hm
    rwa [← hq]
  · exact fun h ↦ ⟨_, h, rfl⟩

theorem nodup_known (panel : PriceFrame) : panel.known.Nodup := by
  unfold Frame.known
  split
  · exact List.nodup_nil
  · exact Keyed.nodup _

theorem fullBook_equalWeightStrategy (panel : PriceFrame) (t : Datetime) :
    FullBook panel.known (equalWeightStrategy.targetWeights (.ofPanel t panel) t) :=
  fullBook_equalWeights (nodup_known panel) fun _ hs ↦ hs

theorem fullBook_momentum (m : MomentumStrategy) (panel : PriceFrame) (t : Datetime) :
    FullBook panel.known (m.targetWeights (.ofPanel t panel) t) := by
  unfold MomentumStrategy.targetWeights
  dsimp only
  split
  · exact fullBook_equalWeightStrategy panel t
  · split
    · exact fullBook_empty _
    · let changes : Scores := panel.columns.toList.map (fun c ↦ (c.1, m.change c.2))
      have hsub := fst_dropna_sublist changes
      have hkeys : changes.map Prod.fst = panel.columns.keys := List.map_map
      have hn : ((dropna changes).map Prod.fst).Nodup := by
        rw [hkeys] at hsub
        exact hsub.nodup panel.columns.nodup
      obtain ⟨htop, hmem⟩ := top_names hn (max 1 (truncate ((dropna changes).length * m.topFraction)))
      refine fullBook_equalWeights htop fun s hs ↦ ?_
      obtain ⟨a, ha, rfl⟩ := List.mem_map.mp (hmem s hs)
      obtain ⟨c, hc, he⟩ := List.mem_map.mp (mem_dropna.mp ha)
      obtain ⟨hname, hchange⟩ := Prod.mk.inj he
      by_contra hk
      -- a name without a price has no change
      have hnone := Column.ffill_eq_none c.2
        (Frame.eq_none_of_not_mem_known hc (hname ▸ hk))
      have hhead : ((Column.ffill c.2).drop (c.2.length - (m.lookback + 1))).head?.join = none := by
        cases hd : ((Column.ffill c.2).drop (c.2.length - (m.lookback + 1))).head? with
        | none => rfl
        | some x => exact hnone x (List.mem_of_mem_drop (List.mem_of_head? hd))
      rw [MomentumStrategy.change, hhead] at hchange
      cases hchange

theorem fullBook_topEvenly (passes : ℚ → Bool) (maxPositions : ℤ) (scores : SignalMap)
    (view : PointInTimeView) (t : Datetime) :
    FullBook view.universeNames (topEvenly passes maxPositions scores view t) := by
  unfold topEvenly
  split
  · exact fullBook_empty _
  · next score hs =>
    dsimp only
    split
    · exact fullBook_empty _
    · have hn : (((tradableScores score view).filter (fun p ↦ passes p.2)).map Prod.fst).Nodup :=
        ((List.filter_sublist.trans List.filter_sublist).map Prod.fst).nodup
          ((fst_dropna_sublist score.toList).nodup score.nodup)
      obtain ⟨htop, hmem⟩ := top_names hn maxPositions
      refine fullBook_equalWeights htop fun s hs ↦ ?_
      obtain ⟨a, ha, rfl⟩ := List.mem_map.mp (hmem s hs)
      exact of_decide_eq_true (List.mem_filter.mp (List.mem_of_mem_filter ha)).2

theorem fst_zscore (sqrt : ℚ → ℚ) (s : Scores) : (zscore sqrt s).map Prod.fst = s.map Prod.fst := by
  unfold zscore
  dsimp only
  split <;> exact List.map_map

theorem fullBook_scoreTilt {N : Numerics} (hexp : ∀ x, 0 ≤ N.exp x) (s : ScoreTiltStrategy)
    (view : PointInTimeView) (hn : view.universeNames.Nodup) (t : Datetime) :
    FullBook view.universeNames (s.targetWeights N view t) := by
  have heven : FullBook view.universeNames (equalWeights view.universeNames) :=
    fullBook_equalWeights hn fun _ hs ↦ hs
  unfold ScoreTiltStrategy.targetWeights
  dsimp only
  split
  · exact heven
  · next score hs =>
    have hfst : (ScoreTiltStrategy.tilted N s.tiltStrength score view.universeNames).map Prod.fst =
        view.universeNames := by
      rw [ScoreTiltStrategy.tilted, List.map_map]
      refine (fst_zscore N.sqrt _).trans ?_
      rw [List.map_map, reindex, List.map_map]
      exact List.map_id _
    split
    · next ht =>
      refine fullBook_shares (by rwa [hfst]) (fun a ha ↦ ⟨?_, ?_⟩) ht
      · rw [← hfst]
        exact List.mem_map_of_mem ha
      · obtain ⟨b, -, rfl⟩ := List.mem_map.mp ha
        exact hexp _
    · exact heven

section Composite

variable (P : Powers ℚ) (s : CompositeBacktestStrategy) (panel : PriceFrame)

theorem features_names : ((s.features P panel).map Prod.fst).Nodup ∧
    ∀ x ∈ (s.features P panel).map Prod.fst, x ∈ panel.known := by
  constructor
  · apply Dict.nodup_filterMap
    intro a b hb
    obtain ⟨q, -, rfl⟩ := Option.map_eq_some_iff.mp hb
    rfl
  · intro x hx
    obtain ⟨a, ha, rfl⟩ := List.mem_map.mp hx
    obtain ⟨c, hc, hm⟩ := List.mem_filterMap.mp ha
    obtain ⟨q, hq, rfl⟩ := Option.map_eq_some_iff.mp hm
    by_contra hk
    have hnone := changeOf_eq_none (Frame.eq_none_of_not_mem_known hc hk) (-1)
      (-(s.momentumLookback + 1))
    rw [CompositeBacktestStrategy.parts, hnone] at hq
    cases hq

theorem fullBook_inverseVol {feat : List (String × List ℚ)} (hn : l.Nodup)
    (h : ∀ x ∈ l, x ∈ names) (hw : CompositeBacktestStrategy.inverseVol feat l = some w) :
    FullBook names w := by
  let inv : Scores := l.map (fun s ↦
    (s, (((feat.find? (·.1 = s)).bind (fun p ↦ p.2[2]?)).filter (0 < ·)).map (fun v : ℚ ↦ 1 / v)))
  let known := (inv.map Prod.snd).reduceOption
  let mean := known.sum / known.length
  have hinv : ∀ q ∈ known, 0 ≤ q := by
    intro q hq
    obtain ⟨a, ha, hs⟩ := List.mem_map.mp (List.reduceOption_mem_iff.mp hq)
    obtain ⟨x, -, rfl⟩ := List.mem_map.mp ha
    obtain ⟨v, hv, rfl⟩ := Option.map_eq_some_iff.mp hs
    exact (one_div_pos.mpr (of_decide_eq_true (Option.filter_eq_some_iff.mp hv).2)).le
  have hmean : 0 ≤ mean := div_nonneg (List.sum_nonneg hinv) (Nat.cast_nonneg _)
  have hfst : (inv.map (fun p ↦ (p.1, p.2.getD mean))).map Prod.fst = l := by
    rw [List.map_map, List.map_map]
    exact List.map_id _
  rw [CompositeBacktestStrategy.inverseVol] at hw
  dsimp only at hw
  split at hw
  · cases hw
  · rw [Option.ite_none_right_eq_some, Option.some_inj] at hw
    obtain ⟨ht, rfl⟩ := hw
    have hnodup : ((inv.map (fun p ↦ (p.1, p.2.getD mean))).map Prod.fst).Nodup := by rwa [hfst]
    refine fullBook_shares hnodup (fun a ha ↦ ⟨h _ ?_, ?_⟩) ht
    · rw [← hfst]
      exact List.mem_map_of_mem ha
    · obtain ⟨b, hb, rfl⟩ := List.mem_map.mp ha
      cases hq : b.2 with
      | none => exact hmean
      | some q =>
        refine hinv q (List.reduceOption_mem_iff.mpr ?_)
        rw [← hq]
        exact List.mem_map_of_mem hb

theorem fullBook_composite (t : Datetime) :
    FullBook panel.known (s.targetWeights P (.ofPanel t panel) t) := by
  unfold CompositeBacktestStrategy.targetWeights
  dsimp only
  split
  · exact fullBook_equalWeightStrategy panel t
  · split
    · exact fullBook_empty _
    · obtain ⟨hn, hmem⟩ := features_names P s panel
      have hfst : (s.composite P (s.features P panel) t).map Prod.fst =
          (s.features P panel).map Prod.fst := List.map_map
      rw [← hfst] at hn hmem
      obtain ⟨htop, hsub⟩ := top_names hn (max 1 (min s.maxPositions
        (truncate ((s.composite P (s.features P panel) t).length * s.topQuantile))))
      have hin := fun x hx ↦ hmem x (hsub x hx)
      cases hw : CompositeBacktestStrategy.inverseVol (s.features P panel)
          ((iloc (descending (s.composite P (s.features P panel) t)) 0 (max 1 (min s.maxPositions
            (truncate ((s.composite P (s.features P panel) t).length * s.topQuantile))))).map
              Prod.fst) with
      | none => exact hw ▸ fullBook_equalWeights htop hin
      | some book => exact hw ▸ fullBook_inverseVol htop hin hw

end Composite

/-- The strategies that put all of their capital into a long-only book. -/
inductive FullyInvested (N : Numerics) (P : Powers ℚ) : Strategy → Prop
  | equalWeight : FullyInvested N P equalWeightStrategy
  | momentum (s : MomentumStrategy) : FullyInvested N P s.strategy
  | composite (s : CompositeBacktestStrategy) : FullyInvested N P (s.strategy P)
  | insiderLong (s : InsiderLongStrategy) : FullyInvested N P s.strategy
  | stacked (s : StackedSignalStrategy) : FullyInvested N P s.strategy
  | scoreTilt (s : ScoreTiltStrategy) : FullyInvested N P (s.strategy N)

variable {N : Numerics} {P : Powers ℚ} {strategy : Strategy}

theorem FullyInvested.fullBook (hexp : ∀ x, 0 ≤ N.exp x) (h : FullyInvested N P strategy)
    (panel : PriceFrame) (t : Datetime) :
    FullBook panel.known (strategy.targetWeights (.ofPanel t panel) t) := by
  cases h with
  | equalWeight => exact fullBook_equalWeightStrategy panel t
  | momentum s => exact fullBook_momentum s panel t
  | composite s => exact fullBook_composite P s panel t
  | insiderLong s =>
    exact fullBook_topEvenly (0 < ·) s.maxPositions s.insiderScores (.ofPanel t panel) t
  | stacked s =>
    exact fullBook_topEvenly (fun _ ↦ true) s.maxPositions s.scores (.ofPanel t panel) t
  | scoreTilt s => exact fullBook_scoreTilt hexp s (.ofPanel t panel) (nodup_known panel) t

/-! ### A run -/

theorem mem_diff {change : ℚ → ℚ → Option ℚ} {col : Column ℚ} {r : ℚ}
    (h : some r ∈ Column.diff change col) :
    ∃ prev cur, some prev ∈ col ∧ some cur ∈ col ∧ change prev cur = some r := by
  have hfrom : ∀ last, some r ∈ Column.diffFrom change last col →
      ∃ prev cur, (some prev = last ∨ some prev ∈ col) ∧ some cur ∈ col ∧
        change prev cur = some r := by
    clear h
    induction col with
    | nil => simp [Column.diffFrom]
    | cons x col ih =>
      intro last hm
      rw [Column.diffFrom, List.mem_cons] at hm
      rcases hm with hx | hm
      · cases last with
        | none => cases hx
        | some prev =>
          cases x with
          | none => cases hx
          | some cur => exact ⟨prev, cur, .inl rfl, List.mem_cons_self, hx.symm⟩
      · obtain ⟨prev, cur, hp, hc, hr⟩ := ih x hm
        refine ⟨prev, cur, .inr ?_, List.mem_cons_of_mem _ hc, hr⟩
        rcases hp with hp | hp
        · exact hp ▸ List.mem_cons_self
        · exact List.mem_cons_of_mem _ hp
  obtain ⟨prev, cur, hp, hc, hr⟩ := hfrom none h
  exact ⟨prev, cur, hp.resolve_left (by simp), hc, hr⟩

/-- Every price of the panel is positive. -/
def Positive (panel : PriceFrame) : Prop :=
  ∀ c ∈ panel.columns.toList, ∀ q ∈ c.2.reduceOption, 0 < q

instance (panel : PriceFrame) : Decidable (Positive panel) :=
  inferInstanceAs (Decidable (∀ c ∈ panel.columns.toList, ∀ q ∈ c.2.reduceOption, 0 < q))

/-- A positive price does not lose all of itself. -/
theorem cell_gt (hpos : Positive panel) {c : String × Column ℚ}
    (hc : c ∈ (panel.diff pctChange).columns.toList) (bar : Datetime) :
    -1 < (Frame.cellAt (panel.diff pctChange).index c.2 bar).getD 0 := by
  obtain ⟨b, hb, rfl⟩ := List.mem_map.mp hc
  unfold Frame.cellAt
  cases hf : ((panel.diff pctChange).index.zip (Column.diff pctChange b.2)).find?
      (·.1 = bar) with
  | none => norm_num
  | some p =>
    obtain ⟨i, x⟩ := p
    cases x with
    | none => norm_num
    | some r =>
      obtain ⟨prev, cur, hp, hq, hr⟩ := mem_diff (List.of_mem_zip (List.mem_of_find?_eq_some hf)).2
      have hprev := hpos b hb prev (List.reduceOption_mem_iff.mpr hp)
      have hcur := hpos b hb cur (List.reduceOption_mem_iff.mpr hq)
      rw [pctChange, if_neg hprev.ne', Option.some_inj] at hr
      rw [Option.bind_some, Option.getD_some, ← hr]
      linarith [div_pos hcur hprev]

/-- Its book never loses everything on one bar. -/
theorem FullBook.bookReturn_gt (hw : FullBook panel.names w) (hpos : Positive panel)
    (bar : Datetime) : -1 < bookReturn (panel.diff pctChange) w bar := by
  rcases hw.full with rfl | hsum
  · have hzero : bookReturn (panel.diff pctChange) .empty bar = 0 := by
      simp [bookReturn, Dict.getD, Dict.get?_empty]
    rw [hzero]
    norm_num
  · let cols := (panel.diff pctChange).columns.toList
    let cell := fun c : String × Column ℚ ↦
      (Frame.cellAt (panel.diff pctChange).index c.2 bar).getD 0
    have hnames : cols.map Prod.fst = panel.names := Dict.keys_mapVals
    have hshares : (cols.map (fun c ↦ Dict.getD w c.1 0)).sum = 1 := by
      have hall : ∀ k ∈ w.keys, k ∈ panel.names := by
        intro k hk
        obtain ⟨a, ha, rfl⟩ := Keyed.mem_keys.mp hk
        exact (hw.long a ha).1
      have hs := Dict.sum_getD panel.columns.nodup hall (fun (_ : String) (v : ℚ) ↦ v) fun _ ↦ rfl
      have hcols : cols.map (fun c ↦ Dict.getD w c.1 0) =
          panel.names.map (fun k ↦ Dict.getD w k 0) := by
        rw [← hnames, List.map_map]
        rfl
      rw [hcols]
      exact hs.trans hsum
    -- of the shares, which sum up to one, some is positive
    have hpart : 0 < (cols.map (fun c ↦ (1 + cell c) * Dict.getD w c.1 0)).sum := by
      have hnonneg : ∀ x ∈ cols.map (fun c ↦ (1 + cell c) * Dict.getD w c.1 0), 0 ≤ x := by
        intro x hx
        obtain ⟨c, hc, rfl⟩ := List.mem_map.mp hx
        exact mul_nonneg (by linarith [cell_gt hpos hc bar]) (hw.long.getD_nonneg c.1)
      obtain ⟨c, hc, hne⟩ : ∃ c ∈ cols, Dict.getD w c.1 0 ≠ 0 := by
        by_contra hno
        push Not at hno
        rw [List.map_congr_left hno] at hshares
        simp at hshares
      have hshare : 0 < Dict.getD w c.1 0 := lt_of_le_of_ne (hw.long.getD_nonneg c.1) hne.symm
      have hterm : 0 < (1 + cell c) * Dict.getD w c.1 0 :=
        mul_pos (by linarith [cell_gt hpos hc bar]) hshare
      exact hterm.trans_le (List.single_le_sum hnonneg _ (List.mem_map_of_mem hc))
    have hsplit : (cols.map (fun c ↦ (1 + cell c) * Dict.getD w c.1 0)).sum =
        (cols.map (fun c ↦ Dict.getD w c.1 0)).sum + bookReturn (panel.diff pctChange) w bar := by
      rw [bookReturn, ← List.sum_map_add]
      congr 1
      apply List.map_congr_left
      intro c _
      dsimp only [cell]
      ring
    linarith

theorem mem_names_of_mem_known {k : String} (h : k ∈ (panel.upTo t).known) : k ∈ panel.names := by
  obtain ⟨col, hc, -⟩ := Frame.mem_known.mp h
  have hkeys : (panel.upTo t).names = panel.names := Dict.keys_mapVals
  rw [← hkeys]
  exact Keyed.mem_keys.mpr ⟨_, hc, rfl⟩

theorem FullyInvested.decided (hexp : ∀ x, 0 ≤ N.exp x) (h : FullyInvested N P strategy)
    (panel : PriceFrame) (t : Datetime) : FullBook panel.names (decided panel strategy t) := by
  have hbook := h.fullBook hexp (panel.upTo t) t
  exact ⟨hbook.long.mono fun _ hk ↦ mem_names_of_mem_known hk, hbook.full⟩

theorem FullBook.net_le (hw : FullBook names w) : netOf w ≤ 1 := by
  rcases hw.full with rfl | h
  · exact zero_le_one
  · exact h.le

/-- At worst the one book is sold as a whole and the other one bought as a whole. -/
theorem oneWayTurnover_le (hw : FullBook names w) (hw' : FullBook names w') :
    0 ≤ oneWayTurnover w w' ∧ oneWayTurnover w w' ≤ 2 := by
  let keys := (w.keys ++ w'.keys).dedup
  have hsum : ∀ {v : Weights}, FullBook names v → (∀ k ∈ v.keys, k ∈ keys) →
      (keys.map (fun k ↦ Dict.getD v k 0)).sum ≤ 1 := by
    intro v hv hk
    have hs := Dict.sum_getD (List.nodup_dedup (w.keys ++ w'.keys)) hk
      (fun (_ : String) (q : ℚ) ↦ q) fun _ ↦ rfl
    exact hs.trans_le hv.net_le
  have hold := hsum hw fun k hk ↦ List.mem_dedup.mpr (List.mem_append_left _ hk)
  have hnew := hsum hw' fun k hk ↦ List.mem_dedup.mpr (List.mem_append_right _ hk)
  have hle : oneWayTurnover w w' ≤
      (keys.map (fun k ↦ Dict.getD w' k 0 + Dict.getD w k 0)).sum := by
    apply List.sum_le_sum
    intro k _
    rw [abs_le]
    constructor <;> linarith [hw.long.getD_nonneg k, hw'.long.getD_nonneg k]
  rw [List.sum_map_add] at hle
  refine ⟨List.sum_nonneg ?_, by linarith⟩
  intro x hx
  obtain ⟨k, -, rfl⟩ := List.mem_map.mp hx
  exact abs_nonneg _

variable {m : BasicCostModel} {ts : List Datetime} {last : Datetime} {s : BacktestBooks}

/-- What a change between two full books costs at most. -/
def BasicCostModel.worst (m : BasicCostModel) : ℚ :=
  2 * (m.commissionBps + m.halfSpreadBps + m.slippageBps) / 10 ^ 4

def BasicCostModel.Nonneg (m : BasicCostModel) : Prop :=
  0 ≤ m.commissionBps ∧ 0 ≤ m.halfSpreadBps ∧ 0 ≤ m.slippageBps

theorem BasicCostModel.turnoverCost_le (hm : m.Nonneg) (hw : FullBook names w)
    (hw' : FullBook names w') :
    0 ≤ m.model.turnoverCost w w' ∧ m.model.turnoverCost w w' ≤ m.worst := by
  obtain ⟨hc, hh, hs⟩ := hm
  obtain ⟨hpos, hle⟩ := oneWayTurnover_le hw hw'
  have hrates : 0 ≤ m.commissionBps + m.halfSpreadBps + m.slippageBps := by linarith
  have hmul := mul_le_mul_of_nonneg_right hle hrates
  have hnonneg := mul_nonneg hpos hrates
  simp only [BasicCostModel.model, BasicCostModel.worst]
  constructor <;> linarith

theorem costs_rebalanceAll_of_le (strategy : Strategy) (costModel : CostModel) (last : Datetime)
    (s : BacktestBooks) (h : ∀ t ∈ ts, bar ≤ t) :
    (rebalanceAll panel strategy costModel last ts s).costs bar = s.costs bar := by
  induction ts generalizing s with
  | nil => rfl
  | cons t rest ih =>
    rw [List.forall_mem_cons] at h
    rw [rebalanceAll, ih _ h.2]
    refine if_neg fun hhead ↦ ?_
    have hm := List.mem_of_head? hhead
    exact absurd (of_decide_eq_true (List.mem_filter.mp hm).2).1 (not_lt.mpr h.1)

/-- A bar opens the window of one rebalance at most, so that it pays for one at most. -/
theorem costs_rebalanceAll_le (bar last : Datetime) (hm : m.Nonneg)
    (hd : ∀ t, FullBook names (decided panel strategy t))
    (hs : ts.Pairwise (· ≤ ·)) (hw : FullBook names s.prevW) :
    s.costs bar ≤ (rebalanceAll panel strategy m.model last ts s).costs bar ∧
      (rebalanceAll panel strategy m.model last ts s).costs bar ≤ s.costs bar + m.worst := by
  induction ts generalizing s with
  | nil =>
    obtain ⟨hpos, hle⟩ := m.turnoverCost_le hm hw hw
    exact ⟨le_rfl, le_add_of_nonneg_right (hpos.trans hle)⟩
  | cons t rest ih =>
    obtain ⟨hfirst, hrest⟩ := List.pairwise_cons.mp hs
    obtain ⟨hpos, hle⟩ := m.turnoverCost_le hm hw (hd t)
    rw [rebalanceAll]
    by_cases hhead : (window (panel.diff pctChange).index t (rest.head?.getD last)).head? = some bar
    · have hbar := of_decide_eq_true (List.mem_filter.mp (List.mem_of_head? hhead)).2
      have hlater : ∀ t' ∈ rest, bar ≤ t' := by
        intro t' ht'
        cases rest with
        | nil => cases ht'
        | cons t₁ rest =>
          refine hbar.2.trans ?_
          rcases List.mem_cons.mp ht' with rfl | ht'
          · exact le_rfl
          · exact (List.pairwise_cons.mp hrest).1 t' ht'
      rw [costs_rebalanceAll_of_le _ _ _ _ hlater]
      have hcost : (rebalanceAt panel strategy m.model t (rest.head?.getD last) s).costs bar =
          s.costs bar + (m.model.turnoverCost s.prevW (Backtest.decided panel strategy t) + 0) :=
        if_pos hhead
      rw [hcost]
      constructor <;> linarith
    · have hcost : (rebalanceAt panel strategy m.model t (rest.head?.getD last) s).costs bar =
          s.costs bar := if_neg hhead
      have hstep := ih hrest (s := rebalanceAt panel strategy m.model t (rest.head?.getD last) s)
        (hd t)
      rwa [hcost] at hstep

/-- Every turnover that the walk records lies between two full books. -/
theorem turnover_rebalanceAll_le (hd : ∀ t, FullBook names (decided panel strategy t))
    (costModel : CostModel) (hw : FullBook names s.prevW)
    (ht : ∀ a ∈ s.turnoverByDate.toList, 0 ≤ a.2 ∧ a.2 ≤ 2) :
    ∀ a ∈ (rebalanceAll panel strategy costModel last ts s).turnoverByDate.toList,
      0 ≤ a.2 ∧ a.2 ≤ 2 := by
  induction ts generalizing s with
  | nil => exact ht
  | cons t rest ih =>
    apply ih
    · exact hd t
    · intro a ha
      rcases mem_of_mem_upsert ha with rfl | ha
      · exact oneWayTurnover_le hw (hd t)
      · exact ht a ha

/-- A fully invested strategy over positive prices: no bar takes all of the capital, no rebalance
turns over more than the whole book twice, and no bar pays for more than that. -/
theorem full_books_solvent (hexp : ∀ x, 0 ≤ N.exp x) (hs : FullyInvested N P strategy)
    {store : InMemoryBitemporalStore} {dataset priceField : String}
    {restrictTo : Option (List String)}
    (hp : backtestPanel store dataset priceField restrictTo = .ok panel) (hpos : Positive panel)
    (hm : m.Nonneg) {schedule : List Datetime} {result : BacktestResult}
    (hrun : runBacktest store strategy schedule (some m.model) dataset priceField restrictTo =
      .ok result) :
    (∀ g ∈ result.grossReturns, -1 < g.2) ∧
      (∀ p ∈ result.grossReturns.zip result.netReturns, p.1.1 = p.2.1 ∧ p.2.2 ≤ p.1.2 ∧
        p.1.2 ≤ p.2.2 + m.worst) ∧
      ∀ a ∈ result.turnover, 0 ≤ a.2 ∧ a.2 ≤ 2 := by
  have hd : ∀ t, FullBook panel.names (decided panel strategy t) := hs.decided hexp panel
  unfold runBacktest at hrun
  split at hrun
  · cases hrun
  · next first rest hsched =>
    have hsorted : (first :: rest).Pairwise (· ≤ ·) := hsched ▸ sortBy_pairwise id schedule
    rw [hp] at hrun
    simp only [Option.getD_some, Except.ok.injEq] at hrun
    subst hrun
    refine ⟨?_, ?_, ?_⟩
    · intro g hg
      obtain ⟨bar, hb, rfl⟩ := List.mem_map.mp hg
      obtain ⟨t, -, hgross⟩ := gross_active panel strategy m.model bar hsorted hb
      rw [hgross]
      exact (hd t).bookReturn_gt hpos bar
    · intro p hp
      rw [List.zip_map', List.mem_map] at hp
      obtain ⟨bar, hb, rfl⟩ := hp
      obtain ⟨hlow, hhigh⟩ := costs_rebalanceAll_le (s := {}) bar
        (panel.index.getLast?.getD first) hm hd hsorted (fullBook_empty panel.names)
      simp only [zero_add] at hlow hhigh
      refine ⟨rfl, ?_, ?_⟩ <;> dsimp only <;> linarith
    · intro a ha
      rw [mem_sortBy] at ha
      exact turnover_rebalanceAll_le hd m.model (fullBook_empty panel.names)
        (fun a ha ↦ by cases ha) a ha

/-- Two names, of which the one halves on the last bar. -/
def halvedStore : InMemoryBitemporalStore :=
  .ofList [closeAt 0 10 1, closeAt 1 11 2, closeAt 2 5 3,
    { closeAt 0 4 4 with entityId := "B" }, { closeAt 1 4 5 with entityId := "B" },
    { closeAt 2 6 6 with entityId := "B" }]

def halvedPanel : PriceFrame :=
  .pivot [⟨0, "A", 10⟩, ⟨0, "B", 4⟩, ⟨1, "A", 11⟩, ⟨1, "B", 4⟩, ⟨2, "A", 5⟩, ⟨2, "B", 6⟩]

def evenScores : SignalMap := .ofList [(0, .ofList [("A", some 1), ("B", some 1)])]

def plainTilt : Numerics := { Numerics.plain with exp := fun _ ↦ 1 }

theorem full_books_solvent_halved :
    ∃ result, runBacktest halvedStore (ScoreTiltStrategy.strategy plainTilt ⟨evenScores, 1, "tilt"⟩)
        [0, 1] (some ({} : BasicCostModel).model) "d" "close" none = .ok result ∧
      ∀ g ∈ result.grossReturns, -1 < g.2 := by
  have hp : backtestPanel halvedStore "d" "close" none = .ok halvedPanel := by rfl
  cases hrun : runBacktest halvedStore
      (ScoreTiltStrategy.strategy plainTilt ⟨evenScores, 1, "tilt"⟩) [0, 1]
      (some ({} : BasicCostModel).model) "d" "close" none with
  | error e =>
    have hok : (runBacktest halvedStore
        (ScoreTiltStrategy.strategy plainTilt ⟨evenScores, 1, "tilt"⟩) [0, 1]
        (some ({} : BasicCostModel).model) "d" "close" none).isOk = true := by
      decide +kernel
    rw [hrun] at hok
    cases hok
  | ok result =>
    refine ⟨result, rfl, ?_⟩
    exact (full_books_solvent (N := plainTilt) (P := ⟨id, fun x _ ↦ x⟩) (fun _ ↦ zero_le_one)
      (.scoreTilt ⟨evenScores, 1, "tilt"⟩) hp (by decide +kernel) ⟨by decide, by decide, by decide⟩
      hrun).1

end MarketTrader.Backtest
