import MarketTrader.Backtest.Engine
import Mathlib.Algebra.BigOperators.Group.List.Basic

namespace MarketTrader.Backtest

open Library MarketTrader.Core Storage InMemoryBitemporalStore Portfolio

variable {panel panel' : PriceFrame} {strategy : Strategy} {costModel : CostModel}
  {ts : List Datetime} {bar last horizon : Datetime}

/-! ### Every bar once -/

def lastBefore (ts : List Datetime) (bar : Datetime) : Option Datetime :=
  (ts.filter (· < bar)).getLast?

theorem lastBefore_cons {t : Datetime} : lastBefore (t :: ts) bar =
    match lastBefore ts bar with
    | some t' => some t'
    | none => if t < bar then some t else none := by
  unfold lastBefore
  by_cases ht : t < bar
  · rw [List.filter_cons_of_pos (by simpa using ht), if_pos ht]
    cases hl : ts.filter (· < bar) with
    | nil => rfl
    | cons a l =>
      rw [List.getLast?_cons_cons]
      cases hg : (a :: l).getLast? with
      | none => simp at hg
      | some b => rfl
  · rw [List.filter_cons_of_neg (by simpa using ht), if_neg ht]
    cases (ts.filter (· < bar)).getLast? <;> rfl

theorem lastBefore_eq_some (hs : ts.Pairwise (· ≤ ·)) {t : Datetime}
    (h : lastBefore ts bar = some t) : t ∈ ts ∧ t < bar ∧ ∀ t' ∈ ts, t' < bar → t' ≤ t := by
  have hm := List.mem_of_getLast? h
  obtain ⟨hm, hlt⟩ := List.mem_filter.mp hm
  refine ⟨hm, of_decide_eq_true hlt, fun t' ht' hlt' ↦ ?_⟩
  obtain ⟨l, hl⟩ := List.getLast?_eq_some_iff.mp h
  have hp : (l ++ [t]).Pairwise (· ≤ ·) := hl ▸ hs.filter _
  have hm' : t' ∈ l ++ [t] := hl ▸ List.mem_filter.mpr ⟨ht', by simpa using hlt'⟩
  rw [List.pairwise_append] at hp
  rcases List.mem_append.mp hm' with hm' | hm'
  · exact hp.2.2 t' hm' t (List.mem_singleton_self t)
  · exact (List.mem_singleton.mp hm').le

theorem lastBefore_isSome {t : Datetime} (ht : t ∈ ts) (hlt : t < bar) :
    (lastBefore ts bar).isSome := by
  rw [lastBefore, List.getLast?_isSome]
  exact List.ne_nil_of_mem (List.mem_filter.mpr ⟨ht, by simpa using hlt⟩)

/-- The windows of the walk meet each bar once: the book of the last rebalance before it counts. -/
theorem gross_rebalanceAll (hs : ts.Pairwise (· ≤ ·)) (hb : bar ∈ panel.index) (hl : bar ≤ last)
    (s : BacktestBooks) : (rebalanceAll panel strategy costModel last ts s).gross bar =
      match lastBefore ts bar with
      | some t => bookReturn (panel.diff pctChange) (decided panel strategy t) bar
      | none => s.gross bar := by
  induction ts generalizing s with
  | nil => rfl
  | cons t rest ih =>
    rw [List.pairwise_cons] at hs
    rw [rebalanceAll, ih hs.2, lastBefore_cons]
    cases hr : lastBefore rest bar with
    | some t' => rfl
    | none =>
      have hnext : bar ≤ rest.head?.getD last := by
        cases rest with
        | nil => exact hl
        | cons t' rest =>
          by_contra hlt
          have hsome := lastBefore_isSome (List.mem_cons_self (a := t') (l := rest))
            (not_le.mp hlt)
          rw [hr] at hsome
          cases hsome
      have hwin : bar ∈ window (panel.diff pctChange).index t (rest.head?.getD last) ↔ t < bar := by
        simp only [window, List.mem_filter, decide_eq_true_eq]
        exact ⟨fun h ↦ h.2.1, fun h ↦ ⟨hb, h, hnext⟩⟩
      simp only [rebalanceAt, hwin]
      split <;> rfl

theorem le_getLast {index : List Datetime} (hs : index.Pairwise (· < ·)) (hb : bar ∈ index)
    (d : Datetime) : bar ≤ index.getLast?.getD d := by
  induction index using List.reverseRecOn with
  | nil => cases hb
  | append_singleton l a =>
    rw [List.getLast?_append, List.getLast?_singleton, Option.some_or, Option.getD_some]
    rcases List.mem_append.mp hb with hb | hb
    · exact ((List.pairwise_append.mp hs).2.2 bar hb a (List.mem_singleton_self a)).le
    · exact (List.mem_singleton.mp hb).le

theorem first_lt_iff {first : Datetime} (hs : (first :: ts).Pairwise (· ≤ ·)) :
    first < bar ↔ ∃ t ∈ first :: ts, t < bar := by
  constructor
  · intro hlt
    exact ⟨first, List.mem_cons_self, hlt⟩
  · rintro ⟨t, ht, hlt⟩
    rcases List.mem_cons.mp ht with rfl | ht
    · exact hlt
    · exact ((List.pairwise_cons.mp hs).1 t ht).trans_lt hlt

variable (panel strategy costModel bar) in
theorem gross_active {first : Datetime} (hs : (first :: ts).Pairwise (· ≤ ·))
    (hb : bar ∈ panel.index.filter (first < ·)) : ∃ t, lastBefore (first :: ts) bar = some t ∧
      (rebalanceAll panel strategy costModel (panel.index.getLast?.getD first) (first :: ts)
        {}).gross bar = bookReturn (panel.diff pctChange) (decided panel strategy t) bar := by
  obtain ⟨hb, hlt⟩ := List.mem_filter.mp hb
  obtain ⟨t, ht⟩ := Option.isSome_iff_exists.mp
    (lastBefore_isSome (List.mem_cons_self (l := ts)) (of_decide_eq_true hlt))
  refine ⟨t, ht, ?_⟩
  rw [gross_rebalanceAll hs hb (le_getLast panel.sorted hb first), ht]

/-! ### The part of a panel that is known -/

theorem sum_map_filter {α : Type} {l : List α} {p : α → Bool} {f : α → ℚ}
    (h : ∀ a ∈ l, p a = false → f a = 0) : ((l.filter p).map f).sum = (l.map f).sum := by
  induction l with
  | nil => rfl
  | cons a l ih =>
    rw [List.forall_mem_cons] at h
    have ih := ih h.2
    cases hp : p a with
    | true => rw [List.filter_cons_of_pos hp, List.map_cons, List.map_cons, List.sum_cons,
        List.sum_cons, ih]
    | false => rw [List.filter_cons_of_neg (by simp [hp]), List.map_cons, List.sum_cons, h.1 hp,
        zero_add, ih]

theorem cellAt_eq_none {col : Column ℚ} (h : ∀ x ∈ col, x = none) (index : List Datetime) :
    Frame.cellAt index col bar = none := by
  unfold Frame.cellAt
  cases hf : (index.zip col).find? (·.1 = bar) with
  | none => rfl
  | some p => exact h _ (List.of_mem_zip (List.mem_of_find?_eq_some hf)).2

theorem bookReturn_upTo (panel : PriceFrame) (w : Weights) (hb : bar ≤ horizon) :
    bookReturn ((panel.upTo horizon).diff pctChange) w bar =
      bookReturn (panel.diff pctChange) w bar := by
  rw [Frame.diff_upTo]
  unfold bookReturn
  rw [Frame.upTo, Dict.toList_mapVals, List.map_map]
  congr 1
  apply List.map_congr_left
  intro c _
  simp only [Function.comp_apply]
  rw [Frame.cellAt_take (panel.diff pctChange).sorted hb]

theorem bookReturn_select (panel : PriceFrame) (w : Weights) (bar : Datetime) :
    bookReturn ((panel.select panel.known).diff pctChange) w bar =
      bookReturn (panel.diff pctChange) w bar := by
  rw [Frame.diff_select]
  unfold bookReturn
  apply sum_map_filter
  intro c hc hk
  obtain ⟨a, ha, rfl⟩ := List.mem_map.mp hc
  have hnone := Column.diff_eq_none pctChange a.2
    (Frame.eq_none_of_not_mem_known ha (of_decide_eq_false hk))
  rw [cellAt_eq_none hnone]
  exact zero_mul _

theorem SameKnown.bookReturn (h : SameKnown (panel.upTo horizon) (panel'.upTo horizon))
    (w : Weights) (hb : bar ≤ horizon) : Backtest.bookReturn (panel.diff pctChange) w bar =
      Backtest.bookReturn (panel'.diff pctChange) w bar := by
  rw [← bookReturn_upTo panel w hb, ← bookReturn_upTo panel' w hb, ← bookReturn_select,
    ← bookReturn_select (panel'.upTo horizon), h.select]

/-- A strategy that goes by the date, by the universe and by the prices and returns of that
universe. -/
def Strategy.ofUniverse (name : String)
    (f : Datetime → List String → PriceFrame → PriceFrame → Weights) : Strategy where
  name := name
  targetWeights view t :=
    f t view.universeNames (view.pricePanel.select view.universeNames)
      (view.returnsPanel.select view.universeNames)

theorem SameKnown.decided (name : String)
    (f : Datetime → List String → PriceFrame → PriceFrame → Weights) {t : Datetime}
    (h : SameKnown (panel.upTo t) (panel'.upTo t))
    (he : (panel.upTo t).isEmpty = (panel'.upTo t).isEmpty) :
    Backtest.decided panel (.ofUniverse name f) t =
      Backtest.decided panel' (.ofUniverse name f) t := by
  have hret : ∀ p : PriceFrame, (returnsPanel p).select p.known =
      if p.isEmpty then p.select p.known else ((p.select p.known).diff pctChange).tail := by
    intro p
    rw [Frame.diff_select, Frame.tail_select]
    unfold returnsPanel
    split <;> rfl
  simp only [Backtest.decided, Strategy.ofUniverse, PanelPriceView.view, PointInTimeView.ofPanel,
    PanelPriceView.pricePanel]
  rw [hret, hret, he, h.select, h.known]

def equalWeightStrategy : Strategy :=
  .ofUniverse "equal_weight" fun _ names _ _ ↦ .ofList (names.map (fun s ↦ (s, 1 / names.length)))

theorem turnover_rebalanceAll (hs : ts.Pairwise (· ≤ ·))
    (hd : ∀ t ∈ ts, t ≤ horizon → decided panel strategy t = decided panel' strategy t)
    {last' : Datetime} {s s' : BacktestBooks}
    (hw : s.prevW = s'.prevW ∨ ∀ t ∈ ts, horizon < t)
    (ht : s.turnoverByDate.toList.filter (·.1 ≤ horizon) =
      s'.turnoverByDate.toList.filter (·.1 ≤ horizon)) :
    (rebalanceAll panel strategy costModel last ts s).turnoverByDate.toList.filter
        (·.1 ≤ horizon) =
      (rebalanceAll panel' strategy costModel last' ts s').turnoverByDate.toList.filter
        (·.1 ≤ horizon) := by
  induction ts generalizing s s' with
  | nil => exact ht
  | cons t rest ih =>
    rw [List.pairwise_cons] at hs
    have hset : ∀ (d : Dict Datetime ℚ) (q : ℚ), (Dict.set d t q).toList.filter (·.1 ≤ horizon) =
        if t ≤ horizon then upsert Prod.fst (t, q) (d.toList.filter (·.1 ≤ horizon))
        else d.toList.filter (·.1 ≤ horizon) := by
      intro d q
      have hf := filter_upsert_of_key Prod.fst (a := (t, q)) (l := d.toList)
        (p := fun p : Datetime × ℚ ↦ decide (p.1 ≤ horizon)) fun b _ hb ↦ by rw [hb]
      simp only [decide_eq_true_eq] at hf
      exact hf
    have hrest := fun t' (h : t' ∈ rest) ↦ hd t' (List.mem_cons_of_mem _ h)
    rw [rebalanceAll, rebalanceAll]
    apply ih hs.2 hrest
    · by_cases hle : t ≤ horizon
      · left
        exact hd t List.mem_cons_self hle
      · right
        intro t' ht'
        exact (not_le.mp hle).trans_le (hs.1 t' ht')
    · simp only [rebalanceAt, hset]
      split
      · next hle =>
        have hp : s.prevW = s'.prevW := by
          apply hw.resolve_right
          intro hlt
          exact absurd hle (not_le.mpr (hlt t List.mem_cons_self))
        rw [ht, hp, hd t List.mem_cons_self hle]
      · exact ht

/-! ### Observations from after the horizon -/

variable {store : InMemoryBitemporalStore} {dataset priceField : String}
  {added : List Observation} {k : Datetime} {o : Observation}

/-- New rows of the price dataset, each known as it happens and after the horizon. -/
structure LaterPrices (store : InMemoryBitemporalStore) (dataset priceField : String)
    (horizon : Datetime) (added : List Observation) : Prop where
  nodup : ((store.toList ++ added).map Observation.observationId).Nodup
  dataset : ∀ o ∈ added, o.dataset = dataset
  timely : ∀ o ∈ added, o.knowledgeTime = o.eventTime
  later : ∀ o ∈ added, horizon < o.eventTime
  price : ∀ o ∈ added, ∃ q, o.get? priceField = some (.num q)

namespace LaterPrices

variable (h : LaterPrices store dataset priceField horizon added)

include h

theorem toList_addMany : (addMany store added).toList = store.toList ++ added :=
  Keyed.toList_insertAll h.nodup

theorem disjoint (ho : o ∈ store.toList) : o ∉ added := by
  intro ha
  have hn := h.nodup
  rw [List.map_append, List.nodup_append] at hn
  exact hn.2.2 _ (List.mem_map_of_mem ho) _ (List.mem_map_of_mem ha) rfl

theorem filter_asOf_eq {t : Datetime} (ht : t ≤ horizon) :
    (asOf (addMany store added) k { dataset := some dataset }).filter (·.eventTime ≤ t) =
      (asOf store k { dataset := some dataset }).filter (·.eventTime ≤ t) := by
  have hkey : ∀ a b : Observation, a.logicalKey = b.logicalKey →
      decide (a.eventTime ≤ t) = decide (b.eventTime ≤ t) := by
    intro a b he
    rw [show a.eventTime = b.eventTime from congrArg (·.2.2.2.1) he]
  have hnil : ((added.filter (·.knowledgeTime ≤ k)).filter (·.dataset = dataset)).filter
      (·.eventTime ≤ t) = [] := by
    rw [List.filter_eq_nil_iff]
    intro o ho hle
    have hl := h.later o (List.mem_of_mem_filter (List.mem_of_mem_filter ho))
    exact absurd (hl.trans_le (of_decide_eq_true hle)) (not_lt.mpr ht)
  rw [filter_asOf_of_key hkey _ k rfl, filter_asOf_of_key hkey store k rfl, select_dataset,
    select_dataset, visible, visible, h.toList_addMany, List.filter_append, List.filter_append,
    List.filter_append, hnil, List.append_nil]

theorem mem_asOf_of_mem (ho : o ∈ store.toList)
    (hr : o ∈ asOf (addMany store added) k { dataset := some dataset }) :
    o ∈ asOf store k { dataset := some dataset } := by
  rw [asOf, sortObservations, mem_sortBy, if_pos rfl, select_dataset, mem_collapse] at hr ⊢
  have hp : ∀ a ∈ store.toList, decide (a ∉ added) = true := by
    intro a ha
    exact decide_eq_true (h.disjoint ha)
  have hn : ∀ a ∈ added, ¬decide (a ∉ added) = true := by
    intro a ha
    simpa using ha
  have hf := firstMax_filter hr (p := fun a ↦ decide (a ∉ added)) (hp o ho)
  have hrows : (((visible (addMany store added) k).filter (·.dataset = dataset)).filter
      (·.logicalKey = o.logicalKey)).filter (fun a ↦ decide (a ∉ added)) =
        ((visible store k).filter (·.dataset = dataset)).filter (·.logicalKey = o.logicalKey) := by
    have hsplit : (store.toList ++ added).filter (fun a ↦ decide (a ∉ added)) = store.toList := by
      rw [List.filter_append, List.filter_eq_self.mpr hp, List.filter_eq_nil_iff.mpr hn,
        List.append_nil]
    rw [visible, visible, h.toList_addMany]
    conv_rhs => rw [← hsplit]
    simp only [List.filter_filter]
    apply List.filter_congr
    intro a _
    ac_rfl
  rw [hrows] at hf
  exact hf

theorem readable (hr : ∀ o ∈ asOf store k { dataset := some dataset }, Readable priceField o) :
    ∀ o ∈ asOf (addMany store added) k { dataset := some dataset }, Readable priceField o := by
  intro o ho
  have hm := (mem_asOf_dataset ho).1
  rw [h.toList_addMany] at hm
  rcases List.mem_append.mp hm with hm | hm
  · exact hr o (h.mem_asOf_of_mem hm ho)
  · obtain ⟨q, hq⟩ := h.price o hm
    exact readable_of_num hq

theorem exists_record (ho : o ∈ asOf store k { dataset := some dataset })
    (hr : (record? priceField o).isSome) :
    ∃ o' ∈ asOf (addMany store added) k { dataset := some dataset },
      o'.entityId = o.entityId ∧ (record? priceField o').isSome := by
  obtain ⟨hm, hk, hd⟩ := mem_asOf_dataset ho
  have hrow : o ∈ (visible (addMany store added) k).filter (·.dataset = dataset) := by
    rw [visible, h.toList_addMany]
    simp [hm, hk, hd]
  obtain ⟨o', ho', hkey⟩ := List.mem_map.mp (mem_keys_collapse.mpr ⟨o, hrow, rfl⟩)
  have hread : o' ∈ asOf (addMany store added) k { dataset := some dataset } := by
    rwa [asOf, sortObservations, mem_sortBy, if_pos rfl, select_dataset]
  refine ⟨o', hread, congrArg (·.2.2.1) hkey, ?_⟩
  have hm' := (mem_asOf_dataset hread).1
  rw [h.toList_addMany] at hm'
  rcases List.mem_append.mp hm' with hm' | hm'
  · have hold := h.mem_asOf_of_mem hm' hread
    have hnodup : ((asOf store k { dataset := some dataset }).map Observation.logicalKey).Nodup :=
      ((sortBy_perm sortKey _).map _).nodup_iff.mpr (collapse_nodup _)
    rwa [List.inj_on_of_nodup_map hnodup hold ho hkey]
  · obtain ⟨q, hq⟩ := h.price o' hm'
    simp [record?, priceRecord, hq, Except.toOption]

end LaterPrices

theorem restrict_upTo (names : Option (List String)) (full : PriceFrame) (t : Datetime) :
    (restrict names full).upTo t = restrict names (full.upTo t) := by
  cases names with
  | none => rfl
  | some l => exact Frame.upTo_select full l t

theorem SameKnown.restrict (names : Option (List String)) (h : SameKnown panel panel') :
    SameKnown (Backtest.restrict names panel) (Backtest.restrict names panel') := by
  cases names with
  | none => exact h
  | some l => exact h.select_names l

theorem mem_names_restrict {names : Option (List String)} {full : PriceFrame} {symbol : String} :
    symbol ∈ (restrict names full).names ↔ symbol ∈ full.names ∧ ∀ l ∈ names, symbol ∈ l := by
  cases names with
  | none => simp [restrict]
  | some l => simp [restrict, Frame.mem_names_select]

theorem backtestPanel_addMany {names : Option (List String)}
    (h : LaterPrices store dataset priceField horizon added)
    (hp : backtestPanel store dataset priceField names = .ok panel) :
    ∃ panel', backtestPanel (addMany store added) dataset priceField names = .ok panel' ∧
      ∀ t ≤ horizon, SameKnown (panel.upTo t) (panel'.upTo t) ∧
        (panel.upTo t).isEmpty = (panel'.upTo t).isEmpty := by
  unfold backtestPanel at hp ⊢
  cases hrec : priceRecords priceField (store.asOf distantFuture { dataset := some dataset }) with
  | error e => simp [observationsToPriceFrame, hrec, Except.map] at hp
  | ok records =>
    have hread := readable_of_priceRecords hrec
    have hread' := h.readable hread
    have hok : observationsToPriceFrame (store.asOf distantFuture { dataset := some dataset })
        priceField = .ok (Frame.pivot ((store.asOf distantFuture
          { dataset := some dataset }).filterMap (record? priceField))) := by
      rw [observationsToPriceFrame, priceRecords_eq_ok hread]
      rfl
    have hok' : observationsToPriceFrame ((addMany store added).asOf distantFuture
        { dataset := some dataset }) priceField = .ok (Frame.pivot (((addMany store added).asOf
          distantFuture { dataset := some dataset }).filterMap (record? priceField))) := by
      rw [observationsToPriceFrame, priceRecords_eq_ok hread']
      rfl
    have hsame : ∀ t ≤ horizon, SameKnown
        ((Frame.pivot ((store.asOf distantFuture
          { dataset := some dataset }).filterMap (record? priceField))).upTo t)
        ((Frame.pivot (((addMany store added).asOf distantFuture
          { dataset := some dataset }).filterMap (record? priceField))).upTo t) := by
      intro t ht
      obtain ⟨full, cut, hfull, hcut, htrims⟩ := trims_priceFrame hread t
      obtain ⟨full', cut', hfull', hcut', htrims'⟩ := trims_priceFrame hread' t
      rw [hok, Except.ok.injEq] at hfull
      rw [hok', Except.ok.injEq] at hfull'
      rw [h.filter_asOf_eq ht, hcut, Except.ok.injEq] at hcut'
      subst hfull hfull' hcut'
      exact .of_trims htrims htrims'
    rw [hok] at hp
    rw [hok']
    dsimp only at hp ⊢
    set full := Frame.pivot ((store.asOf distantFuture
      { dataset := some dataset }).filterMap (record? priceField)) with hfull
    set full' := Frame.pivot (((addMany store added).asOf distantFuture
      { dataset := some dataset }).filterMap (record? priceField)) with hfull'
    split at hp
    · cases hp
    · next hne =>
      cases hp
      obtain ⟨-, hcols⟩ := Frame.isEmpty_eq_false.mp (by simpa using hne)
      obtain ⟨symbol, hs⟩ := List.exists_mem_of_ne_nil _ hcols
      obtain ⟨hs, hl⟩ := mem_names_restrict.mp hs
      obtain ⟨r, hr, rfl⟩ := Frame.mem_names_pivot.mp hs
      obtain ⟨o, ho, hor⟩ := List.mem_filterMap.mp hr
      obtain ⟨o', ho', hent, hsome⟩ := h.exists_record ho (by rw [hor]; rfl)
      obtain ⟨r', hr'⟩ := Option.isSome_iff_exists.mp hsome
      have hmem' : r' ∈ ((addMany store added).asOf distantFuture
          { dataset := some dataset }).filterMap (record? priceField) :=
        List.mem_filterMap.mpr ⟨o', ho', hr'⟩
      have hs' : r.name ∈ (restrict names full').names := by
        apply mem_names_restrict.mpr
        refine ⟨Frame.mem_names_pivot.mpr ⟨r', hmem', ?_⟩, hl⟩
        rw [(eq_of_record? hr').2, hent, ← (eq_of_record? hor).2]
      have hcols' : (restrict names full').names ≠ [] := List.ne_nil_of_mem hs'
      have hindex' : (restrict names full').index ≠ [] := by
        have ht' : r'.time ∈ full'.index :=
          mem_sortedDistinct.mpr (List.mem_map_of_mem hmem')
        cases names <;> exact List.ne_nil_of_mem ht'
      refine ⟨restrict names full', ?_, fun t ht ↦ ?_⟩
      · rw [Frame.isEmpty_eq_false.mpr ⟨hindex', hcols'⟩]
        rfl
      · have hsk : SameKnown ((restrict names full).upTo t) ((restrict names full').upTo t) := by
          rw [restrict_upTo, restrict_upTo]
          exact (hsame t ht).restrict names
        refine ⟨hsk, ?_⟩
        rw [Frame.isEmpty_upTo hcols, Frame.isEmpty_upTo hcols', hsk.index]

/-- Every bar after the first rebalance is accounted once, with the book of the last rebalance
before it, and what comes after a horizon changes nothing up to it. -/
theorem run_backtest_no_look_ahead (store : InMemoryBitemporalStore) (dataset priceField : String)
    (names : Option (List String)) (schedule : List Datetime) (costModel : Option CostModel)
    (name : String) (f : Datetime → List String → PriceFrame → PriceFrame → Weights)
    (result : BacktestResult) (hrun : runBacktest store (.ofUniverse name f) schedule costModel
      dataset priceField names = .ok result) :
    let strategy := Strategy.ofUniverse name f
    ∃ panel, backtestPanel store dataset priceField names = .ok panel ∧
      (result.grossReturns.map Prod.fst).Pairwise (· < ·) ∧
      (∀ bar, bar ∈ result.grossReturns.map Prod.fst ↔
        bar ∈ panel.index ∧ ∃ t ∈ schedule, t < bar) ∧
      (∀ p ∈ result.grossReturns, ∃ t ∈ schedule, t < p.1 ∧
        (∀ t' ∈ schedule, t' < p.1 → t' ≤ t) ∧
        p.2 = bookReturn (panel.diff pctChange) (decided panel strategy t) p.1) ∧
      ∀ horizon added, LaterPrices store dataset priceField horizon added →
        ∃ panel' result',
          backtestPanel (addMany store added) dataset priceField names = .ok panel' ∧
          runBacktest (addMany store added) strategy schedule costModel dataset priceField names =
            .ok result' ∧
          (∀ t ≤ horizon, decided panel' strategy t = decided panel strategy t) ∧
          result'.turnover.filter (·.1 ≤ horizon) = result.turnover.filter (·.1 ≤ horizon) ∧
          result'.grossReturns.filter (·.1 ≤ horizon) =
            result.grossReturns.filter (·.1 ≤ horizon) := by
  intro strategy
  have hsorted : (sortBy id schedule).Pairwise (· ≤ ·) := sortBy_pairwise id schedule
  have hmem : ∀ t, t ∈ sortBy id schedule ↔ t ∈ schedule := fun t ↦ mem_sortBy
  unfold runBacktest at hrun ⊢
  cases hsch : sortBy id schedule with
  | nil => simp [hsch] at hrun
  | cons first rest =>
    rw [hsch] at hrun hsorted hmem
    dsimp only at hrun ⊢
    cases hpanel : backtestPanel store dataset priceField names with
    | error e => simp [hpanel] at hrun
    | ok panel =>
      rw [hpanel] at hrun
      dsimp only at hrun
      cases hrun
      have hgross := fun p bar ↦ gross_active p strategy
        (costModel.getD ({} : BasicCostModel).model) bar hsorted
      have hfst : ∀ (g : Datetime → ℚ) (l : List Datetime),
          (l.map (fun bar ↦ (bar, g bar))).map Prod.fst = l := by
        intro g l
        rw [List.map_map]
        exact List.map_id l
      refine ⟨panel, rfl, ?_, fun bar ↦ ?_, ?_, fun horizon added h ↦ ?_⟩
      · rw [hfst]
        exact panel.sorted.filter _
      · rw [hfst, List.mem_filter, decide_eq_true_eq, first_lt_iff hsorted]
        simp only [hmem]
      · intro p hp
        obtain ⟨bar, hb, rfl⟩ := List.mem_map.mp hp
        obtain ⟨t, ht, hg⟩ := hgross panel bar hb
        obtain ⟨htm, hlt, hmax⟩ := lastBefore_eq_some hsorted ht
        exact ⟨t, (hmem t).mp htm, hlt, fun t' ht' ↦ hmax t' ((hmem t').mpr ht'), hg⟩
      · obtain ⟨panel', hpanel', hsame⟩ := backtestPanel_addMany h hpanel
        have hdec : ∀ t ≤ horizon, decided panel' strategy t = decided panel strategy t := by
          intro t ht
          obtain ⟨hsk, he⟩ := hsame t ht
          exact (hsk.decided name f he).symm
        have hidx : ∀ p : PriceFrame, (p.index.filter (first < ·)).filter (· ≤ horizon) =
            ((p.upTo horizon).index).filter (first < ·) := by
          intro p
          simp only [Frame.upTo, List.filter_filter, Bool.and_comm]
        refine ⟨panel', _, hpanel', by rw [hpanel'], hdec, ?_, ?_⟩
        · dsimp only
          rw [filter_sortBy, filter_sortBy]
          congr 1
          apply turnover_rebalanceAll hsorted
          · exact fun t _ ht ↦ hdec t ht
          · exact .inl rfl
          · rfl
        · dsimp only
          rw [List.filter_map, List.filter_map]
          have hcomp : ∀ g : Datetime → ℚ,
              ((fun p : Datetime × ℚ ↦ decide (p.1 ≤ horizon)) ∘ fun bar ↦ (bar, g bar)) =
                fun bar ↦ decide (bar ≤ horizon) := fun _ ↦ rfl
          rw [hcomp, hcomp, hidx, hidx, ← (hsame horizon le_rfl).1.index]
          apply List.map_congr_left
          intro bar hb
          rw [← hidx] at hb
          obtain ⟨hb, hle⟩ := List.mem_filter.mp hb
          have hle := of_decide_eq_true hle
          have hb' : bar ∈ panel'.index.filter (first < ·) := by
            have hi := (hsame horizon le_rfl).1.index
            have hm : bar ∈ (panel.upTo horizon).index :=
              List.mem_filter.mpr ⟨List.mem_of_mem_filter hb, by simpa using hle⟩
            rw [hi] at hm
            exact List.mem_filter.mpr ⟨List.mem_of_mem_filter hm, (List.mem_filter.mp hb).2⟩
          obtain ⟨t, ht, hg⟩ := hgross panel bar hb
          obtain ⟨t', ht', hg'⟩ := hgross panel' bar hb'
          rw [ht, Option.some_inj] at ht'
          subst ht'
          obtain ⟨-, hlt, -⟩ := lastBefore_eq_some hsorted ht
          rw [hg, hg', hdec t (hlt.le.trans hle),
            (hsame horizon le_rfl).1.bookReturn (decided panel strategy t) hle]

/-- Two bars of one symbol, held from the first on. -/
theorem run_backtest_no_look_ahead_two_bars :
    let bar (t : Datetime) (close : ℚ) (id : UUID) : Observation :=
      { source := "p", dataset := "d", entityType := "equity", entityId := "A", eventTime := t
        knowledgeTime := t, value := .ofList [("close", .num close)], observationId := id }
    let store : InMemoryBitemporalStore := .ofList [bar 0 10 1, bar 1 11 2]
    ∃ result, runBacktest store equalWeightStrategy [0] none "d" "close" none = .ok result ∧
      (result.grossReturns.map Prod.fst).Pairwise (· < ·) := by
  intro bar store
  cases hrun : runBacktest store equalWeightStrategy [0] none "d" "close" none with
  | error e =>
    have hok : (runBacktest store equalWeightStrategy [0] none "d" "close" none).isOk = true := by
      decide +kernel
    rw [hrun] at hok
    cases hok
  | ok result =>
    obtain ⟨_, -, hsorted, -⟩ := run_backtest_no_look_ahead store "d" "close" none [0] none
      "equal_weight" _ result hrun
    exact ⟨result, rfl, hsorted⟩

end MarketTrader.Backtest
