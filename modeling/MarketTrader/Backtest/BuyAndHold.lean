import MarketTrader.Backtest.Engine
import MarketTrader.Backtest.Metrics

namespace MarketTrader.Backtest

open Library MarketTrader.Core Storage InMemoryBitemporalStore Portfolio

/-- Daily returns over the full history, for accounting only. -/
def realizedReturns (store : InMemoryBitemporalStore) (dataset priceField : String) :
    Except BacktestError PriceFrame :=
  match observationsToPriceFrame (store.asOf distantFuture { dataset := some dataset })
    priceField with
  | .error e => .error (.price e)
  | .ok panel => if panel.isEmpty then .ok panel else .ok (panel.diff pctChange)

def fillna (col : Column ℚ) : List ℚ := col.map (·.getD 0)

def equityPerSymbol (returns : PriceFrame) : List (List ℚ) :=
  returns.columns.toList.map (fun c ↦ equityFrom 1 (fillna c.2))

/-- The mean over the symbols, a row an entry. -/
def portfolio (returns : PriceFrame) : List ℚ :=
  (List.range returns.index.length).map (fun i ↦
    ((equityPerSymbol returns).map (·.getD i 0)).sum / (equityPerSymbol returns).length)

def buyAndHoldDaily (store : InMemoryBitemporalStore) (dataset priceField : String)
    (startAfter : Option Datetime) (names : Option (List String)) :
    Except BacktestError (List (Datetime × ℚ)) :=
  match realizedReturns store dataset priceField with
  | .error e => .error e
  | .ok returns =>
    let returns := restrict names returns
    if returns.isEmpty then .error .noPriceData
    else
      let returns :=
        match startAfter with
        | none => returns
        | some t => returns.after t
      .ok (returns.index.zip (fillna (Column.diff pctChange ((portfolio returns).map some))))

/-- Equal-initial-weight buy-and-hold of the whole universe. -/
def buyAndHoldSummary (P : Powers ℚ) (periodsPerYear : ℕ) (store : InMemoryBitemporalStore)
    (dataset priceField : String) (startAfter : Option Datetime) (names : Option (List String)) :
    Except BacktestError (PerformanceSummary ℚ) :=
  (buyAndHoldDaily store dataset priceField startAfter names).map
    (fun daily ↦ summarize P periodsPerYear 0 (daily.map (fun d ↦ some d.2)) (some []))

/-- Every symbol has a price on every bar. -/
def Priced (panel : PriceFrame) : Prop :=
  ∀ c ∈ panel.columns.toList, ∀ x ∈ c.2, x.any (0 < ·)

instance (panel : PriceFrame) : Decidable (Priced panel) :=
  inferInstanceAs (Decidable (∀ c ∈ panel.columns.toList, ∀ x ∈ c.2, x.any (0 < ·)))

/-- What a unit spread equally over the symbols at one bar is worth at another. -/
def heldWealth (panel : PriceFrame) (base bar : Datetime) : ℚ :=
  (panel.columns.toList.map (fun c ↦ (Frame.cellAt panel.index c.2 bar).getD 0 /
    (Frame.cellAt panel.index c.2 base).getD 0)).sum / panel.columns.toList.length

/-! ### Compounding -/

section Compounding

variable {p b acc : ℚ} {qs rs : List ℚ}

/-- Compounding the changes of a price gives the price again, in units of the first one. -/
theorem equityFrom_changes (hp : 0 < p) (hq : ∀ q ∈ qs, 0 < q) :
    equityFrom (p / b) (fillna (Column.diffFrom pctChange (some p) (qs.map some))) =
      qs.map (· / b) := by
  induction qs generalizing p with
  | nil => rfl
  | cons q qs ih =>
    rw [List.forall_mem_cons] at hq
    have hstep : p / b * (1 + (q / p - 1)) = q / b := by
      field_simp
      ring
    have hchange : pctChange p q = some (q / p - 1) := if_neg hp.ne'
    simp only [List.map_cons, Column.diffFrom, Option.bind_eq_bind, Option.bind_some, hchange,
      fillna, Option.getD_some, equityFrom, hstep]
    exact congrArg (q / b :: ·) (ih hq.1 hq.2)

theorem prod_eq_getLast (acc : ℚ) (rs : List ℚ) :
    acc * (rs.map (1 + ·)).prod = (equityFrom acc rs).getLast?.getD acc := by
  induction rs generalizing acc with
  | nil => simp [equityFrom]
  | cons r rs ih =>
    rw [List.map_cons, List.prod_cons, ← mul_assoc, ih, equityFrom, List.getLast?_cons]
    rfl

end Compounding

/-! ### The portfolio -/

section Portfolio

variable {panel : PriceFrame} {t base bar : Datetime} {c : String × Column ℚ}

theorem Priced.prices (h : Priced panel) (hc : c ∈ panel.columns.toList) :
    ∃ ps : List ℚ, c.2 = ps.map some ∧ ∀ p ∈ ps, 0 < p := by
  have hall := h c hc
  generalize c.2 = col at hall
  induction col with
  | nil => exact ⟨[], rfl, by simp⟩
  | cons x col ih =>
    rw [List.forall_mem_cons] at hall
    obtain ⟨ps, rfl, hps⟩ := ih hall.2
    cases x with
    | none => exact absurd hall.1 (by simp)
    | some p => exact ⟨p :: ps, rfl, List.forall_mem_cons.mpr ⟨by simpa using hall.1, hps⟩⟩

theorem Priced.cell (h : Priced panel) (hc : c ∈ panel.columns.toList)
    (hb : bar ∈ panel.index) : 0 < (Frame.cellAt panel.index c.2 bar).getD 0 := by
  obtain ⟨ps, hcol, hps⟩ := h.prices hc
  obtain ⟨i, hi⟩ := List.getElem?_of_mem hb
  have hlt : i < ps.length := by
    rw [← List.length_map (f := some), ← hcol, panel.aligned c hc]
    exact (List.getElem?_eq_some_iff.mp hi).1
  rw [Frame.cellAt_eq_getElem? panel.sorted (panel.aligned c hc) hi, hcol, List.getElem?_map,
    List.getElem?_eq_getElem hlt]
  exact hps _ (List.getElem_mem hlt)

theorem heldWealth_pos (h : Priced panel) (hn : panel.columns.toList ≠ [])
    (hbase : base ∈ panel.index) (hb : bar ∈ panel.index) : 0 < heldWealth panel base bar := by
  apply div_pos
  · apply List.sum_pos
    · intro x hx
      obtain ⟨c, hc, rfl⟩ := List.mem_map.mp hx
      exact div_pos (h.cell hc hb) (h.cell hc hbase)
    · exact mt List.map_eq_nil_iff.mp hn
  · exact_mod_cast List.length_pos_iff.mpr hn

theorem heldWealth_self (h : Priced panel) (hn : panel.columns.toList ≠ [])
    (hb : bar ∈ panel.index) : heldWealth panel bar bar = 1 := by
  have hone : panel.columns.toList.map (fun c ↦ (Frame.cellAt panel.index c.2 bar).getD 0 /
      (Frame.cellAt panel.index c.2 bar).getD 0) = panel.columns.toList.map (fun _ ↦ 1) := by
    apply List.map_congr_left
    intro c hc
    exact div_self (h.cell hc hb).ne'
  have hlen : (panel.columns.toList.length : ℚ) ≠ 0 := by
    exact_mod_cast (List.length_pos_iff.mpr hn).ne'
  rw [heldWealth, hone, List.map_const', List.sum_replicate, nsmul_eq_mul, mul_one,
    div_self hlen]

/-- The equity that the baseline builds for a symbol: its price in units of the price at the
base. -/
theorem equity_after (h : Priced panel) (hc : c ∈ panel.columns.toList)
    (hbase : (panel.index.filter (· ≤ t)).getLast? = some base) :
    equityFrom 1 (fillna ((Column.diff pctChange c.2).drop (panel.index.filter (· ≤ t)).length)) =
      (panel.index.filter (t < ·)).map (fun bar ↦
        (Frame.cellAt panel.index c.2 bar).getD 0 /
          (Frame.cellAt panel.index c.2 base).getD 0) := by
  obtain ⟨ps, hcol, hps⟩ := h.prices hc
  have hlen : ps.length = panel.index.length := by
    rw [← panel.aligned c hc, hcol, List.length_map]
  rw [filter_lt_eq_drop panel.sorted]
  rw [List.getLast?_eq_getElem?, filter_le_eq_take panel.sorted] at hbase
  set k := (panel.index.filter (· ≤ t)).length with hk
  have hkl : k ≤ panel.index.length := List.length_filter_le _ _
  rw [List.length_take, Nat.min_eq_left hkl] at hbase
  have hk0 : k ≠ 0 := by
    intro hk0
    simp [hk0] at hbase
  rw [List.getElem?_take_of_lt (by omega)] at hbase
  have hprev : k - 1 < ps.length := by omega
  have hcell : ∀ {i : ℕ} {bar : Datetime}, panel.index[i]? = some bar →
      Frame.cellAt panel.index c.2 bar = ps[i]? := by
    intro i bar hi
    rw [Frame.cellAt_eq_getElem? panel.sorted (panel.aligned c hc) hi, hcol, List.getElem?_map]
    cases ps[i]? <;> rfl
  have hb := hps _ (List.getElem_mem hprev)
  rw [hcell hbase, hcol, Column.diff, Column.drop_diffFrom, if_neg hk0, List.getElem?_map,
    List.getElem?_eq_getElem hprev, Option.map_some, Option.join_some, ← List.map_drop,
    Option.getD_some, ← div_self hb.ne',
    equityFrom_changes hb (fun q hq ↦ hps q (List.mem_of_mem_drop hq))]
  rw [hcol] at hcell
  apply List.ext_getElem?
  intro i
  rw [List.getElem?_map, List.getElem?_map, List.getElem?_drop, List.getElem?_drop]
  cases hbar : panel.index[k + i]? with
  | none =>
    rw [List.getElem?_eq_none_iff, ← hlen] at hbar
    rw [List.getElem?_eq_none hbar]
    rfl
  | some bar =>
    have hi : k + i < ps.length := hlen ▸ (List.getElem?_eq_some_iff.mp hbar).1
    rw [Option.map_some, hcell hbar, List.getElem?_eq_getElem hi]
    rfl

theorem portfolio_after (h : Priced panel)
    (hbase : (panel.index.filter (· ≤ t)).getLast? = some base) :
    portfolio ((panel.diff pctChange).after t) =
      (panel.index.filter (t < ·)).map (heldWealth panel base) := by
  have heq : equityPerSymbol ((panel.diff pctChange).after t) =
      panel.columns.toList.map (fun c ↦ (panel.index.filter (t < ·)).map (fun bar ↦
        (Frame.cellAt panel.index c.2 bar).getD 0 /
          (Frame.cellAt panel.index c.2 base).getD 0)) := by
    simp only [equityPerSymbol, Frame.after, Frame.diff, Dict.mapVals, List.map_map]
    apply List.map_congr_left
    intro c hc
    exact equity_after h hc hbase
  rw [portfolio, heq]
  apply List.ext_getElem
  · simp [Frame.after, Frame.diff]
  · intro i hi hi'
    rw [List.length_map] at hi'
    simp only [List.getElem_map, List.getElem_range, List.map_map, List.length_map, heldWealth]
    congr 2
    apply List.map_congr_left
    intro c _
    simp [hi']

end Portfolio

/-! ### The daily series -/

variable {panel : PriceFrame} {t base : Datetime} {store : InMemoryBitemporalStore}
  {dataset priceField : String} {names : Option (List String)}

theorem backtestPanel_nonempty (hp : backtestPanel store dataset priceField names = .ok panel) :
    panel.isEmpty = false := by
  unfold backtestPanel at hp
  split at hp
  · cases hp
  · dsimp only at hp
    split at hp
    · cases hp
    · next h =>
      cases hp
      simpa using h

theorem restrict_diff (names : Option (List String)) (full : PriceFrame) :
    restrict names (full.diff pctChange) = (restrict names full).diff pctChange := by
  cases names with
  | none => rfl
  | some names => exact (Frame.diff_select pctChange full names).symm

theorem isEmpty_diff (panel : PriceFrame) : (panel.diff pctChange).isEmpty = panel.isEmpty := by
  simp [Frame.isEmpty, Frame.diff, Dict.mapVals]

theorem isEmpty_restrict {full : PriceFrame} (h : full.isEmpty) :
    (restrict names full).isEmpty := by
  cases names with
  | none => exact h
  | some names =>
    simp only [Frame.isEmpty, Bool.or_eq_true, List.isEmpty_iff] at h ⊢
    apply h.imp id
    intro hc
    simp [restrict, Frame.select, hc]

/-- The baseline reads the panel that the backtest reads. -/
theorem buyAndHoldDaily_eq (hp : backtestPanel store dataset priceField names = .ok panel) :
    buyAndHoldDaily store dataset priceField (some t) names =
      .ok ((panel.index.filter (t < ·)).zip (fillna (Column.diff pctChange
        ((portfolio ((panel.diff pctChange).after t)).map some)))) := by
  have hne := backtestPanel_nonempty hp
  unfold backtestPanel at hp
  unfold buyAndHoldDaily realizedReturns
  split at hp
  · cases hp
  · next full hfull =>
    dsimp only at hp
    split at hp
    · cases hp
    · cases hp
      have hfe : full.isEmpty = false := by
        rw [Bool.eq_false_iff]
        intro h
        rw [isEmpty_restrict h] at hne
        cases hne
      simp only [hfull, hfe, Bool.false_eq_true, if_false, restrict_diff, isEmpty_diff, hne]
      rfl

/-- The first bar counts as flat; the later ones compound to the wealth since that bar. -/
theorem prod_daily {w : ℚ} {ws : List ℚ} (hw : 0 < w) (hws : ∀ x ∈ ws, 0 < x) :
    ((fillna (Column.diff pctChange ((w :: ws).map some))).map (1 + ·)).prod =
      ((w :: ws).getLast?.getD w) / w := by
  have hchanges := equityFrom_changes (b := w) hw hws
  rw [div_self hw.ne'] at hchanges
  have hfirst : fillna (Column.diff pctChange ((w :: ws).map some)) =
      0 :: fillna (Column.diffFrom pctChange (some w) (ws.map some)) := rfl
  rw [hfirst, List.map_cons, List.prod_cons, add_zero, prod_eq_getLast, hchanges,
    List.getLast?_map, List.getLast?_cons, Option.getD_some]
  cases ws.getLast? with
  | none => exact (div_self hw.ne').symm
  | some x => rfl

theorem runBacktest_bars (hp : backtestPanel store dataset priceField names = .ok panel)
    (strategy : Strategy) {schedule : List Datetime} (costModel : Option CostModel)
    (hs : (sortBy id schedule).head? = some t) :
    ∃ result, runBacktest store strategy schedule costModel dataset priceField names =
      .ok result ∧ result.netReturns.map Prod.fst = panel.index.filter (t < ·) := by
  obtain ⟨rest, hrest⟩ := List.head?_eq_some_iff.mp hs
  refine ⟨_, by rw [runBacktest, hrest, hp], ?_⟩
  exact List.map_map.trans (List.map_id _)

/-- The baseline compounds to the wealth of the portfolio bought at the base exactly when that
portfolio is flat on the first bar. -/
theorem buy_and_hold_iff (hp : backtestPanel store dataset priceField names = .ok panel)
    (h : Priced panel) (hbase : (panel.index.filter (· ≤ t)).getLast? = some base) :
    (∃ daily, buyAndHoldDaily store dataset priceField (some t) names = .ok daily ∧
      daily.map Prod.fst = panel.index.filter (t < ·) ∧
      (daily.map (fun d ↦ 1 + d.2)).prod =
        heldWealth panel base (panel.index.getLast?.getD base) ∧
      ∀ strategy schedule costModel, (sortBy id schedule).head? = some t →
        ∃ result, runBacktest store strategy schedule costModel dataset priceField names =
          .ok result ∧ result.netReturns.map Prod.fst = daily.map Prod.fst) ↔
    ∀ bar ∈ (panel.index.filter (t < ·)).head?, heldWealth panel base bar = 1 := by
  have hn : panel.columns.toList ≠ [] := by
    have hne := (Frame.isEmpty_eq_false.mp (backtestPanel_nonempty hp)).2
    simpa [Frame.names, Keyed.keys] using hne
  have hbm : base ∈ panel.index := List.mem_of_mem_filter (List.mem_of_getLast? hbase)
  have hsplit : panel.index = panel.index.filter (· ≤ t) ++ panel.index.filter (t < ·) := by
    conv_lhs => rw [← List.take_append_drop (panel.index.filter (· ≤ t)).length panel.index]
    rw [filter_lt_eq_drop panel.sorted, ← filter_le_eq_take panel.sorted]
  have hlast : panel.index.getLast?.getD base =
      (panel.index.filter (t < ·)).getLast?.getD base := by
    conv_lhs => rw [hsplit, List.getLast?_append, hbase]
    cases (panel.index.filter (t < ·)).getLast? <;> rfl
  set returns := fillna (Column.diff pctChange
    (((panel.index.filter (t < ·)).map (heldWealth panel base)).map some)) with hret
  have hlen : (panel.index.filter (t < ·)).length = returns.length := by
    simp [hret, fillna]
  have hdaily := buyAndHoldDaily_eq (t := t) hp
  rw [portfolio_after h hbase, ← hret] at hdaily
  have hfst : ((panel.index.filter (t < ·)).zip returns).map Prod.fst =
      panel.index.filter (t < ·) := List.map_fst_zip hlen.le
  have hprod : ((panel.index.filter (t < ·)).zip returns).map (fun d ↦ 1 + d.2) =
      returns.map (1 + ·) := by
    conv_rhs => rw [← List.map_snd_zip hlen.ge, List.map_map]
    rfl
  have hwealth : (returns.map (1 + ·)).prod =
      heldWealth panel base (panel.index.getLast?.getD base) ↔
        ∀ bar ∈ (panel.index.filter (t < ·)).head?, heldWealth panel base bar = 1 := by
    rw [hlast, hret]
    have hmem : ∀ bar ∈ panel.index.filter (t < ·), 0 < heldWealth panel base bar := by
      intro bar hb
      exact heldWealth_pos h hn hbm (List.mem_of_mem_filter hb)
    generalize panel.index.filter (t < ·) = active at hmem ⊢
    cases active with
    | nil => simp [fillna, Column.diff, Column.diffFrom, heldWealth_self h hn hbm]
    | cons bar rest =>
      rw [List.forall_mem_cons] at hmem
      have hrest : ∀ x ∈ rest.map (heldWealth panel base), 0 < x := by
        intro x hx
        obtain ⟨b, hb, rfl⟩ := List.mem_map.mp hx
        exact hmem.2 b hb
      have hend : 0 < heldWealth panel base ((bar :: rest).getLast?.getD base) := by
        rw [List.getLast?_cons, Option.getD_some]
        cases hr : rest.getLast? with
        | none => exact hmem.1
        | some b => exact hmem.2 b (List.mem_of_getLast? hr)
      have hgoal : ((bar :: rest).map (heldWealth panel base)).getLast?.getD
          (heldWealth panel base bar) = heldWealth panel base ((bar :: rest).getLast?.getD base) := by
        rw [List.getLast?_map, List.getLast?_cons]
        rfl
      rw [List.map_cons, prod_daily hmem.1 hrest, ← List.map_cons, hgoal]
      simp only [List.head?_cons, Option.mem_some_iff, forall_eq']
      rw [div_eq_iff hmem.1.ne']
      exact left_eq_mul₀ hend.ne'
  rw [← hwealth]
  constructor
  · rintro ⟨daily, hd, -, hp', -⟩
    rw [hdaily] at hd
    cases hd
    rw [← hprod]
    exact hp'
  · intro hp'
    refine ⟨_, hdaily, hfst, hprod ▸ hp', ?_⟩
    intro strategy schedule costModel hs
    obtain ⟨result, hr, hbars⟩ := runBacktest_bars hp strategy costModel hs
    exact ⟨result, hr, hbars.trans hfst.symm⟩

def closeAt (t : Datetime) (close : ℚ) (id : UUID) : Observation where
  source := "p"
  dataset := "d"
  entityType := "equity"
  entityId := "A"
  eventTime := t
  knowledgeTime := t
  value := .ofList [("close", .num close)]
  observationId := id

def flatStart : InMemoryBitemporalStore :=
  .ofList [closeAt 0 10 1, closeAt 1 10 2, closeAt 2 12 3]

def flatPanel : PriceFrame := .pivot [⟨0, "A", 10⟩, ⟨1, "A", 10⟩, ⟨2, "A", 12⟩]

theorem buy_and_hold_flat_start :
    ∃ daily, buyAndHoldDaily flatStart "d" "close" (some 0) none = .ok daily ∧
      daily.map Prod.fst = flatPanel.index.filter (0 < ·) ∧
      (daily.map (fun d ↦ 1 + d.2)).prod =
        heldWealth flatPanel 0 (flatPanel.index.getLast?.getD 0) ∧
      ∀ strategy schedule costModel, (sortBy id schedule).head? = some 0 →
        ∃ result, runBacktest flatStart strategy schedule costModel "d" "close" none =
          .ok result ∧ result.netReturns.map Prod.fst = daily.map Prod.fst := by
  have hp : backtestPanel flatStart "d" "close" none = .ok flatPanel := by rfl
  have hbase : (flatPanel.index.filter (· ≤ 0)).getLast? = some 0 := by decide +kernel
  apply (buy_and_hold_iff hp (by decide +kernel) hbase).mpr
  decide +kernel

def risingStart : InMemoryBitemporalStore := .ofList [closeAt 0 10 1, closeAt 1 11 2]

def risingPanel : PriceFrame := .pivot [⟨0, "A", 10⟩, ⟨1, "A", 11⟩]

theorem buy_and_hold_first_bar_lost :
    backtestPanel risingStart "d" "close" none = .ok risingPanel ∧ Priced risingPanel ∧
      ¬∃ daily, buyAndHoldDaily risingStart "d" "close" (some 0) none = .ok daily ∧
        (daily.map (fun d ↦ 1 + d.2)).prod =
          heldWealth risingPanel 0 (risingPanel.index.getLast?.getD 0) := by
  refine ⟨rfl, by decide +kernel, ?_⟩
  rintro ⟨daily, hd, hprod⟩
  have hdaily : buyAndHoldDaily risingStart "d" "close" (some 0) none = .ok [(1, 0)] := by rfl
  rw [hdaily] at hd
  cases hd
  revert hprod
  decide +kernel

end MarketTrader.Backtest
