import MarketTrader.Runtime.Scoring

namespace MarketTrader.Runtime

open Library MarketTrader.Core Storage InMemoryBitemporalStore Feedback Backtest Features Forecasting

/-- The symbol is priced on the bars from one to another, and on no other. -/
def OneRun (col : Column ℚ) : Prop := ∃ i n : ℕ, ∀ j : ℕ, col[j]?.join.isSome ↔ i ≤ j ∧ j < n

/-- A panel of prices, of which each symbol has one run. -/
structure Runs (panel : PriceFrame) : Prop where
  oneRun : ∀ c ∈ panel.columns.toList, OneRun c.2
  positive : ∀ c ∈ panel.columns.toList, ∀ q, some q ∈ c.2 → 0 < q

/-- The close on the last bar at or before `t`, none if there is no such bar, and the later closes
of the symbol. -/
def closesFrom (panel : PriceFrame) (symbol : String) (t : Datetime) : Column ℚ :=
  let pos := (panel.index.filter (· ≤ t)).length
  match Dict.get? panel.columns symbol with
  | none => []
  | some col => (if pos = 0 then none else col[pos - 1]?.join) :: col.drop pos

/-- The last price before the first missing one. -/
def held : ℚ → Column ℚ → ℚ
  | b, [] | b, none :: _ => b
  | _, some x :: xs => held x xs

def gradedReturn (prev : Option ℚ) (col : Column ℚ) : ℚ :=
  ((Column.diffFrom pctChange prev col).map (fun r ↦ 1 + r.getD 0)).prod - 1

/-- Missing changes count for nothing, so what is left of the product is the last price over the
first. -/
theorem prod_changes {b : ℚ} {xs : Column ℚ} (hb : 0 < b) (hpos : ∀ q, some q ∈ xs → 0 < q)
    (hrun : ∀ i j : ℕ, i ≤ j → xs[j]?.join.isSome → xs[i]?.join.isSome) :
    ((Column.diffFrom pctChange (some b) xs).map (fun r ↦ 1 + r.getD 0)).prod = held b xs / b := by
  induction xs generalizing b with
  | nil => simp [Column.diffFrom, held, hb.ne']
  | cons x xs ih =>
    cases x with
    | none =>
      have hnone : ∀ x ∈ xs, x = none := by
        intro x hx
        obtain ⟨j, hj⟩ := List.mem_iff_getElem?.mp hx
        rw [← Option.not_isSome_iff_eq_none]
        intro hs
        have := hrun 0 (j + 1) (Nat.zero_le _) (by simpa [hj] using hs)
        cases this
      have hall : ∀ y ∈ Column.diffFrom pctChange none xs, y = none :=
        Column.diff_eq_none pctChange xs hnone
      have hone : ((Column.diffFrom pctChange none xs).map (fun r ↦ 1 + r.getD 0)).prod = 1 := by
        apply List.prod_eq_one
        intro q hq
        obtain ⟨y, hy, rfl⟩ := List.mem_map.mp hq
        rw [hall y hy]
        norm_num
      rw [Column.diffFrom, List.map_cons, List.prod_cons, hone, held]
      simp [hb.ne']
    | some x =>
      have hx : 0 < x := hpos x List.mem_cons_self
      have ih := ih hx (fun q hq ↦ hpos q (List.mem_cons_of_mem _ hq))
        (fun i j hij hj ↦ hrun (i + 1) (j + 1) (Nat.succ_le_succ hij) hj)
      have hchange : (do pctChange (← some b) (← some x)) = some (x / b - 1) := if_neg hb.ne'
      rw [Column.diffFrom, List.map_cons, List.prod_cons, ih, hchange, held, Option.getD_some]
      field_simp
      ring

/-! ### What is graded -/

variable {panel : PriceFrame} {horizon : ℤ} {preds : List PredictionRecord} {p : PredictionRecord}
  {t : Datetime} {symbol : String} {r : ℚ}

theorem mem_byTime {preds group : List PredictionRecord} :
    (t, group) ∈ (byTime preds).toList ↔ group = preds.filter (·.asOf = t) ∧ group ≠ [] := by
  rw [← Dict.get?_eq_some, byTime, Dict.get?_group PredictionRecord.asOf]
  split
  · next h => simp [h]
  · next h =>
    rw [Option.some.injEq, eq_comm]
    exact ⟨fun hg ↦ ⟨hg, hg ▸ h⟩, And.left⟩

theorem iloc_diff {col : Column ℚ} {pos : ℕ} (hp : pos ≤ col.length) (hh : 0 ≤ horizon) :
    iloc (Column.diff pctChange col) pos (pos + horizon) =
      Column.diffFrom pctChange (if pos = 0 then none else col[pos - 1]?.join)
        ((col.drop pos).take horizon.toNat) := by
  rw [iloc_add _ (by rwa [Column.length_diff]) hh, Column.diff, Column.drop_diffFrom,
    Column.take_diffFrom]

/-- The forward return of a symbol, from its closes. -/
theorem find?_forwardReturnsAt (panel : PriceFrame) (t : Datetime) (symbol : String)
    (hh : 1 ≤ horizon) :
    ((forwardReturnsAt panel t horizon).find? (·.1 = symbol)).map Prod.snd =
      if horizon ≤ barsAfter panel.index t then
        match closesFrom panel symbol t with
        | [] => none
        | base :: after => some (gradedReturn base (after.take horizon.toNat))
      else none := by
  by_cases hb : horizon ≤ barsAfter panel.index t
  · have hlen : (labelBars panel.index t horizon).length =
        min horizon.toNat (barsAfter panel.index t) := length_labelBars panel.sorted t (by omega)
    have hne : labelBars (panel.diff pctChange).index t horizon ≠ [] := by
      intro hnil
      change labelBars panel.index t horizon = [] at hnil
      rw [hnil, List.length_nil] at hlen
      omega
    let pos := (panel.index.filter (· ≤ t)).length
    let F : Column ℚ → ℚ := fun col ↦
      ((iloc col pos (pos + horizon)).map (fun r ↦ 1 + r.getD 0)).prod - 1
    have hfind := Dict.find?_map_toList (panel.diff pctChange).columns F symbol
    rw [if_pos hb, forwardReturnsAt_eq panel t hh, if_pos (by omega), forwardReturn, if_neg hne]
    refine (congrArg (Option.map Prod.snd) hfind).trans ?_
    rw [Frame.diff, Dict.get?_mapVals, closesFrom]
    cases hcol : Dict.get? panel.columns symbol with
    | none => rfl
    | some col =>
      have hl : col.length = panel.index.length := panel.aligned _ (Dict.get?_eq_some.mp hcol)
      have hpos : pos ≤ col.length := by
        rw [hl]
        exact List.length_filter_le _ _
      simp only [Option.map_some, F, iloc_diff hpos (by omega : 0 ≤ horizon)]
      rfl
  · rw [if_neg hb, forwardReturnsAt_eq panel t hh, if_neg (by omega)]
    rfl

theorem mem_gradedPairs (hh : 1 ≤ horizon) : (p, r) ∈ gradedPairs panel horizon preds ↔
    p ∈ preds ∧ horizon ≤ barsAfter panel.index p.asOf ∧ ∃ base after,
      closesFrom panel p.symbol p.asOf = base :: after ∧
        r = gradedReturn base (after.take horizon.toNat) := by
  have hfind : ((if panel.isEmpty then [] else forwardReturnsAt panel p.asOf horizon).find?
      (·.1 = p.symbol)).map Prod.snd = some r ↔ horizon ≤ barsAfter panel.index p.asOf ∧
        ∃ base after, closesFrom panel p.symbol p.asOf = base :: after ∧
          r = gradedReturn base (after.take horizon.toNat) := by
    have hclosed : panel.isEmpty → ¬(horizon ≤ barsAfter panel.index p.asOf ∧
        ∃ base after, closesFrom panel p.symbol p.asOf = base :: after ∧
          r = gradedReturn base (after.take horizon.toNat)) := by
      rintro he ⟨hb, base, after, hc, -⟩
      rw [Frame.isEmpty, Bool.or_eq_true, List.isEmpty_iff, List.isEmpty_iff] at he
      rcases he with he | he
      · have hnone : barsAfter panel.index p.asOf = 0 := by
          rw [he]
          rfl
        omega
      · have hnone : Dict.get? panel.columns p.symbol = none := by
          rw [Dict.get?_eq_none, Keyed.keys, he]
          exact List.not_mem_nil
        rw [closesFrom, hnone] at hc
        cases hc
    by_cases he : panel.isEmpty
    · rw [if_pos he]
      exact iff_of_false (fun h ↦ by cases h) (hclosed he)
    · rw [if_neg he, find?_forwardReturnsAt panel p.asOf p.symbol hh]
      by_cases hb : horizon ≤ barsAfter panel.index p.asOf
      · rw [if_pos hb, and_iff_right hb]
        cases closesFrom panel p.symbol p.asOf with
        | nil => simp
        | cons base after => simp [eq_comm]
      · rw [if_neg hb]
        simp [hb]
  rw [← hfind, gradedPairs, List.mem_flatMap]
  constructor
  · rintro ⟨⟨t, group⟩, hg, hm⟩
    obtain ⟨rfl, -⟩ := mem_byTime.mp hg
    obtain ⟨p', hp', hr⟩ := List.mem_filterMap.mp hm
    obtain ⟨x, hx, he⟩ := Option.map_eq_some_iff.mp hr
    cases he
    obtain ⟨hm', ht⟩ := List.mem_filter.mp hp'
    obtain rfl := of_decide_eq_true ht
    exact ⟨hm', by rw [hx]; rfl⟩
  · rintro ⟨hm, hr⟩
    obtain ⟨x, hx, rfl⟩ := Option.map_eq_some_iff.mp hr
    have hp : p ∈ preds.filter (·.asOf = p.asOf) := List.mem_filter.mpr ⟨hm, decide_eq_true rfl⟩
    refine ⟨(p.asOf, _), mem_byTime.mpr ⟨rfl, List.ne_nil_of_mem hp⟩, ?_⟩
    exact List.mem_filterMap.mpr ⟨p, hp, by rw [hx]; rfl⟩

/-! ### What should be graded -/

/-- The prediction has run its own horizon: its symbol is priced at `base` on the last bar at or
before it was made, and at `rest` on the bars of the horizon. -/
structure Matured (panel : PriceFrame) (p : PredictionRecord) (base : ℚ) (rest : List ℚ) :
    Prop where
  elapsed : p.horizonDays ≤ barsAfter panel.index p.asOf
  priced : (closesFrom panel p.symbol p.asOf).take (p.horizonDays.toNat + 1) =
    (base :: rest).map some
  length : rest.length = p.horizonDays.toNat

theorem closesFrom_eq_nil : closesFrom panel symbol t = [] ↔ symbol ∉ panel.names := by
  rw [Frame.names, ← Dict.get?_eq_none, closesFrom]
  cases Dict.get? panel.columns symbol <;> simp

/-- From a priced bar on, the prices of a symbol with one run last until they end. -/
theorem Runs.closesFrom (hp : Runs panel) {base : ℚ} {after : Column ℚ}
    (hc : closesFrom panel symbol t = some base :: after) : 0 < base ∧
      (∀ q, some q ∈ after → 0 < q) ∧
      ∀ i j : ℕ, i ≤ j → after[j]?.join.isSome → after[i]?.join.isSome := by
  unfold Runtime.closesFrom at hc
  generalize (panel.index.filter (· ≤ t)).length = pos at hc
  cases hcol : Dict.get? panel.columns symbol with
  | none =>
    rw [hcol] at hc
    cases hc
  | some col =>
    rw [hcol, List.cons.injEq] at hc
    obtain ⟨hbase, rfl⟩ := hc
    have hm := Dict.get?_eq_some.mp hcol
    split at hbase
    · cases hbase
    next hpos =>
      have hb : some base ∈ col := by
        rw [Option.join_eq_some_iff] at hbase
        exact List.mem_of_getElem? hbase
      refine ⟨hp.positive _ hm base hb,
        fun q hq ↦ hp.positive _ hm q (List.mem_of_mem_drop hq), fun i j hij hj ↦ ?_⟩
      obtain ⟨a, n, hrun⟩ := hp.oneRun _ hm
      have hfirst := (hrun (pos - 1)).mp (by rw [hbase]; rfl)
      rw [List.getElem?_drop] at hj ⊢
      have hlast := (hrun (pos + j)).mp hj
      exact (hrun (pos + i)).mpr (by omega)

theorem gradedReturn_of_runs (hp : Runs panel) {base : ℚ} {after : Column ℚ}
    (hc : closesFrom panel symbol t = some base :: after) (n : ℕ) :
    gradedReturn (some base) (after.take n) = held base (after.take n) / base - 1 := by
  obtain ⟨hb, hpos, hrun⟩ := hp.closesFrom hc
  rw [gradedReturn, prod_changes hb (fun q hq ↦ hpos q (List.mem_of_mem_take hq))]
  intro i j hij hj
  rw [List.getElem?_take] at hj ⊢
  split at hj
  · rw [if_pos (by omega)]
    exact hrun i j hij hj
  · cases hj

theorem Matured.base_eq {base base' : ℚ} {rest rest' : List ℚ} (h : Matured panel p base rest)
    (h' : Matured panel p base' rest') : base' = base ∧ rest' = rest := by
  have he := h'.priced.symm.trans h.priced
  have he' := List.map_injective_iff.mpr (Option.some_injective ℚ) he
  exact List.cons.inj he'

/-- The prediction is graded if and only if it has matured, against what really happened. -/
def GradedRight (panel : PriceFrame) (horizon : ℤ) (preds : List PredictionRecord)
    (p : PredictionRecord) : Prop :=
  ∀ r, (p, r) ∈ gradedPairs panel horizon preds ↔
    ∃ base rest, Matured panel p base rest ∧ r = rest.getLastD base / base - 1

/-- Where the horizon of the call has elapsed, the prediction has to have matured too, and the
price that the call's horizon ends on has to be that of the prediction's; elsewhere it must not
have matured. -/
theorem graded_right_iff (panel : PriceFrame) (hp : Runs panel) (preds : List PredictionRecord)
    (p : PredictionRecord) (hm : p ∈ preds) (horizon : ℤ) (hh : 1 ≤ horizon) :
    GradedRight panel horizon preds p ↔
      (p.symbol ∈ panel.names →
        if horizon ≤ barsAfter panel.index p.asOf then
          ∃ base rest, Matured panel p base rest ∧
            held base ((closesFrom panel p.symbol p.asOf).tail.take horizon.toNat) =
              rest.getLastD base
        else ∀ base rest, ¬Matured panel p base rest) := by
  simp only [GradedRight, mem_gradedPairs hh, and_iff_right hm]
  cases hc : closesFrom panel p.symbol p.asOf with
  | nil =>
    have hnot : ∀ base rest, ¬Matured panel p base rest := by
      intro base rest h
      have hpriced := h.priced
      rw [hc] at hpriced
      cases hpriced
    simp [closesFrom_eq_nil.mp hc, hnot]
  | cons head after =>
    have hname : p.symbol ∈ panel.names := by
      by_contra hn
      rw [closesFrom_eq_nil.mpr hn] at hc
      cases hc
    have hhead : ∀ base rest, Matured panel p base rest → head = some base := by
      intro base rest h
      have hpriced := h.priced
      rw [hc, List.take_succ_cons, List.map_cons, List.cons.injEq] at hpriced
      exact hpriced.1
    rw [forall_prop_of_true hname]
    by_cases hb : horizon ≤ barsAfter panel.index p.asOf
    · rw [if_pos hb]
      have hgraded : ∀ r, (horizon ≤ barsAfter panel.index p.asOf ∧ ∃ base after',
          head :: after = base :: after' ∧ r = gradedReturn base (after'.take horizon.toNat)) ↔
            r = gradedReturn head (after.take horizon.toNat) := by
        intro r
        rw [and_iff_right hb]
        constructor
        · rintro ⟨_, _, he, hr⟩
          cases he
          exact hr
        · exact fun hr ↦ ⟨head, after, rfl, hr⟩
      simp only [hgraded]
      constructor
      · intro h
        obtain ⟨base, rest, hmat, hr⟩ := (h _).mp rfl
        obtain rfl := hhead base rest hmat
        have hpos := (hp.closesFrom hc).1
        rw [gradedReturn_of_runs hp hc, sub_left_inj, div_left_inj' hpos.ne'] at hr
        exact ⟨base, rest, hmat, hr⟩
      · rintro ⟨base, rest, hmat, hheld⟩ r
        obtain rfl := hhead base rest hmat
        have hreturn : gradedReturn (some base) (after.take horizon.toNat) =
            rest.getLastD base / base - 1 := by
          rw [gradedReturn_of_runs hp hc, ← hheld]
          rfl
        rw [hreturn]
        constructor
        · exact fun hr ↦ ⟨base, rest, hmat, hr⟩
        · rintro ⟨base', rest', hmat', hr⟩
          obtain ⟨rfl, rfl⟩ := hmat.base_eq hmat'
          exact hr
    · rw [if_neg hb]
      constructor
      · intro h base rest hmat
        exact hb ((h _).mpr ⟨base, rest, hmat, rfl⟩).1
      · intro h r
        exact iff_of_false (fun hr ↦ hb hr.1) fun ⟨base, rest, hmat, _⟩ ↦ h base rest hmat

/-- A second name that stops trading a bar earlier. -/
def delistingPanel : PriceFrame :=
  Frame.pivot [⟨0, "A", 10⟩, ⟨0, "B", 10⟩, ⟨1, "A", 11⟩, ⟨1, "B", 9⟩, ⟨2, "A", 12⟩]

def delistingPrediction (symbol : String) (t : Datetime) : PredictionRecord :=
  { asOf := t, symbol := symbol, probability := 1 / 2, horizonDays := 1, modelVersion := "m" }

theorem delistingPanel_runs : Runs delistingPanel := by
  have hc : delistingPanel.columns.toList =
      [("A", [some 10, some 11, some 12]), ("B", [some 10, some 9, none])] := by decide +kernel
  constructor
  · rw [hc]
    rintro c (_ | ⟨_, _ | ⟨_, ⟨⟩⟩⟩)
    · exact ⟨0, 3, fun j ↦ by rcases j with _ | _ | _ | j <;> simp⟩
    · exact ⟨0, 2, fun j ↦ by rcases j with _ | _ | _ | j <;> simp⟩
  · rw [hc]
    rintro c (_ | ⟨_, _ | ⟨_, ⟨⟩⟩⟩) q hq
    · simp only [List.mem_cons, Option.some.injEq, List.not_mem_nil, or_false] at hq
      rcases hq with rfl | rfl | rfl <;> norm_num
    · simp only [List.mem_cons, Option.some.injEq, reduceCtorEq, List.not_mem_nil, or_false] at hq
      rcases hq with rfl | rfl <;> norm_num

/-- A name that is priced on either bar is graded with the change of its price. -/
theorem graded_right_listed :
    GradedRight delistingPanel 1 [delistingPrediction "B" 0] (delistingPrediction "B" 0) := by
  have h := graded_right_iff delistingPanel delistingPanel_runs [delistingPrediction "B" 0]
    (delistingPrediction "B" 0) List.mem_cons_self 1 (by decide)
  refine h.mpr fun _ ↦ ?_
  rw [if_pos (by decide +kernel)]
  exact ⟨10, [9], ⟨by decide +kernel, by decide +kernel, rfl⟩, by decide +kernel⟩

/-- A name that is not priced on the next bar is graded with a return of nothing, and a prediction
of one bar is not graded by a call for two while one bar is there. -/
theorem delisted_graded : Runs delistingPanel ∧
    ¬GradedRight delistingPanel 1 [delistingPrediction "B" 1] (delistingPrediction "B" 1) ∧
    ¬GradedRight delistingPanel 2 [delistingPrediction "A" 1] (delistingPrediction "A" 1) := by
  refine ⟨delistingPanel_runs, fun h ↦ ?_, fun h ↦ ?_⟩
  · have hg : (delistingPrediction "B" 1, 0) ∈
        gradedPairs delistingPanel 1 [delistingPrediction "B" 1] :=
      (mem_gradedPairs (by decide)).mpr ⟨List.mem_cons_self, by decide +kernel, some 9, [none],
        by decide +kernel, by decide +kernel⟩
    obtain ⟨base, rest, hm, -⟩ := (h 0).mp hg
    have hcloses : (closesFrom delistingPanel "B" 1).take 2 = [some 9, none] := by decide +kernel
    have hpriced : [some 9, none] = (base :: rest).map some := hcloses.symm.trans hm.priced
    cases rest <;> simp at hpriced
  · have hm : Matured delistingPanel (delistingPrediction "A" 1) 11 [12] :=
      ⟨by decide +kernel, by decide +kernel, rfl⟩
    have hg := (h _).mpr ⟨11, [12], hm, rfl⟩
    have hb := ((mem_gradedPairs (by decide)).mp hg).2.1
    revert hb
    decide +kernel

end MarketTrader.Runtime
