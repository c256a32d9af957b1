import MarketTrader.Backtest.Charges

namespace MarketTrader.Backtest

open Library MarketTrader.Core Storage InMemoryBitemporalStore Portfolio
  MarketTrader.Runtime

variable {panel full : PriceFrame} {strategy : Strategy} {costModel : CostModel}
  {ts bars index : List Datetime} {last : Datetime} {prev : Weights}
  {books : List (Datetime × Weights)}

/-- What the net returns are short of the gross ones is what the rebalances from before the last
bar owe. -/
def Conserved (gross net : List ℚ) (last : Datetime) (owed : List Charge) : Prop :=
  gross.sum - net.sum = total (owed.filter (·.t < last))

def unitCost : CostModel where
  turnoverCost _ _ := 1
  holdingCost _ _ := 0

/-! ### The backtest -/

/-- What the backtest owes for a rebalance: its turnover, and the holding of its book. -/
def backtestFee (costModel : CostModel) : Fee := fun prev w t tNext ↦
  costModel.turnoverCost prev w + costModel.holdingCost w (holdDays t tNext)

theorem sum_update {l : List Datetime} (hn : l.Nodup) {bar : Datetime} (hb : bar ∈ l)
    (g : Datetime → ℚ) (x : ℚ) :
    (l.map (fun b ↦ if b = bar then g b + x else g b)).sum = (l.map g).sum + x := by
  induction l with
  | nil => cases hb
  | cons a l ih =>
    rw [List.nodup_cons] at hn
    rw [List.map_cons, List.map_cons, List.sum_cons, List.sum_cons]
    by_cases ha : a = bar
    · have hrest : l.map (fun b ↦ if b = bar then g b + x else g b) = l.map g := by
        apply List.map_congr_left
        intro b hb'
        apply if_neg
        rintro rfl
        exact hn.1 (ha ▸ hb')
      rw [if_pos ha, hrest]
      ring
    · rw [if_neg ha, ih hn.2 ((List.mem_cons.mp hb).resolve_left (Ne.symm ha))]
      ring

variable (panel strategy costModel last) in
/-- The walk books the charge of each rebalance whose book some bar sees, and no other. -/
theorem sum_costs_rebalanceAll (hn : bars.Nodup)
    (hb : ∀ t ∈ ts, ∀ bar ∈ panel.index, t < bar → bar ∈ bars) (s : BacktestBooks) :
    (bars.map (rebalanceAll panel strategy costModel last ts s).costs).sum =
      (bars.map s.costs).sum + total ((charges (backtestFee costModel) last s.prevW
        (ts.map (fun t ↦ (t, decided panel strategy t)))).filter
          (fun c ↦ c.toHolding.Held panel.index)) := by
  induction ts generalizing s with
  | nil => simp [rebalanceAll, charges, total]
  | cons t rest ih =>
    rw [List.forall_mem_cons] at hb
    have hhead : heldTo last (rest.map (fun t ↦ (t, decided panel strategy t))) =
        rest.head?.getD last := by cases rest <;> rfl
    rw [rebalanceAll, ih hb.2, List.map_cons, charges, hhead, List.filter_cons]
    set tNext := rest.head?.getD last with hnext
    have hprev : (rebalanceAt panel strategy costModel t tNext s).prevW =
        decided panel strategy t := rfl
    rw [hprev]
    cases hw : window panel.index t tNext with
    | nil =>
      have hcosts : (rebalanceAt panel strategy costModel t tNext s).costs = s.costs := by
        have hw' : window (panel.diff pctChange).index t tNext = [] := hw
        simp only [rebalanceAt, hw']
        rfl
      rw [hcosts, if_neg (by simp [Holding.Held, hw])]
    | cons bar later =>
      have hw' : window (panel.diff pctChange).index t tNext = bar :: later := hw
      have hbar := mem_window.mp (hw ▸ List.mem_cons_self (a := bar) (l := later))
      have hcosts : (rebalanceAt panel strategy costModel t tNext s).costs = fun b ↦
          if b = bar then
            s.costs b + backtestFee costModel s.prevW (decided panel strategy t) t tNext
          else s.costs b := by
        funext b
        simp only [rebalanceAt, hw', List.head?_cons, Option.some_inj, backtestFee, eq_comm]
      rw [hcosts, sum_update hn (hb.1 bar hbar.1 hbar.2.1),
        if_pos (by simp [Holding.Held, hw]), total, total, List.map_cons, List.sum_cons, add_assoc]

theorem sum_sub_sum (l : List Datetime) (g c : Datetime → ℚ) :
    (l.map g).sum - (l.map (fun bar ↦ g bar - c bar)).sum = (l.map c).sum := by
  induction l with
  | nil => simp
  | cons a l ih =>
    simp only [List.map_cons, List.sum_cons]
    rw [← ih]
    ring

def backtestBooks (panel : PriceFrame) (strategy : Strategy) (schedule : List Datetime) :
    List (Datetime × Weights) :=
  (sortBy id schedule).map (fun t ↦ (t, decided panel strategy t))

theorem backtest_costs_iff {store : InMemoryBitemporalStore} {dataset priceField : String}
    {names : Option (List String)} {schedule : List Datetime} (hs : schedule ≠ [])
    (hp : backtestPanel store dataset priceField names = .ok panel) :
    (∀ costModel, ∃ result, runBacktest store strategy schedule (some costModel) dataset priceField
        names = .ok result ∧
      Conserved (result.grossReturns.map Prod.snd) (result.netReturns.map Prod.snd)
        (panel.index.getLast?.getD 0) (charges (backtestFee costModel)
          (panel.index.getLast?.getD 0) .empty (backtestBooks panel strategy schedule))) ↔
    ∀ h ∈ holdings (panel.index.getLast?.getD 0) (backtestBooks panel strategy schedule),
      h.t < panel.index.getLast?.getD 0 → h.Held panel.index := by
  have hsorted : (sortBy id schedule).Pairwise (· ≤ ·) := sortBy_pairwise id schedule
  have hne : panel.index ≠ [] := by
    unfold backtestPanel at hp
    split at hp
    · cases hp
    · dsimp only at hp
      split at hp
      · cases hp
      · next hemp =>
        cases hp
        exact (Frame.isEmpty_eq_false.mp (by simpa using hemp)).1
  have hlast : ∀ d, panel.index.getLast?.getD d = panel.index.getLast?.getD 0 := by
    intro d
    obtain ⟨a, ha⟩ := Option.isSome_iff_exists.mp (List.getLast?_isSome.mpr hne)
    rw [ha]
    rfl
  unfold runBacktest backtestBooks
  cases hsch : sortBy id schedule with
  | nil => exact absurd (List.perm_nil.mp (hsch ▸ sortBy_perm id schedule).symm) hs
  | cons first rest =>
    rw [hsch] at hsorted
    rw [hp]
    dsimp only
    rw [hlast]
    set last := panel.index.getLast?.getD 0 with hl
    have hsum : ∀ costModel : CostModel, Conserved
        (((panel.index.filter (first < ·)).map (fun bar ↦ (bar, (rebalanceAll panel strategy
          costModel last (first :: rest) {}).gross bar))).map Prod.snd)
        (((panel.index.filter (first < ·)).map (fun bar ↦ (bar, (rebalanceAll panel strategy
          costModel last (first :: rest) {}).gross bar - (rebalanceAll panel strategy
          costModel last (first :: rest) {}).costs bar))).map Prod.snd) last
        (charges (backtestFee costModel) last .empty
          ((first :: rest).map (fun t ↦ (t, decided panel strategy t)))) ↔
        total ((charges (backtestFee costModel) last .empty
          ((first :: rest).map (fun t ↦ (t, decided panel strategy t)))).filter
            (fun c ↦ c.toHolding.Held panel.index)) =
          total ((charges (backtestFee costModel) last .empty
            ((first :: rest).map (fun t ↦ (t, decided panel strategy t)))).filter
              (·.t < last)) := by
      intro costModel
      have hnodup : (panel.index.filter (first < ·)).Nodup :=
        (panel.sorted.filter _).imp ne_of_lt
      have hseen : ∀ t ∈ first :: rest, ∀ bar ∈ panel.index, t < bar →
          bar ∈ panel.index.filter (first < ·) := by
        intro t ht bar hb hlt
        apply List.mem_filter.mpr
        refine ⟨hb, decide_eq_true ?_⟩
        rcases List.mem_cons.mp ht with rfl | ht
        · exact hlt
        · exact ((List.pairwise_cons.mp hsorted).1 t ht).trans_lt hlt
      have hwalk := sum_costs_rebalanceAll panel strategy costModel last hnodup hseen {}
      have hzero : ((panel.index.filter (first < ·)).map ({} : BacktestBooks).costs).sum = 0 := by
        simp
      rw [hzero, zero_add] at hwalk
      rw [Conserved, List.map_map, List.map_map]
      rw [← hwalk]
      exact Eq.congr_left (sum_sub_sum _ _ _)
    have hiff := charged_eq_owed_iff last .empty
      ((first :: rest).map (fun t ↦ (t, decided panel strategy t))) backtestFee unitCost
      (fun _ _ _ _ ↦ add_zero 1) (fun h ↦ decide (h.Held panel.index))
      (fun h _ hm ↦ (of_decide_eq_true hm).lt fun bar hb ↦ le_getLast panel.sorted hb 0)
    simp only [decide_eq_true_eq] at hiff
    rw [← hiff]
    apply forall_congr'
    intro costModel
    rw [← hsum costModel]
    constructor
    · rintro ⟨result, he, hc⟩
      cases he
      exact hc
    · exact fun hc ↦ ⟨_, rfl, hc⟩

/-! ### The replay -/

def replayFee (costModel : CostModel) : Fee := fun prev w _ _ ↦ costModel.turnoverCost prev w

/-- The holding shows in the returns of the replay. -/
def Holding.Shown (index : List Datetime) (h : Holding) : Prop :=
  h.Held index ∧ h.book.toList ≠ []

instance (index : List Datetime) (h : Holding) : Decidable (h.Shown index) :=
  inferInstanceAs (Decidable (_ ∧ _))

def Charge.piece (full : PriceFrame) (c : Charge) : List (Datetime × ℚ) :=
  Backtest.piece full c.t c.tNext c.book c.amount

def replayBooks (decisions : List Decision) : List (Datetime × Weights) :=
  decisions.map (fun d ↦ (d.t, d.book))

theorem pieces_accountAll (decisions : List Decision) (s : ReplayBooks) :
    (accountAll full costModel last decisions s).pieces = s.pieces ++
      (charges (replayFee costModel) last s.prevW (replayBooks decisions)).flatMap
        (Charge.piece full) := by
  induction decisions generalizing s with
  | nil => simp [accountAll, replayBooks, charges]
  | cons d rest ih =>
    have hhead : heldTo last (replayBooks rest) = (rest.head?.map Decision.t).getD last := by
      cases rest <;> rfl
    have hcons : replayBooks (d :: rest) = (d.t, d.book) :: replayBooks rest := rfl
    rw [accountAll, ih, hcons, charges, List.flatMap_cons, hhead]
    simp only [ReplayBooks.account, List.append_assoc]
    rfl

theorem bookReturn_empty {w : Weights} (hw : w.toList = []) (returns : PriceFrame)
    (bar : Datetime) : bookReturn returns w bar = 0 := by
  have hzero : ∀ c, Dict.getD w c 0 = 0 := by
    intro c
    simp [Dict.getD, Dict.get?, Keyed.find?, hw]
  simp [bookReturn, hzero]

theorem sum_piece (c : Charge) : ((c.piece full).map Prod.snd).sum =
    ((window full.index c.t c.tNext).map (bookReturn (full.diff pctChange) c.book)).sum -
      if c.toHolding.Shown full.index then c.amount else 0 := by
  unfold Charge.piece Backtest.piece
  by_cases hw : c.book.toList = []
  · rw [if_pos hw, if_neg (fun h ↦ h.2 hw)]
    have hzero : bookReturn (full.diff pctChange) c.book = fun _ ↦ 0 := by
      funext bar
      exact bookReturn_empty hw _ bar
    simp [hzero]
  · rw [if_neg hw]
    cases hwin : window full.index c.t c.tNext with
    | nil => simp [Holding.Shown, Holding.Held, hwin]
    | cons bar later =>
      have hshown : c.toHolding.Shown full.index := by
        refine ⟨?_, hw⟩
        rw [Holding.Held, hwin]
        exact List.cons_ne_nil _ _
      rw [if_pos hshown]
      simp only [List.map_cons, List.sum_cons, List.map_map]
      have hlater : later.map (Prod.snd ∘ fun bar ↦ (bar, bookReturn (full.diff pctChange) c.book
          bar)) = later.map (bookReturn (full.diff pctChange) c.book) := rfl
      rw [hlater]
      ring

theorem fst_piece (c : Charge) : (c.piece full).map Prod.fst =
    if c.book.toList = [] then [] else window full.index c.t c.tNext := by
  unfold Charge.piece Backtest.piece
  split
  · rfl
  · cases window full.index c.t c.tNext with
    | nil => rfl
    | cons bar later =>
      rw [List.map_cons, List.map_map]
      exact congrArg (bar :: ·) (List.map_id later)

theorem sum_pieces (cs : List Charge) : ((cs.flatMap (Charge.piece full)).map Prod.snd).sum =
    (cs.flatMap (fun c ↦ (window full.index c.t c.tNext).map
      (bookReturn (full.diff pctChange) c.book))).sum -
        total (cs.filter (fun c ↦ c.toHolding.Shown full.index)) := by
  induction cs with
  | nil => simp [total]
  | cons c cs ih =>
    rw [List.flatMap_cons, List.map_append, List.sum_append, ih, List.flatMap_cons,
      List.sum_append, sum_piece, List.filter_cons]
    by_cases hs : c.toHolding.Shown full.index
    · rw [if_pos hs, if_pos (decide_eq_true hs), total, total, List.map_cons, List.sum_cons]
      ring
    · rw [if_neg hs, if_neg (by simpa using hs)]
      ring

/-- The bars after the first rebalance. -/
def activeBars (index schedule : List Datetime) : List Datetime :=
  index.filter (fun bar ↦ ∃ t ∈ schedule, t < bar)

theorem activeBars_eq : activeBars index (books.map Prod.fst) =
    index.filter (fun bar ↦ ∃ b ∈ books, b.1 < bar) := by
  apply List.filter_congr
  intro bar _
  simp

theorem flatMap_bookReturn (hi : index.Pairwise (· < ·)) (hl : ∀ bar ∈ index, bar ≤ last)
    (hs : (books.map Prod.fst).Pairwise (· ≤ ·)) (returns : PriceFrame) :
    (holdings last books).flatMap (fun h ↦ (window index h.t h.tNext).map
      (bookReturn returns h.book)) =
        (activeBars index (books.map Prod.fst)).map
          (fun bar ↦ bookReturn returns (bookInForce books bar) bar) := by
  rw [activeBars_eq, ← flatMap_window hi hl hs, List.map_flatMap, List.flatMap_def,
    List.flatMap_def]
  congr 1
  apply List.map_congr_left
  intro h hh
  apply List.map_congr_left
  intro bar hb
  rw [bookInForce_of_held hs hh hb]

theorem window_eq_nil {t tNext : Datetime} (hl : ∀ bar ∈ index, bar ≤ t) :
    window index t tNext = [] := by
  rw [window, List.filter_eq_nil_iff]
  intro bar hb hw
  exact absurd (hl bar hb) (not_le.mpr (of_decide_eq_true hw).1)

/-- Where all charges from before the last bar show, the pieces cover the bars after the first
rebalance, in order. -/
theorem fst_pieces (prev : Weights) (hl : ∀ bar ∈ full.index, bar ≤ last)
    (fee : Fee) (hs : (books.map Prod.fst).Pairwise (· ≤ ·))
    (hall : ∀ h ∈ holdings last books, h.t < last → h.Shown full.index) :
    ((charges fee last prev books).flatMap (Charge.piece full)).map Prod.fst =
      activeBars full.index (books.map Prod.fst) := by
  rw [activeBars_eq, ← flatMap_window full.sorted hl hs,
    ← map_toHolding_charges fee last prev books,
    List.map_flatMap, List.flatMap_map, List.flatMap_def, List.flatMap_def]
  congr 1
  apply List.map_congr_left
  intro c hc
  have hh : c.toHolding ∈ holdings last books := by
    rw [← map_toHolding_charges fee last prev books]
    exact List.mem_map_of_mem hc
  rw [fst_piece]
  split
  · next hw =>
    symm
    apply window_eq_nil
    intro bar hb
    by_contra hlt
    exact (hall _ hh ((not_le.mp hlt).trans_le (hl bar hb))).2 hw
  · rfl

theorem sortBy_eq_self {l : List (Datetime × ℚ)} (hl : (l.map Prod.fst).Pairwise (· < ·)) :
    sortBy Prod.fst l = l := by
  rw [List.pairwise_map] at hl
  exact List.Pairwise.insertionSort_eq (hl.imp le_of_lt)

theorem sum_sub_sum_pieces (hl : ∀ bar ∈ full.index, bar ≤ last)
    (hs : (books.map Prod.fst).Pairwise (· ≤ ·)) (fee : Fee) (prev : Weights) :
    ((activeBars full.index (books.map Prod.fst)).map
        (fun bar ↦ bookReturn (full.diff pctChange) (bookInForce books bar) bar)).sum -
      ((sortBy Prod.fst ((charges fee last prev books).flatMap
        (Charge.piece full))).map Prod.snd).sum =
      total ((charges fee last prev books).filter (fun c ↦ c.toHolding.Shown full.index)) := by
  have hperm := ((sortBy_perm Prod.fst ((charges fee last prev books).flatMap
    (Charge.piece full))).map Prod.snd).sum_eq
  rw [hperm, sum_pieces, ← flatMap_bookReturn full.sorted hl hs,
    ← map_toHolding_charges fee last prev books, List.flatMap_map]
  ring

/-- A replay accounts for every bar after its first rebalance, and for what the rebalances from
before the last bar owe. -/
def ReplayConserved (full : PriceFrame) (decisions : List Decision) (costModel : CostModel)
    (net : List (Datetime × ℚ)) : Prop :=
  let books := replayBooks decisions
  let last := full.index.getLast?.getD 0
  let active := activeBars full.index (books.map Prod.fst)
  net.map Prod.fst = active ∧
    Conserved (active.map (fun bar ↦ bookReturn (full.diff pctChange) (bookInForce books bar) bar))
      (net.map Prod.snd) last (charges (replayFee costModel) last .empty books)

section

variable {N : Numerics} {D : Digests} {observations : List Observation} {setup : ReplaySetup}
  {decisions : List Decision}

/-- A replay returns the pieces of its charges, unless there are none. -/
theorem exists_replay_iff (hs : 2 ≤ setup.schedule.length)
    (hp : replayPanel observations setup.symbols = .ok full)
    (hd : decideAll N D setup full (sortBy id setup.schedule) (.start observations) =
      .ok decisions) (costModel : CostModel) (P : List (Datetime × ℚ) → Prop) :
    let pieces := (charges (replayFee costModel) (full.index.getLast?.getD 0) .empty
      (replayBooks decisions)).flatMap (Charge.piece full)
    (∃ result, replayLearning N D observations setup (some costModel) = .ok result ∧
      P result.netReturns) ↔ pieces ≠ [] ∧ P (sortBy Prod.fst pieces) := by
  intro pieces
  have hlen : ¬(sortBy id setup.schedule).length < 2 := by
    rw [(sortBy_perm id setup.schedule).length_eq]
    omega
  have hpieces : (accountAll full costModel (full.index.getLast?.getD 0) decisions {}).pieces =
      pieces := by
    rw [pieces_accountAll]
    rfl
  have hnil : sortBy Prod.fst pieces = [] ↔ pieces = [] := by
    have hperm := sortBy_perm Prod.fst pieces
    constructor
    · intro h
      exact List.nil_perm.mp (h ▸ hperm)
    · intro h
      rw [h]
      rfl
  unfold replayLearning
  rw [hp]
  dsimp only
  rw [if_neg hlen, replayAll_eq, hd]
  simp only [Except.map, Option.getD_some, hpieces, hnil]
  split
  · next hn => simp [hn]
  · next hn =>
    constructor
    · rintro ⟨result, hr, hP⟩
      cases hr
      exact ⟨hn, hP⟩
    · rintro ⟨-, hP⟩
      exact ⟨_, rfl, hP⟩

theorem last_mem_of_replayPanel {symbols : List String}
    (hp : replayPanel observations symbols = .ok full) :
    full.index.getLast?.getD 0 ∈ full.index := by
  have hne : full.index ≠ [] := by
    unfold replayPanel at hp
    split at hp
    · cases hp
    · dsimp only at hp
      split at hp
      · cases hp
      · next hemp =>
        cases hp
        exact (Frame.isEmpty_eq_false.mp (by simpa using hemp)).1
  obtain ⟨a, ha⟩ := Option.isSome_iff_exists.mp (List.getLast?_isSome.mpr hne)
  rw [ha]
  exact List.mem_of_getLast? ha

theorem replay_costs_iff (hs : 2 ≤ setup.schedule.length)
    (hp : replayPanel observations setup.symbols = .ok full)
    (hd : decideAll N D setup full (sortBy id setup.schedule) (.start observations) =
      .ok decisions) :
    (∀ costModel, activeBars full.index setup.schedule = [] ∨
      ∃ result, replayLearning N D observations setup (some costModel) = .ok result ∧
        ReplayConserved full decisions costModel result.netReturns) ↔
    ∀ h ∈ holdings (full.index.getLast?.getD 0) (replayBooks decisions),
      h.t < full.index.getLast?.getD 0 → h.Shown full.index := by
  have hexists := fun costModel ↦ exists_replay_iff hs hp hd costModel
    (ReplayConserved full decisions costModel)
  set last := full.index.getLast?.getD 0 with hlast
  set books := replayBooks decisions with hbooks
  have hl : ∀ bar ∈ full.index, bar ≤ last := fun bar hb ↦ le_getLast full.sorted hb 0
  have htimes : books.map Prod.fst = sortBy id setup.schedule := by
    rw [← decideAll_times hd, hbooks, replayBooks, List.map_map]
    rfl
  have hsorted : (books.map Prod.fst).Pairwise (· ≤ ·) := by
    rw [htimes]
    exact sortBy_pairwise id setup.schedule
  have hactive : activeBars full.index setup.schedule =
      activeBars full.index (books.map Prod.fst) := by
    simp only [activeBars, htimes, mem_sortBy]
  have hiff := charged_eq_owed_iff last .empty books replayFee unitCost (fun _ _ _ _ ↦ rfl)
    (fun h ↦ decide (h.Shown full.index))
    (fun h _ hm ↦ (of_decide_eq_true hm).1.lt hl)
  simp only [decide_eq_true_eq] at hiff
  rw [hactive]
  simp only [hexists]
  constructor
  · intro h
    by_cases hn : activeBars full.index (books.map Prod.fst) = []
    · intro b hb hlt
      have hmem : last ∈ activeBars full.index (books.map Prod.fst) := by
        apply List.mem_filter.mpr
        exact ⟨last_mem_of_replayPanel hp, decide_eq_true
          ⟨b.t, List.mem_map_of_mem (mem_books_of_mem_holdings hb), hlt⟩⟩
      rw [hn] at hmem
      cases hmem
    · rw [← hiff]
      intro costModel
      rw [← sum_sub_sum_pieces hl hsorted]
      exact ((h costModel).resolve_left hn).2.2
  · intro hall costModel
    have htotal := hiff.mpr hall costModel
    have hfst := fst_pieces .empty hl (replayFee costModel) hsorted hall
    by_cases hn : activeBars full.index (books.map Prod.fst) = []
    · exact .inl hn
    · right
      refine ⟨?_, ?_, ?_⟩
      · intro hp
        rw [hp] at hfst
        exact hn hfst.symm
      · rw [sortBy_eq_self]
        · exact hfst
        · rw [hfst]
          exact full.sorted.filter _
      · exact (sum_sub_sum_pieces hl hsorted _ _).trans htotal

end

/-- No cost escapes the backtest, or the replay, exactly when each rebalance from before the last
bar has a bar up to the next rebalance, and in the replay a book to hold over it. -/
theorem costs_conserved_iff (N : Numerics) (D : Digests) :
    (∀ (store : InMemoryBitemporalStore) (strategy : Strategy) (schedule : List Datetime)
      (dataset priceField : String) (names : Option (List String)) (panel : PriceFrame),
      schedule ≠ [] → backtestPanel store dataset priceField names = .ok panel →
      let last := panel.index.getLast?.getD 0
      let books := backtestBooks panel strategy schedule
      ((∀ costModel, ∃ result, runBacktest store strategy schedule (some costModel) dataset
          priceField names = .ok result ∧
          Conserved (result.grossReturns.map Prod.snd) (result.netReturns.map Prod.snd) last
            (charges (backtestFee costModel) last .empty books)) ↔
        ∀ h ∈ holdings last books, h.t < last → h.Held panel.index)) ∧
    (∀ (observations : List Observation) (setup : ReplaySetup) (full : PriceFrame)
      (decisions : List Decision),
      2 ≤ setup.schedule.length → replayPanel observations setup.symbols = .ok full →
      decideAll N D setup full (sortBy id setup.schedule) (.start observations) = .ok decisions →
      let last := full.index.getLast?.getD 0
      ((∀ costModel, activeBars full.index setup.schedule = [] ∨
        ∃ result, replayLearning N D observations setup (some costModel) = .ok result ∧
          ReplayConserved full decisions costModel result.netReturns) ↔
        ∀ h ∈ holdings last (replayBooks decisions), h.t < last →
          h.Held full.index ∧ h.book.toList ≠ [])) := by
  constructor
  · intro store strategy schedule dataset priceField names panel hs hp
    exact backtest_costs_iff hs hp
  · intro observations setup full decisions hs hp hd
    exact replay_costs_iff hs hp hd

/-- Two closes of one symbol, each known as it comes. -/
def twoCloses : List Observation :=
  let bar (t : Datetime) (close : ℚ) (id : UUID) : Observation :=
    { source := "p", dataset := priceDataset, entityType := "equity", entityId := "A"
      eventTime := t, knowledgeTime := t, value := .ofList [("close", .num close)]
      observationId := id }
  [bar 0 10 1, bar 1 11 2]

/-- Of two rebalances at one time, the first one's turnover is charged to no bar. -/
theorem duplicate_rebalance_uncharged : ∃ panel result,
    backtestPanel (.ofList twoCloses) priceDataset "close" none = .ok panel ∧
    runBacktest (.ofList twoCloses) equalWeightStrategy [0, 0] none priceDataset "close" none =
      .ok result ∧
    ¬Conserved (result.grossReturns.map Prod.snd) (result.netReturns.map Prod.snd)
      (panel.index.getLast?.getD 0) (charges (backtestFee ({} : BasicCostModel).model)
        (panel.index.getLast?.getD 0) .empty (backtestBooks panel equalWeightStrategy [0, 0])) := by
  refine ⟨_, _, rfl, rfl, ?_⟩
  unfold Conserved
  decide +kernel

def twoCloseReplay : ReplaySetup where
  symbols := ["A"]
  schedule := [0, 1]
  features := []

theorem costs_conserved_two_closes :
    (∀ costModel, ∃ result, runBacktest (.ofList twoCloses) equalWeightStrategy [0] (some costModel)
      priceDataset "close" none = .ok result) ∧
    ∀ costModel, ∃ result,
      replayLearning .plain .plain twoCloses twoCloseReplay (some costModel) = .ok result ∧
        result.netReturns.map Prod.fst = [1] := by
  constructor
  · intro costModel
    have hp : ∃ panel, backtestPanel (.ofList twoCloses) priceDataset "close" none = .ok panel ∧
        ∀ h ∈ holdings (panel.index.getLast?.getD 0) (backtestBooks panel equalWeightStrategy [0]),
          h.t < panel.index.getLast?.getD 0 → h.Held panel.index := by
      refine ⟨_, rfl, ?_⟩
      decide +kernel
    obtain ⟨panel, hp, hall⟩ := hp
    obtain ⟨result, hr, -⟩ := ((costs_conserved_iff .plain .plain).1 (.ofList twoCloses)
      equalWeightStrategy [0] priceDataset "close" none panel (by simp) hp).mpr hall costModel
    exact ⟨result, hr⟩
  · intro costModel
    have hd : ∃ full decisions, replayPanel twoCloses twoCloseReplay.symbols = .ok full ∧
        decideAll .plain .plain twoCloseReplay full (sortBy id twoCloseReplay.schedule)
          (.start twoCloses) = .ok decisions ∧
        (∀ h ∈ holdings (full.index.getLast?.getD 0) (replayBooks decisions),
          h.t < full.index.getLast?.getD 0 → h.Held full.index ∧ h.book.toList ≠ []) ∧
        activeBars full.index twoCloseReplay.schedule = [1] ∧
        activeBars full.index ((replayBooks decisions).map Prod.fst) = [1] := by
      refine ⟨_, _, rfl, rfl, ?_⟩
      decide +kernel
    obtain ⟨full, decisions, hp, hd, hall, hone, hone'⟩ := hd
    rcases ((costs_conserved_iff .plain .plain).2 twoCloses twoCloseReplay full decisions
      (by decide) hp hd).mpr hall costModel with h | ⟨result, hr, hc⟩
    · rw [hone] at h
      cases h
    · exact ⟨result, hr, hc.1.trans hone'⟩

end MarketTrader.Backtest
