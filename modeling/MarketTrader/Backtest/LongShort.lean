import MarketTrader.Backtest.FullBooks

namespace MarketTrader.Backtest

open Library MarketTrader.Core Storage Portfolio Features

/-- What a name returned on one bar. A missing return counts as zero. -/
def barReturn (returns : PriceFrame) (bar : Datetime) (symbol : String) : ℚ :=
  ((Dict.get? returns.columns symbol).bind (Frame.cellAt returns.index · bar)).getD 0

def meanReturn (returns : PriceFrame) (bar : Datetime) (leg : List (String × ℚ)) : ℚ :=
  (leg.map (fun p ↦ barReturn returns bar p.1)).sum / leg.length

/-- The names in the order of their scores, `k` of them at either end. -/
structure Legs (scored : List (String × ℚ)) (k : ℕ) where
  shorts : List (String × ℚ)
  middle : List (String × ℚ)
  longs : List (String × ℚ)
  perm : scored.Perm (shorts ++ middle ++ longs)
  sorted : (shorts ++ middle ++ longs).Pairwise (fun a b ↦ a.2 ≤ b.2)
  shorts_length : shorts.length = k
  longs_length : longs.length = k

variable {returns panel : PriceFrame} {bar t : Datetime} {w : Weights}
  {scored : List (String × ℚ)} {k : ℕ}

/-- The return of a book is summed up over its own names. -/
theorem bookReturn_eq (h : ∀ symbol ∈ w.keys, symbol ∈ returns.names) (bar : Datetime) :
    bookReturn returns w bar =
      (w.toList.map (fun a ↦ barReturn returns bar a.1 * a.2)).sum := by
  have hcols : bookReturn returns w bar =
      (returns.names.map (fun s ↦ barReturn returns bar s * Dict.getD w s 0)).sum := by
    rw [bookReturn, Frame.names, Keyed.keys, List.map_map]
    congr 1
    apply List.map_congr_left
    intro c hc
    rw [Function.comp_apply, barReturn, Dict.get?_eq_some.mpr hc]
    rfl
  rw [hcols]
  exact Dict.sum_getD returns.columns.nodup h (fun s q ↦ barReturn returns bar s * q)
    fun s ↦ mul_zero _

theorem iloc_zero {α : Type} {l : List α} (h : k ≤ l.length) : iloc l 0 k = l.take k := by
  have hi : iloc l (0 : ℕ) k = (l.drop 0).take (k - 0) := iloc_natCast l h
  rwa [Nat.cast_zero, List.drop_zero, Nat.sub_zero] at hi

theorem tailOf_natCast {α : Type} {l : List α} (h : k ≤ l.length) (hk : k ≠ 0) :
    tailOf k l = l.drop (l.length - k) := by
  have hstart : clipIndex l.length (-k) = l.length - k := by
    unfold clipIndex
    split <;> omega
  have hstop : clipIndex l.length l.length = l.length := by
    unfold clipIndex
    split <;> omega
  rw [tailOf, if_neg (by exact_mod_cast hk), iloc, hstart, hstop]
  apply List.take_of_length_le
  rw [List.length_drop]

/-- The two ends of a ranking that is at least `2 * k` long. -/
def Legs.ofRanked (scored : List (String × ℚ)) (h : 2 * k ≤ scored.length) : Legs scored k where
  shorts := (ascending scored).take k
  middle := ((ascending scored).drop k).take (scored.length - 2 * k)
  longs := (ascending scored).drop (scored.length - k)
  perm := by
    have hlen : (ascending scored).length = scored.length := (sortBy_perm _ scored).length_eq
    have hsplit := List.take_append_drop (scored.length - 2 * k) ((ascending scored).drop k)
    rw [List.drop_drop, show k + (scored.length - 2 * k) = scored.length - k by omega] at hsplit
    rw [List.append_assoc, hsplit, List.take_append_drop]
    exact (sortBy_perm _ scored).symm
  sorted := by
    have hsplit := List.take_append_drop (scored.length - 2 * k) ((ascending scored).drop k)
    rw [List.drop_drop, show k + (scored.length - 2 * k) = scored.length - k by omega] at hsplit
    rw [List.append_assoc, hsplit, List.take_append_drop]
    exact sortBy_pairwise _ scored
  shorts_length := by
    have hlen : (ascending scored).length = scored.length := (sortBy_perm _ scored).length_eq
    rw [List.length_take]
    omega
  longs_length := by
    have hlen : (ascending scored).length = scored.length := (sortBy_perm _ scored).length_eq
    rw [List.length_drop]
    omega

/-- The book that shorts the one leg and buys the other. -/
def Legs.book (legs : Legs scored k) (per : ℚ) : List (String × ℚ) :=
  legs.shorts.map (fun p ↦ (p.1, -per)) ++ legs.longs.map (fun p ↦ (p.1, per))

namespace Legs

variable (legs : Legs scored k) (per : ℚ)

theorem names_book : (legs.book per).map Prod.fst =
    legs.shorts.map Prod.fst ++ legs.longs.map Prod.fst := by
  rw [book, List.map_append, List.map_map, List.map_map]
  rfl

theorem nodup_book (hn : (scored.map Prod.fst).Nodup) : ((legs.book per).map Prod.fst).Nodup := by
  have hall := (legs.perm.map Prod.fst).nodup_iff.mp hn
  rw [names_book, ← List.map_append]
  refine (List.Sublist.map Prod.fst ?_).nodup hall
  exact (List.sublist_append_left legs.shorts legs.middle).append (List.Sublist.refl _)

theorem mem_of_mem_book {a : String × ℚ} (ha : a ∈ legs.book per) :
    a.1 ∈ scored.map Prod.fst := by
  have hm := List.mem_map_of_mem (f := Prod.fst) ha
  rw [names_book, ← List.map_append] at hm
  rw [(legs.perm.map Prod.fst).mem_iff]
  refine (List.Sublist.map Prod.fst ?_).subset hm
  exact (List.sublist_append_left legs.shorts legs.middle).append (List.Sublist.refl _)

theorem sum_book (f : String → ℚ) : ((legs.book per).map (fun a ↦ f a.1 * a.2)).sum =
    per * ((legs.longs.map (fun p ↦ f p.1)).sum - (legs.shorts.map (fun p ↦ f p.1)).sum) := by
  rw [book, List.map_append, List.sum_append, List.map_map, List.map_map]
  simp only [Function.comp_def, List.sum_map_mul_right]
  ring

end Legs

namespace LongShortInsiderStrategy

variable (s : LongShortInsiderStrategy)

/-- The names that can be traded and whose score says something. -/
def active (scores : Signal) (view : PointInTimeView) : List (String × ℚ) :=
  (tradableScores scores view).filter (·.2 ≠ 0)

/-- How many names a leg has. -/
def side (active : List (String × ℚ)) : ℕ :=
  (min s.maxPositionsPerSide (active.length / 2 : ℕ)).toNat

theorem nodup_active (scores : Signal) (view : PointInTimeView) :
    ((active scores view).map Prod.fst).Nodup :=
  ((List.filter_sublist.trans List.filter_sublist).map Prod.fst).nodup
    ((fst_dropna_sublist scores.toList).nodup scores.nodup)

/-- Each leg is held evenly, half of the gross exposure a side. -/
theorem targetWeights_eq {scores : Signal} {view : PointInTimeView}
    (hs : Dict.get? s.insiderScores t = some scores) (hk : 0 < s.side (active scores view)) :
    ∃ legs : Legs (active scores view) (s.side (active scores view)),
      (s.targetWeights view t).toList =
        legs.book (s.gross / (2 * s.side (active scores view))) := by
  have hlen : (ranked scores view).length = (active scores view).length :=
    (sortBy_perm _ _).length_eq
  obtain ⟨k, hside⟩ : ∃ k, s.side (active scores view) = k := ⟨_, rfl⟩
  rw [hside] at hk ⊢
  have hint : min s.maxPositionsPerSide ((ranked scores view).length / 2 : ℕ) = k := by
    rw [hlen]
    rw [side] at hside
    omega
  have hle : 2 * k ≤ (active scores view).length := by
    rw [side] at hside
    omega
  refine ⟨.ofRanked _ hle, ?_⟩
  have hnodup := (Legs.ofRanked _ hle).nodup_book (s.gross / (2 * k)) (nodup_active scores view)
  rw [targetWeights, hs]
  dsimp only
  rw [hint, if_neg (by omega), Int.cast_natCast]
  have hshorts : iloc (ranked scores view) 0 k = (Legs.ofRanked _ hle).shorts :=
    iloc_zero (by rw [hlen]; omega)
  have hlongs : tailOf k (ranked scores view) = (Legs.ofRanked _ hle).longs := by
    rw [tailOf_natCast (by rw [hlen]; omega) hk.ne', hlen]
    rfl
  rw [hshorts, hlongs]
  rw [Legs.book, List.map_append] at hnodup
  rw [Keyed.toList_insertAll]
  · rw [Keyed.toList_ofList (List.nodup_append.mp hnodup).1]
    rfl
  · rwa [Keyed.toList_ofList (List.nodup_append.mp hnodup).1, List.map_append]

theorem targetWeights_empty {view : PointInTimeView}
    (h : ∀ scores, Dict.get? s.insiderScores t = some scores →
      s.side (active scores view) = 0) : s.targetWeights view t = .empty := by
  unfold targetWeights
  split
  · rfl
  · next scores hs =>
    have hlen : (ranked scores view).length = (active scores view).length :=
      (sortBy_perm _ _).length_eq
    have hside := h scores hs
    rw [side] at hside
    dsimp only
    rw [if_pos]
    rw [hlen]
    omega

/-- On every bar of a run the book of the last rebalance is flat, or it earns half of its gross
exposure on the spread between the mean returns of the two ends of the ranking, and carries no net
exposure. -/
theorem long_short_spread {store : InMemoryBitemporalStore} {dataset priceField : String}
    {restrictTo : Option (List String)}
    (hp : backtestPanel store dataset priceField restrictTo = .ok panel)
    {costModel : Option CostModel} {schedule : List Datetime} {result : BacktestResult}
    (hrun : runBacktest store s.strategy schedule costModel dataset priceField restrictTo =
      .ok result) :
    ∀ p ∈ result.grossReturns, ∃ t ∈ schedule, t < p.1 ∧ (∀ t' ∈ schedule, t' < p.1 → t' ≤ t) ∧
      ((p.2 = 0 ∧ ∀ scores, Dict.get? s.insiderScores t = some scores →
          s.side (active scores (.ofPanel t (panel.upTo t))) = 0) ∨
        ∃ scores, ∃ legs : Legs (active scores (.ofPanel t (panel.upTo t)))
            (s.side (active scores (.ofPanel t (panel.upTo t)))),
          Dict.get? s.insiderScores t = some scores ∧ legs.longs ≠ [] ∧
            netOf (decided panel s.strategy t) = 0 ∧
            grossOf (decided panel s.strategy t) = |s.gross| ∧
            p.2 = s.gross / 2 * (meanReturn (panel.diff pctChange) p.1 legs.longs -
              meanReturn (panel.diff pctChange) p.1 legs.shorts)) := by
  unfold runBacktest at hrun
  split at hrun
  · cases hrun
  · next first rest hsched =>
    have hsorted : (first :: rest).Pairwise (· ≤ ·) := hsched ▸ sortBy_pairwise id schedule
    have hmem : ∀ t, t ∈ first :: rest ↔ t ∈ schedule := by
      intro t
      rw [← hsched, mem_sortBy]
    rw [hp] at hrun
    simp only [Except.ok.injEq] at hrun
    subst hrun
    intro p hp
    obtain ⟨bar, hb, rfl⟩ := List.mem_map.mp hp
    obtain ⟨t, ht, hgross⟩ := gross_active panel s.strategy
      (costModel.getD ({} : BasicCostModel).model) bar hsorted hb
    obtain ⟨hm, hlt, hlast⟩ := lastBefore_eq_some hsorted ht
    refine ⟨t, (hmem t).mp hm, hlt, fun t' ht' ↦ hlast t' ((hmem t').mpr ht'), ?_⟩
    dsimp only
    rw [hgross]
    let view := PointInTimeView.ofPanel t (panel.upTo t)
    have hbook : decided panel s.strategy t = s.targetWeights view t := rfl
    by_cases hflat : ∀ scores, Dict.get? s.insiderScores t = some scores →
        s.side (active scores view) = 0
    · left
      refine ⟨?_, hflat⟩
      rw [hbook, s.targetWeights_empty hflat]
      simp [bookReturn, Dict.getD]
    · right
      push Not at hflat
      obtain ⟨scores, hs, hk⟩ := hflat
      have hk := Nat.pos_of_ne_zero hk
      obtain ⟨legs, hlist⟩ := s.targetWeights_eq hs hk
      have hk0 : (s.side (active scores view) : ℚ) ≠ 0 := by exact_mod_cast hk.ne'
      have hshorts : (legs.shorts.length : ℚ) = s.side (active scores view) := by
        rw [legs.shorts_length]
      have hlongs : (legs.longs.length : ℚ) = s.side (active scores view) := by
        rw [legs.longs_length]
      refine ⟨scores, legs, hs, ?_, ?_, ?_, ?_⟩
      · intro hnil
        have hl := legs.longs_length
        rw [hnil, List.length_nil] at hl
        exact hk.ne hl
      · have hsum := legs.sum_book (s.gross / (2 * s.side (active scores view))) fun _ ↦ 1
        rw [List.map_const', List.map_const', List.sum_replicate, List.sum_replicate,
          legs.longs_length, legs.shorts_length, sub_self, mul_zero] at hsum
        simp only [one_mul] at hsum
        rw [hbook, netOf, hlist]
        exact hsum
      · rw [hbook, grossOf, hlist, Legs.book, List.map_append, List.sum_append, List.map_map,
          List.map_map]
        simp only [Function.comp_def, abs_neg, List.map_const', List.sum_replicate, nsmul_eq_mul,
          legs.longs_length, legs.shorts_length]
        rw [abs_div, abs_mul, Nat.abs_cast, abs_two]
        field_simp
        ring
      · have hnames : ∀ symbol ∈ (s.targetWeights view t).keys,
            symbol ∈ (panel.diff pctChange).names := by
          intro symbol hsym
          obtain ⟨a, ha, rfl⟩ := Keyed.mem_keys.mp hsym
          rw [hlist] at ha
          obtain ⟨b, hb, he⟩ := List.mem_map.mp (legs.mem_of_mem_book _ ha)
          have hk : b.1 ∈ view.universeNames :=
            of_decide_eq_true (List.mem_filter.mp (List.mem_of_mem_filter hb)).2
          have hdiff : (panel.diff pctChange).names = panel.names := Dict.keys_mapVals
          rw [hdiff, ← he]
          exact mem_names_of_mem_known hk
        rw [hbook, bookReturn_eq hnames, hlist, legs.sum_book, meanReturn, meanReturn, hshorts,
          hlongs]
        field_simp

def buyersAndSellers : LongShortInsiderStrategy :=
  { insiderScores := .ofList [(0, .ofList [("A", some 2), ("B", some (-1))])] }

theorem long_short_spread_halved :
    ∃ result, runBacktest halvedStore buyersAndSellers.strategy [0] none "d" "close" none =
        .ok result ∧
      ∀ p ∈ result.grossReturns, ∃ t ∈ [(0 : Datetime)], t < p.1 := by
  have hp : backtestPanel halvedStore "d" "close" none = .ok halvedPanel := by rfl
  cases hrun : runBacktest halvedStore buyersAndSellers.strategy [0] none "d" "close" none with
  | error e =>
    have hok : (runBacktest halvedStore buyersAndSellers.strategy [0] none "d" "close"
        none).isOk = true := by
      decide +kernel
    rw [hrun] at hok
    cases hok
  | ok result =>
    refine ⟨result, rfl, fun p hm ↦ ?_⟩
    obtain ⟨t, ht, hlt, -⟩ := buyersAndSellers.long_short_spread hp hrun p hm
    exact ⟨t, ht, hlt⟩

end LongShortInsiderStrategy

end MarketTrader.Backtest
