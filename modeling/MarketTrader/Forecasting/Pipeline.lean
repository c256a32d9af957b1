import MarketTrader.Backtest.Splitters
import MarketTrader.Forecasting.Dataset

namespace MarketTrader.Forecasting

open Library MarketTrader.Core Storage InMemoryBitemporalStore Backtest Features
open MarketTrader.Runtime (priceDataset)

/-! ### Cross-validation -/

/-- What an estimator predicts of the test rows after a fit to the training rows and labels. -/
abbrev FitPredict := List (List (Option ℚ)) → List ℤ → List (List (Option ℚ)) → List ℚ

namespace TrainingSet

def row (ts : TrainingSet) (s : Sample) : List (Option ℚ) :=
  ts.featureNames.map (fun name ↦ (s.features.find? (·.1 = name)).bind Prod.snd)

def at' (ts : TrainingSet) (positions : List ℕ) : List Sample :=
  positions.filterMap (ts.samples[·]?)

def labelsAt (ts : TrainingSet) (positions : List ℕ) : List ℤ :=
  (ts.at' positions).map Sample.label

def rowsAt (ts : TrainingSet) (positions : List ℕ) : List (List (Option ℚ)) :=
  (ts.at' positions).map ts.row

end TrainingSet

/-- The folds that have both outcomes on either side. -/
def scoredFolds (ts : TrainingSet) (nSplits : ℤ := 5) (embargo : ℚ := 1 / 50) :
    Except SplitError (List Split) :=
  (PurgedKFold.split ⟨nSplits, embargo⟩ (ts.samples.map Sample.t0) (ts.samples.map Sample.t1)).map
    (fun folds ↦ folds.filter (fun f ↦
      2 ≤ (ts.labelsAt f.train).dedup.length ∧ 2 ≤ (ts.labelsAt f.test).dedup.length))

/-- The mean over the scored folds, none where there is no such fold. -/
def purgedCvAuc (model : FitPredict) (rocAucScore : List ℤ → List ℚ → ℚ) (ts : TrainingSet)
    (nSplits : ℤ := 5) (embargo : ℚ := 1 / 50) : Except SplitError (Option ℚ) :=
  (scoredFolds ts nSplits embargo).map (fun folds ↦
    let aucs := folds.map (fun f ↦ rocAucScore (ts.labelsAt f.test)
      (model (ts.rowsAt f.train) (ts.labelsAt f.train) (ts.rowsAt f.test)))
    if aucs = [] then none else some (aucs.sum / aucs.length))

/-! ### Weekdays -/

/-- Monday is 0. -/
def weekday (t : Datetime) : ℤ := (t / 86400000000 + 3) % 7

def nextWeekday (t : Datetime) : Datetime := t + Timedelta.ofDays (if weekday t = 4 then 3 else 1)

/-- One bar a weekday, at one time of the day. -/
structure Weekdays (index : List Datetime) : Prop where
  weekday_lt : ∀ t ∈ index, weekday t < 5
  chain : index.IsChain (fun a b ↦ b = nextWeekday a)

/-- `n` weekdays after a weekday. -/
def afterWeekdays (t : Datetime) (n : ℕ) : Datetime :=
  t + Timedelta.ofDays (n + 2 * ((weekday t + n) / 5))

theorem weekday_nonneg (t : Datetime) : 0 ≤ weekday t := by
  unfold weekday
  omega

theorem weekday_add (t : Datetime) (n : ℤ) :
    weekday (t + Timedelta.ofDays n) = (weekday t + n) % 7 := by
  simp only [weekday, Timedelta.ofDays]
  omega

theorem nextWeekday_afterWeekdays {t : Datetime} (_ : weekday t < 5) (n : ℕ) :
    nextWeekday (afterWeekdays t n) = afterWeekdays t (n + 1) := by
  have h₀ := weekday_nonneg t
  have hstep : ((n + 2 * ((weekday t + n) / 5) : ℤ) +
      if (weekday t + (n + 2 * ((weekday t + n) / 5))) % 7 = 4 then 3 else 1) =
        (n + 1 : ℕ) + 2 * ((weekday t + (n + 1 : ℕ)) / 5) := by
    split <;> omega
  rw [nextWeekday, afterWeekdays, afterWeekdays, weekday_add, ← hstep]
  simp only [Timedelta.ofDays, add_mul, add_assoc]

theorem afterWeekdays_friday {t : Datetime} (h : weekday t = 4) :
    afterWeekdays t 1 = t + Timedelta.ofDays 3 := by
  rw [afterWeekdays, h]
  rfl

theorem afterWeekdays_mono (t : Datetime) {m n : ℕ} (h : m ≤ n) :
    afterWeekdays t m ≤ afterWeekdays t n := by
  have hle : (m + 2 * ((weekday t + m) / 5) : ℤ) ≤ n + 2 * ((weekday t + n) / 5) := by omega
  exact Int.add_le_add_left (Int.mul_le_mul_of_nonneg_right hle (by decide)) t

namespace Weekdays

variable {index : List Datetime} {i n : ℕ} {t u : Datetime}

theorem getElem?_add (hw : Weekdays index) (ht : index[i]? = some t) (hu : index[i + n]? = some u) :
    u = afterWeekdays t n := by
  have hlt : weekday t < 5 := hw.weekday_lt t (List.mem_of_getElem? ht)
  induction n generalizing u with
  | zero =>
    rw [Nat.add_zero, ht, Option.some.injEq] at hu
    have h₀ := weekday_nonneg t
    have hz : ((0 : ℕ) + 2 * ((weekday t + (0 : ℕ)) / 5) : ℤ) = 0 := by omega
    rw [← hu, afterWeekdays, hz, Timedelta.ofDays, Int.zero_mul, Int.add_zero]
  | succ n ih =>
    obtain ⟨hl, hu⟩ := List.getElem?_eq_some_iff.mp hu
    have hl' : i + n < index.length := Nat.lt_of_succ_lt hl
    have hprev := ih (List.getElem?_eq_getElem hl')
    have hstep : index[i + n + 1] = nextWeekday index[i + n] :=
      List.isChain_iff_getElem.mp hw.chain (i + n) hl
    rw [← nextWeekday_afterWeekdays hlt, ← hprev, ← hstep]
    exact hu.symm

end Weekdays

/-! ### Labels and their bound -/

/-- A label of one bar is not taken between a Friday's bar and the same time on Saturday, and what
is decided before the first bar leaves room for the label's last one. -/
structure LabelClosed (index : List Datetime) (h : ℤ) (d : Datetime) : Prop where
  weekend : h = 1 → ∀ b ∈ index, weekday b = 4 → b + Timedelta.ofDays 3 ∈ index →
    b ≤ d → b + Timedelta.ofDays 1 ≤ d
  early : ∀ b, index.head? = some b → d < b →
    afterWeekdays b (min h.toNat index.length - 1) ≤ labelTime d h

section Closed

variable {index : List Datetime} {h : ℤ} {d : Datetime}

theorem lt_nextWeekday (t : Datetime) : t < nextWeekday t := by
  apply Int.lt_add_of_pos_right
  rw [Timedelta.ofDays]
  split <;> omega

theorem Weekdays.pairwise (hw : Weekdays index) : index.Pairwise (· < ·) := by
  apply List.isChain_iff_pairwise.mp
  apply hw.chain.imp
  rintro a b rfl
  exact lt_nextWeekday a

/-- The bars of a label by their places. -/
theorem getElem?_labelBars (hh : 0 ≤ h) (d : Datetime) (n : ℕ) :
    (labelBars index d h)[n]? =
      if n < h.toNat then index[(index.filter (· ≤ d)).length + n]? else none := by
  rw [labelBars, iloc_add index (List.length_filter_le _ _) hh, List.getElem?_take,
    List.getElem?_drop]

/-- Before the first bar. -/
theorem closed_iff_of_early (hw : Weekdays index) (hh : 1 ≤ h)
    (hpos : (index.filter (· ≤ d)).length = 0) :
    (∀ b ∈ labelBars index d h, b ≤ labelTime d h) ↔
      ∀ b, index.head? = some b →
        afterWeekdays b (min h.toNat index.length - 1) ≤ labelTime d h := by
  have hget : ∀ n, (labelBars index d h)[n]? = if n < h.toNat then index[n]? else none := by
    intro n
    rw [getElem?_labelBars (by omega), hpos, Nat.zero_add]
  constructor
  · intro hall b hb
    have hl : 0 < index.length := by
      rw [List.length_pos_iff]
      rintro rfl
      cases hb
    rw [List.head?_eq_getElem?] at hb
    have hbound : 0 + (min h.toNat index.length - 1) < index.length := by omega
    have hlast : index[0 + (min h.toNat index.length - 1)]? =
        some index[0 + (min h.toNat index.length - 1)] := List.getElem?_eq_getElem hbound
    rw [← hw.getElem?_add hb hlast]
    apply hall
    apply List.mem_of_getElem? (i := min h.toNat index.length - 1)
    rw [hget, if_pos (by omega), ← hlast, Nat.zero_add]
  · intro hlast b hb
    obtain ⟨n, hn⟩ := List.mem_iff_getElem?.mp hb
    rw [hget] at hn
    split at hn
    · next hlt =>
      obtain ⟨hl, -⟩ := List.getElem?_eq_some_iff.mp hn
      have hb₀ : index[0]? = some index[0] := List.getElem?_eq_getElem _
      have hle := hlast index[0] (by rw [List.head?_eq_getElem?, hb₀])
      rw [← Nat.zero_add n] at hn
      rw [hw.getElem?_add hb₀ hn]
      exact (afterWeekdays_mono index[0] (by omega)).trans hle
    · cases hn

/-- The weekend is the only stretch that one weekday and two days of room do not cover. -/
theorem afterWeekdays_le (hh : 1 ≤ h) {c : Datetime} {n : ℕ} (hn : n < h.toNat)
    (hc : weekday c < 5) (hd : c ≤ d)
    (hfri : h = 1 → weekday c = 4 → c + Timedelta.ofDays 1 ≤ d) :
    afterWeekdays c (n + 1) ≤ labelTime d h := by
  by_cases hw : h = 1 ∧ weekday c = 4
  · obtain ⟨rfl, hw⟩ := hw
    have hspan : ((n + 1 : ℕ) + 2 * ((weekday c + (n + 1 : ℕ)) / 5) : ℤ) = 1 + 1 * 2 := by omega
    calc afterWeekdays c (n + 1)
        = c + Timedelta.ofDays 1 + Timedelta.ofDays (1 * 2) := by
          rw [afterWeekdays, hspan, Int.add_assoc]
          rfl
      _ ≤ labelTime d 1 := Int.add_le_add_right (hfri rfl hw) _
  · have hspan : ((n + 1 : ℕ) + 2 * ((weekday c + (n + 1 : ℕ)) / 5) : ℤ) ≤ h * 2 := by
      have h₀ := weekday_nonneg c
      omega
    exact Int.add_le_add hd (Int.mul_le_mul_of_nonneg_right hspan (by decide))

/-- Behind some bar, of which `c` is the last. -/
theorem closed_iff_of_late (hw : Weekdays index) (hh : 1 ≤ h) {p : ℕ} {c : Datetime}
    (hpos : (index.filter (· ≤ d)).length = p + 1) (hc : index[p]? = some c) :
    (∀ b ∈ labelBars index d h, b ≤ labelTime d h) ↔
      (h = 1 → weekday c = 4 → c + Timedelta.ofDays 3 ∈ index → c + Timedelta.ofDays 1 ≤ d) := by
  have hget : ∀ n, (labelBars index d h)[n]? =
      if n < h.toNat then index[p + (n + 1)]? else none := by
    intro n
    rw [getElem?_labelBars (by omega), hpos, Nat.add_right_comm, Nat.add_assoc]
  have hd : c ≤ d := (le_iff_lt_length_filter hw.pairwise hc d).mpr (by omega)
  have hlt : weekday c < 5 := hw.weekday_lt c (List.mem_of_getElem? hc)
  constructor
  · rintro hall rfl h₄ hm
    obtain ⟨j, hj⟩ := List.mem_iff_getElem?.mp hm
    have hpc := (le_iff_lt_length_filter hw.pairwise hc c).mp le_rfl
    have hjc := (le_iff_lt_length_filter hw.pairwise hj c).not.mp
      (not_le.mpr (Int.lt_add_of_pos_right c (by decide)))
    obtain ⟨hjl, -⟩ := List.getElem?_eq_some_iff.mp hj
    have hbound : p + 1 < index.length := by omega
    have hnext : index[p + 1]? = some index[p + 1] := List.getElem?_eq_getElem hbound
    have hle : c + Timedelta.ofDays 3 ≤ labelTime d 1 := by
      rw [← afterWeekdays_friday h₄, ← hw.getElem?_add hc hnext]
      apply hall
      apply List.mem_of_getElem? (i := 0)
      rw [hget, if_pos (by decide), hnext]
    apply Int.le_of_add_le_add_right (b := Timedelta.ofDays (1 * 2))
    rw [Int.add_assoc]
    exact hle
  · intro hfriday b hb
    obtain ⟨n, hn⟩ := List.mem_iff_getElem?.mp hb
    rw [hget] at hn
    split at hn
    · next hlt' =>
      rw [hw.getElem?_add hc hn]
      refine afterWeekdays_le hh hlt' hlt hd fun h₁ h₄ ↦ hfriday h₁ h₄ ?_
      obtain rfl : n = 0 := by omega
      rw [← afterWeekdays_friday h₄, ← hw.getElem?_add hc hn]
      exact List.mem_of_getElem? hn
    · cases hn

theorem closed_iff (hw : Weekdays index) (hh : 1 ≤ h) :
    (∀ b ∈ labelBars index d h, b ≤ labelTime d h) ↔ LabelClosed index h d := by
  have hside := fun {i b} (hb : index[i]? = some b) ↦ le_iff_lt_length_filter hw.pairwise hb d
  cases hpos : (index.filter (· ≤ d)).length with
  | zero =>
    rw [closed_iff_of_early hw hh hpos]
    refine ⟨fun hlast ↦ ⟨fun _ b hb _ _ hd ↦ ?_, fun b hb _ ↦ hlast b hb⟩, fun hc b hb ↦ ?_⟩
    · obtain ⟨i, hi⟩ := List.mem_iff_getElem?.mp hb
      have := (hside hi).mp hd
      omega
    · refine hc.early b hb (not_le.mp fun hd ↦ ?_)
      rw [List.head?_eq_getElem?] at hb
      have := (hside hb).mp hd
      omega
  | succ p =>
    have hl : p < index.length := by
      have := List.length_filter_le (· ≤ d) index
      omega
    obtain ⟨c, hp⟩ : ∃ c, index[p]? = some c := ⟨_, List.getElem?_eq_getElem hl⟩
    have hpd : c ≤ d := (hside hp).mpr (by omega)
    rw [closed_iff_of_late hw hh hpos hp]
    refine ⟨fun hfri ↦ ⟨fun h₁ b hb h₄ hm hd ↦ ?_, fun b hb hd ↦ ?_⟩, fun hc h₁ h₄ hm ↦
      hc.weekend h₁ _ (List.mem_of_getElem? hp) h₄ hm hpd⟩
    · obtain ⟨i, hi⟩ := List.mem_iff_getElem?.mp hb
      have hip : i < p + 1 := hpos ▸ (hside hi).mp hd
      by_cases hlast : i = p
      · subst hlast
        rw [hp, Option.some.injEq] at hi
        subst hi
        exact hfri h₁ h₄ hm
      · rw [← Nat.add_sub_cancel' (show i ≤ p by omega)] at hp
        calc b + Timedelta.ofDays 1
            ≤ b + Timedelta.ofDays 3 := Int.add_le_add_left (by decide) b
          _ = afterWeekdays b 1 := (afterWeekdays_friday h₄).symm
          _ ≤ afterWeekdays b (p - i) := afterWeekdays_mono b (by omega)
          _ = c := (hw.getElem?_add hi hp).symm
          _ ≤ d := hpd
    · rw [List.head?_eq_getElem?] at hb
      exact absurd ((hside hb).mpr (by omega)) (not_le.mpr hd)

end Closed

/-! ### No leak -/

section Leak

variable {store : InMemoryBitemporalStore} {fs : FeatureStore} {universe' : PointInTimeUniverse}
  {panel : PriceFrame} {schedule : List Datetime} {h : ℤ} {ts : TrainingSet}

theorem mem_labelBars {index : List Datetime} {d b : Datetime} (hi : index.Pairwise (· < ·))
    (hh : 0 ≤ h) (hb : b ∈ labelBars index d h) : d < b := by
  rw [labelBars_eq hi d hh] at hb
  exact of_decide_eq_true (List.mem_filter.mp (List.mem_of_mem_take hb)).2

/-- Where every label is realised by its bound, the purge keeps the labels of a fold apart. -/
theorem scoredFolds_disjoint {index : List Datetime} (hi : index.Pairwise (· < ·)) (hh : 0 ≤ h)
    (hreal : ∀ s ∈ ts.samples, ∀ b ∈ labelBars index s.t0 h, b ≤ s.t1) {nSplits : ℤ} {embargo : ℚ}
    {folds : List Split} (hf : scoredFolds ts nSplits embargo = .ok folds) {fold : Split}
    (hm : fold ∈ folds) {i j : ℕ} (hi' : i ∈ fold.train) (hj : j ∈ fold.test) {s u : Sample}
    (hs : ts.samples[i]? = some s) (hu : ts.samples[j]? = some u) :
    ∀ b ∈ labelBars index s.t0 h, b ∉ labelBars index u.t0 h := by
  intro b hb hb'
  obtain ⟨all, hall, rfl⟩ : ∃ all, PurgedKFold.split ⟨nSplits, embargo⟩ (ts.samples.map Sample.t0)
      (ts.samples.map Sample.t1) = .ok all ∧ all.filter (fun f ↦
        2 ≤ (ts.labelsAt f.train).dedup.length ∧ 2 ≤ (ts.labelsAt f.test).dedup.length) =
          folds := by
    unfold scoredFolds at hf
    cases hall : PurgedKFold.split ⟨nSplits, embargo⟩ (ts.samples.map Sample.t0)
      (ts.samples.map Sample.t1) with
    | error e =>
      rw [hall] at hf
      cases hf
    | ok all =>
      rw [hall] at hf
      exact ⟨all, rfl, Except.ok.inj hf⟩
  have hget : ∀ {k : ℕ} {x : Sample} (g : Sample → Datetime), ts.samples[k]? = some x →
      (ts.samples.map g)[k]? = some (g x) := by
    intro k x g hx
    rw [List.getElem?_map, hx]
    rfl
  have hs₁ := hreal s (List.mem_of_getElem? hs) b hb
  have hu₁ := hreal u (List.mem_of_getElem? hu) b hb'
  rcases PurgedKFold.split_disjoint hall (List.mem_of_mem_filter hm) hi' hj (hget _ hs) (hget _ hs)
    (hget _ hu) (hget _ hu) with hlt | hlt
  · exact absurd ((mem_labelBars hi hh hb').trans_le hs₁) hlt.asymm
  · exact absurd ((mem_labelBars hi hh hb).trans_le hu₁) hlt.asymm

/-- Twice the horizon in days bounds a label of as many weekdays, except over a weekend that one
bar has to cross, and before the first bar. -/
theorem label_purge_iff (store : InMemoryBitemporalStore) (fs : FeatureStore)
    (schedule : List Datetime) (universe' : PointInTimeUniverse) (h : ℤ) (dataset : String)
    (panel : PriceFrame) (ts : TrainingSet)
    (hp : observationsToPriceFrame (store.asOf distantFuture { dataset := some dataset }) "close" =
      .ok panel) (hw : Weekdays panel.index) (hh : 1 ≤ h)
    (hts : buildTrainingSet store fs schedule universe' h dataset = .ok ts) :
    ((∀ s ∈ ts.samples, ∀ b ∈ labelBars panel.index s.t0 h, b ≤ s.t1) ∧
      ∀ nSplits embargo folds, scoredFolds ts nSplits embargo = .ok folds → ∀ fold ∈ folds,
        ∀ i ∈ fold.train, ∀ j ∈ fold.test, ∀ s u, ts.samples[i]? = some s →
          ts.samples[j]? = some u →
            ∀ b ∈ labelBars panel.index s.t0 h, b ∉ labelBars panel.index u.t0 h) ↔
      ∀ d ∈ schedule, Labelled fs universe' panel.names d → LabelClosed panel.index h d := by
  obtain ⟨hfrom, hto⟩ := buildTrainingSet_ok hts hp
  constructor
  · rintro ⟨hreal, -⟩ d hd hlab
    rw [← closed_iff hw hh]
    intro b hb
    obtain ⟨s, hm, rfl, hs⟩ := hto d hd hlab (List.ne_nil_of_mem hb)
    rw [← hs]
    exact hreal s hm b hb
  · intro hclosed
    have hreal : ∀ s ∈ ts.samples, ∀ b ∈ labelBars panel.index s.t0 h, b ≤ s.t1 := by
      intro s hm b hb
      obtain ⟨hd, h₁, hlab⟩ := hfrom s hm
      rw [h₁]
      exact (closed_iff hw hh).mpr (hclosed _ hd hlab) b hb
    refine ⟨hreal, fun nSplits embargo folds hf fold hm i hi j hj s u hs hu ↦ ?_⟩
    exact scoredFolds_disjoint hw.pairwise (by omega) hreal hf hm hi hj hs hu

/-- Two names over a weekend, on which every decision has a feature. -/
def weekendStore : InMemoryBitemporalStore :=
  let bar (symbol : String) (day : ℕ) (close : ℚ) (id : UUID) : Observation :=
    { source := "p", dataset := priceDataset, entityType := "equity", entityId := symbol
      eventTime := Timedelta.ofDays day, knowledgeTime := Timedelta.ofDays day
      value := .ofList [("close", .num close)], observationId := id }
  .ofList [bar "A" 1 10 1, bar "B" 1 10 2, bar "A" 4 11 3, bar "B" 4 12 4]

def weekendFeatures : FeatureStore :=
  ⟨weekendStore,
    [{ name := "one", compute := fun _ _ symbols ↦ .ok (symbols.map (fun s ↦ (s, some 1))) }]⟩

def weekendUniverse : PointInTimeUniverse :=
  ⟨[⟨"A", ⟨1970, 1, 1⟩, none⟩, ⟨"B", ⟨1970, 1, 1⟩, none⟩]⟩

/-- A horizon of two bars has the room. -/
theorem label_purge_two_bars : ∃ ts,
    buildTrainingSet weekendStore weekendFeatures [Timedelta.ofDays 1] weekendUniverse 2
      priceDataset = .ok ts ∧ ∀ s ∈ ts.samples,
        ∀ b ∈ labelBars [Timedelta.ofDays 1, Timedelta.ofDays 4] s.t0 2, b ≤ s.t1 := by
  have hset : (buildTrainingSet weekendStore weekendFeatures [Timedelta.ofDays 1] weekendUniverse 2
      priceDataset).toBool = true := by decide +kernel
  have hpanel : (observationsToPriceFrame
      (weekendStore.asOf distantFuture { dataset := some priceDataset }) "close").map Frame.index =
        .ok [Timedelta.ofDays 1, Timedelta.ofDays 4] := by decide +kernel
  cases hp : observationsToPriceFrame
      (weekendStore.asOf distantFuture { dataset := some priceDataset }) "close" with
  | error e =>
    rw [hp] at hpanel
    cases hpanel
  | ok panel =>
    rw [hp] at hpanel
    have hi : panel.index = _ := Except.ok.inj hpanel
    cases hts : buildTrainingSet weekendStore weekendFeatures [Timedelta.ofDays 1] weekendUniverse 2
      priceDataset with
    | error e =>
      rw [hts] at hset
      cases hset
    | ok ts =>
      have hw : Weekdays panel.index := by
        rw [hi]
        exact ⟨by decide, by decide⟩
      have h := label_purge_iff weekendStore weekendFeatures _ weekendUniverse 2 _ panel ts hp hw
        (by decide) hts
      refine ⟨ts, rfl, ?_⟩
      rw [← hi]
      refine (h.mpr fun d hd _ ↦ ?_).1
      rw [List.mem_singleton.mp hd]
      refine ⟨fun h₁ ↦ absurd h₁ (by decide), fun b hb ↦ ?_⟩
      rw [hi] at hb
      cases hb
      exact fun hlt ↦ absurd hlt (lt_irrefl _)

/-- Friday's label of one bar is Monday's bar, and so is the label of a decision on Monday before
the bar. One is trained on and the other tested on. -/
theorem monday_bar_leaks : ¬∀ (store : InMemoryBitemporalStore) (fs : FeatureStore)
    (schedule : List Datetime) (universe' : PointInTimeUniverse) (h : ℤ) (dataset : String)
    (panel : PriceFrame) (ts : TrainingSet),
      observationsToPriceFrame (store.asOf distantFuture { dataset := some dataset }) "close" =
        .ok panel → Weekdays panel.index → 1 ≤ h →
      buildTrainingSet store fs schedule universe' h dataset = .ok ts →
      (∀ s ∈ ts.samples, ∀ b ∈ labelBars panel.index s.t0 h, b ≤ s.t1) ∧
        ∀ nSplits embargo folds, scoredFolds ts nSplits embargo = .ok folds → ∀ fold ∈ folds,
          ∀ i ∈ fold.train, ∀ j ∈ fold.test, ∀ s u, ts.samples[i]? = some s →
            ts.samples[j]? = some u →
              ∀ b ∈ labelBars panel.index s.t0 h, b ∉ labelBars panel.index u.t0 h := by
  intro hall
  let friday : Datetime := Timedelta.ofDays 1
  let monday : Datetime := Timedelta.ofDays 4
  let schedule : List Datetime := [friday, monday - Timedelta.ofMinutes 60]
  have hpanel : (observationsToPriceFrame
      (weekendStore.asOf distantFuture { dataset := some priceDataset }) "close").map Frame.index =
        .ok [friday, monday] := by decide +kernel
  have hset : (buildTrainingSet weekendStore weekendFeatures schedule weekendUniverse 1
      priceDataset).toOption.map
        (fun ts ↦ (ts.samples.map Sample.t0, (scoredFolds ts 2).toOption)) =
        some ([friday, friday, monday - Timedelta.ofMinutes 60, monday - Timedelta.ofMinutes 60],
          some [⟨[2, 3], [0, 1]⟩, ⟨[0, 1], [2, 3]⟩]) := by
    decide +kernel
  cases hp : observationsToPriceFrame
      (weekendStore.asOf distantFuture { dataset := some priceDataset }) "close" with
  | error e =>
    rw [hp] at hpanel
    cases hpanel
  | ok panel =>
    rw [hp] at hpanel
    have hi : panel.index = [friday, monday] := Except.ok.inj hpanel
    cases hts : buildTrainingSet weekendStore weekendFeatures schedule weekendUniverse 1
      priceDataset with
    | error e =>
      rw [hts] at hset
      cases hset
    | ok ts =>
      rw [hts] at hset
      simp only [Except.toOption, Option.map_some, Option.some.injEq, Prod.mk.injEq] at hset
      obtain ⟨ht, hf⟩ := hset
      cases hsf : scoredFolds ts 2 with
      | error e =>
        rw [hsf] at hf
        cases hf
      | ok folds =>
        rw [hsf] at hf
        obtain rfl := Option.some.inj hf
        have hget : ∀ (k : ℕ) (d : Datetime), (ts.samples.map Sample.t0)[k]? = some d →
            ∃ s, ts.samples[k]? = some s ∧ s.t0 = d := by
          intro k d hk
          rwa [List.getElem?_map, Option.map_eq_some_iff] at hk
        obtain ⟨s, hs, hsd⟩ := hget 0 friday (by rw [ht]; rfl)
        obtain ⟨u, hu, hud⟩ := hget 2 (monday - Timedelta.ofMinutes 60) (by rw [ht]; rfl)
        have hleak := (hall weekendStore weekendFeatures schedule weekendUniverse 1 priceDataset
          panel ts hp (hi ▸ ⟨by decide, by decide⟩) (by decide) hts).2 2 (1 / 50) _ hsf
            ⟨[0, 1], [2, 3]⟩ (by decide) 0 (by decide) 2 (by decide) s u hs hu monday
        rw [hi, hsd, hud] at hleak
        exact hleak (by decide) (by decide)

end Leak

end MarketTrader.Forecasting
