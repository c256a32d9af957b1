import MarketTrader.Memory.AnchorBar
import MarketTrader.Memory.StudyRunner

namespace MarketTrader.Memory

open Library MarketTrader.Core

section Windows

variable {lstsq : List ℚ → List ℚ → ℚ × ℚ} {df : List Bar} {anchor : Datetime} {w : StudyWindow}
  {car : ℚ}

/-- Both windows lie in the bars in full, and the estimation ends before the event begins. -/
structure InRange (df : List Bar) (anchor : Datetime) (w : StudyWindow) : Prop where
  split : ∃ before gap after, df =
    before ++ estimationWindow df anchor w ++ gap ++ eventWindow df anchor w ++ after
  estimation : (estimationWindow df anchor w).length = w.estimationDays
  event : (eventWindow df anchor w).length = w.pre + w.post + 1

theorem barsCar_eq_some : barsCar lstsq df anchor w = some car ↔
    (0 < w.estimationDays ∧ (w.estimationDays + w.gapDays : ℤ) ≤ anchorPos df anchor ∧
      anchorPos df anchor + w.post < df.length) ∧
    ((eventWindow df anchor w).map (modelOf lstsq df anchor w).abnormal).sum = car := by
  unfold barsCar
  dsimp only
  split
  · next hdf =>
    subst hdf
    simp [anchorPos]
    omega
  · split
    · simp only [reduceCtorEq, false_iff]
      omega
    · split
      · simp only [reduceCtorEq, false_iff]
        omega
      · rw [Option.some_inj]
        constructor
        · intro h
          exact ⟨by omega, h⟩
        · exact And.right

theorem inRange_of_barsCar (hpre : w.pre ≤ w.gapDays) (h : barsCar lstsq df anchor w = some car) :
    InRange df anchor w := by
  obtain ⟨⟨-, hlo, hhi⟩, -⟩ := barsCar_eq_some.mp h
  obtain ⟨pos, hpos⟩ : ∃ pos : ℕ, anchorPos df anchor = pos :=
    ⟨(anchorPos df anchor).toNat, by omega⟩
  rw [hpos] at hlo hhi
  have hest : estimationWindow df anchor w =
      iloc df (pos - w.gapDays - w.estimationDays : ℕ) (pos - w.gapDays : ℕ) := by
    have hend : ((pos - w.gapDays : ℕ) : ℤ) = pos - w.gapDays := by omega
    have hstart : ((pos - w.gapDays - w.estimationDays : ℕ) : ℤ) =
        pos - w.gapDays - w.estimationDays := by omega
    rw [hend, hstart]
    simp only [estimationWindow, hpos]
  have hevent : eventWindow df anchor w = iloc df (pos - w.pre : ℕ) (pos + w.post + 1 : ℕ) := by
    have hstart : ((pos - w.pre : ℕ) : ℤ) = pos - w.pre := by omega
    rw [hstart]
    simp only [eventWindow, hpos, Nat.cast_add, Nat.cast_one]
  refine ⟨⟨df.take (pos - w.gapDays - w.estimationDays),
    iloc df (pos - w.gapDays : ℕ) (pos - w.pre : ℕ), df.drop (pos + w.post + 1), ?_⟩, ?_, ?_⟩
  · rw [hest, hevent, take_append_iloc df (by omega) (by omega),
      take_append_iloc df (by omega) (by omega), take_append_iloc df (by omega) (by omega),
      List.take_append_drop]
  · rw [hest, length_iloc_natCast df (by omega)]
    omega
  · rw [hevent, length_iloc_natCast df (by omega)]
    omega

end Windows

/-! ### A panel without missing returns -/

theorem length_takeWhile_le {l : List Datetime} (hs : l.Pairwise (· < ·)) {i : ℕ}
    (hi : i < l.length) : (l.takeWhile (· ≤ l[i])).length = i + 1 := by
  induction l generalizing i with
  | nil => simp at hi
  | cons a l ih =>
    rw [List.pairwise_cons] at hs
    cases i with
    | zero =>
      have hnil : l.takeWhile (· ≤ a) = [] := by
        rw [List.takeWhile_eq_nil_iff]
        intro h hle
        exact absurd (of_decide_eq_true hle) (not_le.mpr (hs.1 _ (List.getElem_mem h)))
      rw [List.getElem_cons_zero, List.takeWhile_cons_of_pos (by simp), hnil]
      rfl
    | succ i =>
      have hi : i < l.length := Nat.lt_of_succ_lt_succ hi
      have hle : a ≤ l[i] := (hs.1 _ (List.getElem_mem _)).le
      rw [List.getElem_cons_succ, List.takeWhile_cons_of_pos (by simpa using hle),
        List.length_cons, ih hs.2 hi]

def Series.Covers (s : Series) (index : List Datetime) : Prop := ∀ t ∈ index, (s.at? t).isSome

def Panel.Complete (p : Panel) : Prop :=
  ∀ name ∈ p.columns, ∀ t ∈ p.index, (p.cell name t).isSome

section Complete

variable {lstsq : List ℚ → List ℚ → ℚ × ℚ} {p : Panel} {name : String} {market : Series}
  {w : StudyWindow} (hp : p.Complete) (hn : name ∈ p.columns)

include hp hn

theorem covers_mean : p.mean.Covers p.index := by
  intro t ht
  obtain ⟨v, hv⟩ := Option.isSome_iff_exists.mp (hp name hn t ht)
  have hrow : p.row t ≠ [] := List.ne_nil_of_mem (mem_row p hn hv)
  rw [Panel.mean, at?_series p _ ht, if_neg hrow]
  rfl

variable (hm : market.Covers p.index)

include hm

theorem map_time_align : (align (p.column name) market).map Bar.time = p.index := by
  have hrows : (p.column name).rows = p.index.map (fun t ↦ (t, p.cell name t)) := rfl
  rw [align, hrows, List.filterMap_map, List.map_filterMap]
  refine (List.filterMap_congr fun t ht ↦ ?_).trans List.filterMap_some
  obtain ⟨v, hv⟩ := Option.isSome_iff_exists.mp (hp name hn t ht)
  obtain ⟨m, hm⟩ := Option.isSome_iff_exists.mp (hm t ht)
  simp [hv, hm]

theorem length_align : (align (p.column name) market).length = p.index.length := by
  rw [← map_time_align hp hn hm, List.length_map]

theorem anchorPos_align {i : ℕ} (hi : i < p.index.length) :
    anchorPos (align (p.column name) market) p.index[i] = i := by
  have hlen : ((align (p.column name) market).takeWhile (·.time ≤ p.index[i])).length = i + 1 := by
    rw [← length_takeWhile_le p.sorted hi]
    generalize p.index[i] = t
    rw [← map_time_align hp hn hm, List.takeWhile_map, List.length_map]
    rfl
  unfold anchorPos
  omega

/-- The positions with a CAR are those of the range, and no others. -/
theorem isSome_eventCar_iff {i : ℕ} (hi : i < p.index.length) :
    (eventCar lstsq (p.column name) market p.index[i] w).isSome ↔ 0 < w.estimationDays ∧
      (w.estimationDays + w.gapDays : ℤ) ≤ i ∧ (i : ℤ) ≤ p.index.length - w.post - 1 := by
  rw [Option.isSome_iff_exists]
  simp only [eventCar, barsCar_eq_some, exists_and_left, exists_eq', and_true,
    anchorPos_align hp hn hm hi, length_align hp hn hm]
  omega

end Complete

/-! ### The draws of the placebo -/

/-- The generator keeps to its bounds, the upper one excluded. -/
def Statistics.Bounded (S : Statistics) : Prop :=
  ∀ lo hi k, 0 ≤ lo → lo < hi → lo ≤ S.integers lo hi k ∧ (S.integers lo hi k : ℤ) < hi

section Draws

variable {S : Statistics} {p : Panel} {w : StudyWindow} (label : String)

theorem isSome_eventCar_draw (hS : S.Bounded) (hp : p.Complete) (hw : 0 < w.estimationDays)
    {name : String} (hn : name ∈ p.columns) {market : Series} (hm : market.Covers p.index)
    (h : (w.estimationDays + w.gapDays : ℤ) ≤ p.index.length - w.post - 1) (k : ℕ) :
    (eventCar S.lstsq (p.column name) market (p.index.getD (S.integers
      (w.estimationDays + w.gapDays) (p.index.length - w.post - 1 + 1) k) 0) w).isSome := by
  obtain ⟨hlo, hhi⟩ := hS (w.estimationDays + w.gapDays) (p.index.length - w.post - 1 + 1) k
    (by omega) (by omega)
  generalize S.integers (w.estimationDays + w.gapDays) (p.index.length - w.post - 1 + 1) k = i at *
  have hi : i < p.index.length := by omega
  rw [List.getD_eq_getElem?_getD, List.getElem?_eq_getElem hi, Option.getD_some,
    isSome_eventCar_iff hp hn hm hi]
  exact ⟨hw, hlo, by omega⟩

/-- One CAR for each event on a name of the panel, if none is without. -/
theorem length_studyCars {events : List (String × Datetime)}
    (h : ∀ ev ∈ events, ev.1 ∈ p.columns →
      (eventCar S.lstsq (p.column ev.1) p.mean ev.2 w).isSome) :
    (studyCars S.lstsq events p none w).length =
      (events.map Prod.fst).countP (· ∈ p.columns) := by
  rw [studyCars, List.length_filterMap_eq_countP, List.countP_map]
  refine List.countP_congr fun ev hev ↦ ?_
  by_cases hn : ev.1 ∈ p.columns
  · simp [hn, h ev hev hn]
  · simp [hn]

theorem length_studyCars_le (events : List (String × Datetime)) (market : Option Series) :
    (studyCars S.lstsq events p market w).length ≤
      (events.map Prod.fst).countP (· ∈ p.columns) := by
  rw [studyCars, List.length_filterMap_eq_countP, List.countP_map]
  refine List.countP_mono_left fun ev _ h ↦ ?_
  split at h
  · next hn => exact decide_eq_true hn
  · cases h

theorem aggregate_n (events : List (String × Datetime)) (market : Option Series) :
    (aggregateEventStudy S.lstsq events p market label w).n =
      (studyCars S.lstsq events p market w).length := by
  unfold aggregateEventStudy
  dsimp only
  split
  · next h => rw [h, List.length_nil]
  · rfl

theorem length_placeboMeans (hS : S.Bounded) (hp : p.Complete) (hw : 0 < w.estimationDays)
    (h : (w.estimationDays + w.gapDays : ℤ) ≤ p.index.length - w.post - 1)
    {entities : List String} (he : 0 < entities.countP (· ∈ p.columns)) (n : ℕ) :
    (placeboMeans S entities p label w (w.estimationDays + w.gapDays)
      (p.index.length - w.post - 1) n).length = n := by
  unfold placeboMeans
  rw [List.length_filterMap_eq_countP, List.countP_eq_length.mpr, List.length_range]
  intro i _
  dsimp only
  rw [if_pos, Option.isSome_some]
  rw [aggregate_n, length_studyCars, List.map_map]
  · have hfst : entities.zipIdx.map Prod.fst = entities := List.zipIdx_map_fst 0 entities
    rw [← hfst] at he
    exact he
  · intro ev hev hn
    obtain ⟨e, -, rfl⟩ := List.mem_map.mp hev
    exact isSome_eventCar_draw hS hp hw hn (covers_mean hp hn) h _

/-- No permutation is lost. -/
theorem nPermutations_placebo (hS : S.Bounded) (hp : p.Complete) (hw : 0 < w.estimationDays)
    (events : List (String × Datetime)) (n : ℕ) :
    (placeboEventStudy S events p label w n).nPermutations = n ∨
      (aggregateEventStudy S.lstsq events p none label w).n < 2 ∨
      (p.index.length - w.post - 1 : ℤ) ≤ w.estimationDays + w.gapDays := by
  unfold placeboEventStudy
  dsimp only
  split
  · next hgate => exact .inr hgate
  · next hgate =>
    left
    have hcars : 0 < (events.map Prod.fst).countP (· ∈ p.columns) := by
      have hle := length_studyCars_le (S := S) (w := w) (p := p) events none
      rw [← aggregate_n label] at hle
      omega
    have hlen := length_placeboMeans label hS hp hw (by omega) hcars n
    split
    · next hnil =>
      rw [hnil] at hlen
      exact hlen
    · exact hlen

end Draws

/-- Three bars of one name, flat but for the last. -/
def threeBars : Panel where
  index := [0, 1, 2]
  sorted := by decide
  columns := ["A"]
  nodup := by decide
  cell _ t := some (if t = 2 then 1 / 10 else 0)

def flatStatistics : Statistics where
  lstsq _ _ := (0, 0)
  integers lo _ _ := lo.toNat

theorem bounded_flatStatistics : flatStatistics.Bounded := by
  intro lo hi k h₀ h
  simp only [flatStatistics]
  omega

end MarketTrader.Memory
