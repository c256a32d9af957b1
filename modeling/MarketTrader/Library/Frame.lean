import MarketTrader.Library.Champion
import MarketTrader.Library.Slice
import Mathlib.Data.List.Dedup
import Mathlib.Data.List.Sort

namespace MarketTrader.Library

variable {τ κ ν μ : Type}

/-! ### Sorted lists without repetition -/

section Sorted

variable [LinearOrder τ]

def sortedDistinct (l : List τ) : List τ := sortBy id l.dedup

@[simp] theorem mem_sortedDistinct {l : List τ} {a : τ} : a ∈ sortedDistinct l ↔ a ∈ l := by
  simp [sortedDistinct]

theorem sortedDistinct_pairwise (l : List τ) : (sortedDistinct l).Pairwise (· < ·) := by
  have hn : (sortedDistinct l).Nodup := (sortBy_perm id l.dedup).nodup_iff.mpr l.nodup_dedup
  apply (sortBy_pairwise id l.dedup).imp₂ _ hn
  intro a b hle hne
  exact lt_of_le_of_ne hle hne

theorem filter_le_eq_take {l : List τ} (h : l.Pairwise (· < ·)) (t : τ) :
    l.filter (· ≤ t) = l.take (l.filter (· ≤ t)).length := by
  induction l with
  | nil => rfl
  | cons a l ih =>
    rw [List.pairwise_cons] at h
    by_cases ha : a ≤ t
    · rw [List.filter_cons_of_pos (by simpa using ha), List.length_cons, List.take_succ_cons,
        ← ih h.2]
    · have hf : (a :: l).filter (· ≤ t) = [] := by
        rw [List.filter_eq_nil_iff]
        intro b hb hbt
        apply ha
        rcases List.mem_cons.mp hb with rfl | hb
        · exact of_decide_eq_true hbt
        · exact (h.1 b hb).le.trans (of_decide_eq_true hbt)
      rw [hf]
      rfl

theorem filter_lt_eq_drop {l : List τ} (h : l.Pairwise (· < ·)) (t : τ) :
    l.filter (t < ·) = l.drop (l.filter (· ≤ t)).length := by
  induction l with
  | nil => rfl
  | cons a l ih =>
    rw [List.pairwise_cons] at h
    by_cases ha : a ≤ t
    · rw [List.filter_cons_of_neg (by simpa using ha), List.filter_cons_of_pos (by simpa using ha),
        List.length_cons, List.drop_succ_cons, ih h.2]
    · have hall : ∀ b ∈ a :: l, t < b := by
        intro b hb
        rcases List.mem_cons.mp hb with rfl | hb
        · exact not_le.mp ha
        · exact (not_le.mp ha).trans (h.1 b hb)
      have hf : (a :: l).filter (· ≤ t) = [] :=
        List.filter_eq_nil_iff.mpr fun b hb ↦ by simpa using hall b hb
      rw [hf, List.filter_eq_self.mpr fun b hb ↦ by simpa using hall b hb]
      rfl

/-- An entry's place tells on which side of `t` it is. -/
theorem le_iff_lt_length_filter {l : List τ} (h : l.Pairwise (· < ·)) {i : ℕ} {a : τ}
    (hi : l[i]? = some a) (t : τ) : a ≤ t ↔ i < (l.filter (· ≤ t)).length := by
  constructor
  · intro hle
    by_contra hlt
    have hdrop : a ∈ l.filter (t < ·) := by
      rw [filter_lt_eq_drop h]
      apply List.mem_of_getElem? (i := i - (l.filter (· ≤ t)).length)
      rw [List.getElem?_drop, Nat.add_sub_cancel' (not_lt.mp hlt), hi]
    exact absurd (of_decide_eq_true (List.mem_filter.mp hdrop).2) (not_lt.mpr hle)
  · intro hlt
    have htake : a ∈ l.filter (· ≤ t) := by
      rw [filter_le_eq_take h]
      apply List.mem_of_getElem? (i := i)
      rw [List.getElem?_take_of_lt hlt, hi]
    exact of_decide_eq_true (List.mem_filter.mp htake).2

theorem filter_sortedDistinct (l : List τ) (p : τ → Bool) :
    (sortedDistinct l).filter p = sortedDistinct (l.filter p) := by
  apply ((sortedDistinct_pairwise l).filter p).eq_of_mem_iff (sortedDistinct_pairwise _)
  intro a
  simp

end Sorted

/-! ### Columns -/

/-- The cells of one column, none where a value is missing. -/
abbrev Column (ν : Type) := List (Option ν)

namespace Column

def fillFrom : Option ν → Column ν → Column ν
  | _, [] => []
  | last, x :: col => (x <|> last) :: fillFrom (x <|> last) col

def ffill (col : Column ν) : Column ν := fillFrom none col

def diffFrom (change : ν → ν → Option μ) : Option ν → Column ν → Column μ
  | _, [] => []
  | prev, x :: col => (do change (← prev) (← x)) :: diffFrom change x col

def diff (change : ν → ν → Option μ) (col : Column ν) : Column μ := diffFrom change none col

variable (change : ν → ν → Option μ) (col : Column ν)

@[simp] theorem length_ffill : (ffill col).length = col.length := by
  have h : ∀ last, (fillFrom last col).length = col.length := by
    induction col with
    | nil => exact fun _ ↦ rfl
    | cons x col ih => exact fun _ ↦ congrArg Nat.succ (ih _)
  exact h none

@[simp] theorem length_diff : (diff change col).length = col.length := by
  have h : ∀ prev, (diffFrom change prev col).length = col.length := by
    induction col with
    | nil => exact fun _ ↦ rfl
    | cons x col ih => exact fun _ ↦ congrArg Nat.succ (ih _)
  exact h none

theorem take_diffFrom (prev : Option ν) (n : ℕ) :
    (diffFrom change prev col).take n = diffFrom change prev (col.take n) := by
  induction col generalizing prev n with
  | nil => simp [diffFrom]
  | cons x col ih =>
    cases n with
    | zero => rfl
    | succ n => exact congrArg (_ :: ·) (ih x n)

/-- What a prefix of the column says of its changes is not revised later. -/
theorem take_diff (n : ℕ) : (diff change col).take n = diff change (col.take n) :=
  take_diffFrom change col none n

theorem drop_diffFrom (prev : Option ν) (n : ℕ) : (diffFrom change prev col).drop n =
    diffFrom change (if n = 0 then prev else col[n - 1]?.join) (col.drop n) := by
  induction col generalizing prev n with
  | nil => simp [diffFrom]
  | cons x col ih =>
    cases n with
    | zero => rfl
    | succ n =>
      rw [diffFrom, List.drop_succ_cons, List.drop_succ_cons, ih, if_neg n.succ_ne_zero]
      cases n <;> rfl

theorem diff_eq_none (h : ∀ x ∈ col, x = none) : ∀ y ∈ diff change col, y = none := by
  have hall : ∀ prev, ∀ y ∈ diffFrom change prev col, y = none := by
    induction col with
    | nil => simp [diffFrom]
    | cons x col ih =>
      rw [List.forall_mem_cons] at h
      intro prev y hy
      rw [diffFrom, h.1, List.mem_cons] at hy
      rcases hy with rfl | hy
      · cases prev <;> rfl
      · exact ih h.2 _ y hy
  exact hall none

theorem ffill_eq_none (h : ∀ x ∈ col, x = none) : ∀ y ∈ ffill col, y = none := by
  unfold ffill
  induction col with
  | nil => simp [fillFrom]
  | cons x col ih =>
    rw [List.forall_mem_cons] at h
    intro y hy
    rw [fillFrom, h.1, List.mem_cons] at hy
    rcases hy with rfl | hy
    · rfl
    · exact ih h.2 y hy

theorem getLast?_ffill : ((ffill col).getLast?.bind id).isSome ↔ ∃ x ∈ col, x.isSome := by
  have h : ∀ last, ((fillFrom last col).getLast?.bind id).isSome ↔
      (∃ x ∈ col, x.isSome) ∨ (last.isSome ∧ col ≠ []) := by
    induction col with
    | nil => simp [fillFrom]
    | cons x col ih =>
      intro last
      rw [fillFrom]
      cases col with
      | nil => cases x <;> simp [fillFrom]
      | cons y col =>
        rw [List.getLast?_cons_of_ne_nil (by simp [fillFrom]), ih]
        cases x <;> simp
  rw [ffill, h]
  simp

end Column

/-! ### Frames -/

/-- A table of cells: a row an instant, in order, and a column a name. -/
structure Frame (τ κ ν : Type) [LinearOrder τ] [DecidableEq κ] where
  index : List τ
  columns : Dict κ (Column ν)
  sorted : index.Pairwise (· < ·)
  aligned : ∀ c ∈ columns.toList, c.2.length = index.length

namespace Frame

section Operations

variable [LinearOrder τ] [DecidableEq κ]

@[ext]
theorem ext {f g : Frame τ κ ν} (hi : f.index = g.index) (hc : f.columns = g.columns) : f = g := by
  cases f; cases g; cases hi; cases hc; rfl

def empty : Frame τ κ ν := ⟨[], .empty, .nil, by simp⟩

def isEmpty (f : Frame τ κ ν) : Bool := f.index.isEmpty || f.columns.toList.isEmpty

def names (f : Frame τ κ ν) : List κ := f.columns.keys

def select (f : Frame τ κ ν) (names : List κ) : Frame τ κ ν where
  index := f.index
  columns := f.columns.filter (·.1 ∈ names)
  sorted := f.sorted
  aligned c hc := f.aligned c (List.mem_of_mem_filter hc)

def upTo (f : Frame τ κ ν) (t : τ) : Frame τ κ ν where
  index := f.index.filter (· ≤ t)
  columns := Dict.mapVals (fun _ col ↦ col.take (f.index.filter (· ≤ t)).length) f.columns
  sorted := f.sorted.filter _
  aligned c hc := by
    obtain ⟨a, ha, rfl⟩ := List.mem_map.mp hc
    rw [List.length_take, f.aligned a ha, Nat.min_eq_left (List.length_filter_le _ _)]

def tail (f : Frame τ κ ν) : Frame τ κ ν where
  index := f.index.tail
  columns := Dict.mapVals (fun _ col ↦ col.tail) f.columns
  sorted := f.sorted.tail
  aligned c hc := by
    obtain ⟨a, ha, rfl⟩ := List.mem_map.mp hc
    rw [List.length_tail, List.length_tail, f.aligned a ha]

def pick (f : Frame τ κ ν) (names : List κ) : Frame τ κ ν where
  index := f.index
  columns := .ofList (names.filterMap (fun c ↦ (Dict.get? f.columns c).map (fun col ↦ (c, col))))
  sorted := f.sorted
  aligned c hc := by
    rcases Keyed.mem_of_mem_insertAll hc with hc | hc
    · cases hc
    · obtain ⟨name, -, hc⟩ := List.mem_filterMap.mp hc
      obtain ⟨col, hget, rfl⟩ := Option.map_eq_some_iff.mp hc
      exact f.aligned _ (Dict.get?_eq_some.mp hget)

def tailRows (f : Frame τ κ ν) (n : ℤ) : Frame τ κ ν where
  index := tailOf n f.index
  columns := Dict.mapVals (fun _ col ↦ tailOf n col) f.columns
  sorted := f.sorted.sublist (tailOf_sublist n f.index)
  aligned c hc := by
    obtain ⟨a, ha, rfl⟩ := List.mem_map.mp hc
    exact length_tailOf (f.aligned a ha) n

def diff (change : ν → ν → Option μ) (f : Frame τ κ ν) : Frame τ κ μ where
  index := f.index
  columns := Dict.mapVals (fun _ ↦ Column.diff change) f.columns
  sorted := f.sorted
  aligned c hc := by
    obtain ⟨a, ha, rfl⟩ := List.mem_map.mp hc
    rw [Column.length_diff, f.aligned a ha]

/-- The rows after an instant. -/
def after (f : Frame τ κ ν) (t : τ) : Frame τ κ ν where
  index := f.index.filter (t < ·)
  columns := Dict.mapVals (fun _ col ↦ col.drop (f.index.filter (· ≤ t)).length) f.columns
  sorted := f.sorted.filter _
  aligned c hc := by
    obtain ⟨a, ha, rfl⟩ := List.mem_map.mp hc
    rw [filter_lt_eq_drop f.sorted, List.length_drop, List.length_drop, f.aligned a ha]

def cellAt (index : List τ) (col : Column ν) (t : τ) : Option ν :=
  ((index.zip col).find? (·.1 = t)).bind (·.2)

/-- The names with a value in some row: the last row, filled forward, knows them. -/
def known (f : Frame τ κ ν) : List κ :=
  if f.isEmpty then []
  else (f.columns.filter (fun c ↦ ((Column.ffill c.2).getLast?.bind id).isSome)).keys

variable {f : Frame τ κ ν} {t : τ} {c : κ}

theorem mem_known : c ∈ f.known ↔ ∃ col, (c, col) ∈ f.columns.toList ∧ ∃ x ∈ col, x.isSome := by
  unfold known
  split
  · next he =>
    simp only [List.not_mem_nil, false_iff, not_exists, not_and]
    intro col hc x hx
    rw [isEmpty, Bool.or_eq_true, List.isEmpty_iff, List.isEmpty_iff] at he
    rcases he with he | he
    · have hl : col.length = 0 := by rw [f.aligned _ hc, he, List.length_nil]
      rw [List.length_eq_zero_iff.mp hl] at hx
      cases hx
    · rw [he] at hc
      cases hc
  · rw [Keyed.mem_keys]
    constructor
    · rintro ⟨a, ha, rfl⟩
      obtain ⟨ha, hs⟩ := List.mem_filter.mp ha
      exact ⟨a.2, ha, (Column.getLast?_ffill a.2).mp hs⟩
    · rintro ⟨col, hc, hx⟩
      exact ⟨(c, col), List.mem_filter.mpr ⟨hc, (Column.getLast?_ffill col).mpr hx⟩, rfl⟩

theorem eq_none_of_not_mem_known {col : Column ν} (hc : (c, col) ∈ f.columns.toList)
    (hk : c ∉ f.known) : ∀ x ∈ col, x = none := by
  intro x hx
  rw [← Option.not_isSome_iff_eq_none]
  intro hs
  exact hk (mem_known.mpr ⟨col, hc, x, hx, hs⟩)

def each (f : Frame τ κ ν) (F : Column ν → Option μ) (names : List κ) : List (κ × Option μ) :=
  names.map (fun c ↦ (c, (Dict.get? f.columns c).bind F))

theorem each_select {F : Column ν → Option μ} {names : List κ}
    (h : ∀ a ∈ f.columns.toList, a.1 ∉ names → F a.2 = none) (l : List κ) :
    (f.select names).each F l = f.each F l := by
  apply List.map_congr_left
  intro c _
  have hget : Dict.get? (f.select names).columns c =
      if c ∈ names then Dict.get? f.columns c else none := by
    simp only [Dict.get?, select, Keyed.find?_filter]
    cases hf : f.columns.find? c with
    | none => simp
    | some a =>
      rw [Option.filter_some, (Keyed.mem_of_find? hf).2]
      split <;> simp_all
  rw [hget]
  split
  · rfl
  · next hn =>
    cases hf : Dict.get? f.columns c with
    | none => rfl
    | some col =>
      rw [Option.bind_none, Option.bind_some, h _ (Dict.get?_eq_some.mp hf) hn]

theorem names_select_known (f : Frame τ κ ν) : (f.select f.known).names = f.known := by
  have hmem : ∀ a ∈ f.columns.toList, a.1 ∈ f.known ↔
      ((Column.ffill a.2).getLast?.bind id).isSome := by
    intro a ha
    rw [mem_known, Column.getLast?_ffill]
    constructor
    · rintro ⟨col, hc, hx⟩
      rw [show a = (a.1, col) from Keyed.eq_of_mem ha hc rfl]
      exact hx
    · exact fun hx ↦ ⟨a.2, ha, hx⟩
  by_cases he : f.isEmpty
  · have hk : f.known = [] := if_pos he
    simp [names, select, Keyed.keys, hk]
  · have hk : f.known = (f.columns.filter
      (fun c ↦ ((Column.ffill c.2).getLast?.bind id).isSome)).keys := if_neg he
    rw [names, select, Keyed.keys, Keyed.toList_filter]
    conv_rhs => rw [hk, Keyed.keys, Keyed.toList_filter]
    congr 1
    apply List.filter_congr
    intro a ha
    rw [Bool.eq_iff_iff, decide_eq_true_iff, hmem a ha]

theorem diff_upTo (change : ν → ν → Option μ) (f : Frame τ κ ν) (t : τ) :
    (f.upTo t).diff change = (f.diff change).upTo t := by
  apply ext
  · rfl
  · simp only [diff, upTo, Dict.mapVals_mapVals, Column.take_diff]

theorem select_mapVals (g : κ → Column ν → Column μ) (d : Dict κ (Column ν)) (names : List κ) :
    (Dict.mapVals g d).filter (·.1 ∈ names) = Dict.mapVals g (d.filter (·.1 ∈ names)) := by
  apply Keyed.ext
  simp [List.filter_map, Function.comp_def]

theorem diff_select (change : ν → ν → Option μ) (f : Frame τ κ ν) (names : List κ) :
    (f.select names).diff change = (f.diff change).select names := by
  apply ext
  · rfl
  · exact (select_mapVals (fun _ ↦ Column.diff change) f.columns names).symm

theorem tail_select (f : Frame τ κ ν) (names : List κ) :
    (f.select names).tail = f.tail.select names := by
  apply ext
  · rfl
  · exact (select_mapVals (fun _ col ↦ List.tail col) f.columns names).symm

theorem upTo_select (f : Frame τ κ ν) (names : List κ) (t : τ) :
    (f.select names).upTo t = (f.upTo t).select names := by
  apply ext
  · rfl
  · exact (select_mapVals (fun _ col ↦ col.take (f.index.filter (· ≤ t)).length) f.columns
      names).symm

theorem select_select (f : Frame τ κ ν) (l l' : List κ) :
    (f.select l).select l' = f.select (l'.filter (· ∈ l)) := by
  apply ext
  · rfl
  · apply Keyed.ext
    simp [select, List.filter_filter, Bool.and_comm]

theorem isEmpty_eq_false : f.isEmpty = false ↔ f.index ≠ [] ∧ f.names ≠ [] := by
  simp [isEmpty, names, Keyed.keys]

theorem isEmpty_upTo (h : f.names ≠ []) (t : τ) :
    (f.upTo t).isEmpty = (f.upTo t).index.isEmpty := by
  have hc : f.columns.toList ≠ [] := by simpa [names, Keyed.keys] using h
  rw [isEmpty, upTo]
  simp [hc]

theorem mem_names_select {l : List κ} : c ∈ (f.select l).names ↔ c ∈ f.names ∧ c ∈ l := by
  simp only [names, Keyed.mem_keys, select, Keyed.toList_filter, List.mem_filter,
    decide_eq_true_eq]
  constructor
  · rintro ⟨a, ⟨ha, hl⟩, rfl⟩
    exact ⟨⟨a, ha, rfl⟩, hl⟩
  · rintro ⟨⟨a, ha, rfl⟩, hl⟩
    exact ⟨a, ⟨ha, hl⟩, rfl⟩

theorem select_congr {l l' : List κ} (h : ∀ c ∈ f.names, c ∈ l ↔ c ∈ l') :
    f.select l = f.select l' := by
  apply ext
  · rfl
  · apply Keyed.ext
    apply List.filter_congr
    intro a ha
    rw [Bool.eq_iff_iff, decide_eq_true_iff, decide_eq_true_iff]
    exact h a.1 (List.mem_map_of_mem ha)

theorem mem_known_select {l : List κ} : c ∈ (f.select l).known ↔ c ∈ f.known ∧ c ∈ l := by
  simp only [mem_known, select, Keyed.toList_filter, List.mem_filter, decide_eq_true_eq]
  constructor
  · rintro ⟨col, ⟨hc, hl⟩, hx⟩
    exact ⟨⟨col, hc, hx⟩, hl⟩
  · rintro ⟨⟨col, hc, hx⟩, hl⟩
    exact ⟨col, ⟨hc, hl⟩, hx⟩

theorem known_select (f : Frame τ κ ν) (l : List κ) :
    (f.select l).known = f.known.filter (· ∈ l) := by
  have hnames : ∀ l', (f.select l').names = f.names.filter (· ∈ l') := by
    intro l'
    rw [names, names, Keyed.keys, Keyed.keys, select, Keyed.toList_filter, List.filter_map]
    rfl
  rw [← names_select_known (f.select l), select_select, ← names_select_known f, hnames, hnames,
    List.filter_filter]
  apply List.filter_congr
  intro c _
  rw [Bool.eq_iff_iff]
  simp only [List.mem_filter, mem_known_select, decide_eq_true_eq, Bool.and_eq_true]
  tauto

theorem cellAt_take {index : List τ} (hs : index.Pairwise (· < ·)) {s t : τ} (h : s ≤ t)
    (col : Column ν) : cellAt (index.filter (· ≤ t)) (col.take (index.filter (· ≤ t)).length) s =
      cellAt index col s := by
  induction index generalizing col with
  | nil => rfl
  | cons a index ih =>
    rw [List.pairwise_cons] at hs
    cases col with
    | nil => simp [cellAt]
    | cons x col =>
      by_cases ha : a ≤ t
      · rw [List.filter_cons_of_pos (by simpa using ha), List.length_cons, List.take_succ_cons]
        have ih := ih hs.2 col
        simp only [cellAt, List.zip_cons_cons, List.find?_cons] at ih ⊢
        split
        · rfl
        · exact ih
      · have hgt : ∀ b ∈ a :: index, s < b := by
          intro b hb
          have hsa := h.trans_lt (not_le.mp ha)
          rcases List.mem_cons.mp hb with rfl | hb
          · exact hsa
          · exact hsa.trans (hs.1 b hb)
        have hf : (a :: index).filter (· ≤ t) = [] := by
          rw [filter_le_eq_take (List.pairwise_cons.mpr hs) t,
            List.filter_cons_of_neg (by simpa using ha),
            List.filter_eq_nil_iff.mpr]
          · rfl
          · intro b hb hbt
            exact ha ((hs.1 b hb).le.trans (of_decide_eq_true hbt))
        have hnone : ((a :: index).zip (x :: col)).find? (·.1 = s) = none := by
          rw [List.find?_eq_none]
          intro p hp he
          have hp' := hgt p.1 (List.of_mem_zip hp).1
          rw [of_decide_eq_true he] at hp'
          exact lt_irrefl _ hp'
        rw [cellAt, cellAt, hf, hnone]
        rfl

theorem cellAt_eq_getElem? {index : List τ} (hs : index.Pairwise (· < ·)) {col : Column ν}
    (hl : col.length = index.length) {i : ℕ} {s : τ} (hi : index[i]? = some s) :
    cellAt index col s = col[i]?.join := by
  induction index generalizing col i with
  | nil => cases hi
  | cons a index ih =>
    rw [List.pairwise_cons] at hs
    cases col with
    | nil => cases hl
    | cons x col =>
      cases i with
      | zero =>
        cases hi
        simp [cellAt]
      | succ i =>
        have hne : a ≠ s := (hs.1 s (List.mem_of_getElem? hi)).ne
        have ih := ih hs.2 (Nat.succ.inj hl) hi
        rw [List.getElem?_cons_succ, ← ih, cellAt, List.zip_cons_cons,
          List.find?_cons_of_neg (by simpa using hne)]
        rfl

end Operations

/-! ### From records to a frame -/

structure Entry (τ κ ν : Type) where
  time : τ
  name : κ
  val : ν

section Pivot

variable [LinearOrder τ] [LinearOrder κ]

def lastEntry (rs : List (Entry τ κ ν)) (t : τ) (c : κ) : Option ν :=
  ((rs.filter (fun r ↦ r.time = t ∧ r.name = c)).getLast?).map Entry.val

/-- The records as a table, its rows and columns in order; of several records for one cell the last
one counts. -/
def pivot (rs : List (Entry τ κ ν)) : Frame τ κ ν where
  index := sortedDistinct (rs.map Entry.time)
  columns :=
    ⟨(sortedDistinct (rs.map Entry.name)).map
        (fun c ↦ (c, (sortedDistinct (rs.map Entry.time)).map (lastEntry rs · c))), by
      rw [List.map_map]
      exact (List.map_id _).symm ▸ (sortedDistinct_pairwise _).imp ne_of_lt⟩
  sorted := sortedDistinct_pairwise _
  aligned c hc := by
    obtain ⟨a, -, rfl⟩ := List.mem_map.mp hc
    exact List.length_map _

variable {rs : List (Entry τ κ ν)} {t : τ} {c : κ}

@[simp] theorem names_pivot (rs : List (Entry τ κ ν)) :
    (pivot rs).names = sortedDistinct (rs.map Entry.name) := by
  rw [names, Keyed.keys, pivot, List.map_map]
  exact List.map_id _

theorem mem_names_pivot {rs : List (Entry τ κ ν)} {c : κ} :
    c ∈ (pivot rs).names ↔ ∃ r ∈ rs, r.name = c := by
  rw [names_pivot, mem_sortedDistinct, List.mem_map]

theorem lastEntry_isSome : (lastEntry rs t c).isSome ↔ ∃ r ∈ rs, r.time = t ∧ r.name = c := by
  rw [lastEntry, Option.isSome_map, List.getLast?_isSome, ← List.length_pos_iff,
    List.length_pos_iff_exists_mem]
  simp

theorem lastEntry_filter {s : τ} (h : s ≤ t) :
    lastEntry (rs.filter (·.time ≤ t)) s c = lastEntry rs s c := by
  unfold lastEntry
  rw [List.filter_filter]
  congr 2
  apply List.filter_congr
  intro r _
  rw [Bool.eq_iff_iff]
  simp only [Bool.and_eq_true, decide_eq_true_eq, and_iff_left_iff_imp]
  rintro ⟨rfl, -⟩
  exact h

theorem toList_upTo_pivot (rs : List (Entry τ κ ν)) (t : τ) :
    ((pivot rs).upTo t).columns.toList = (pivot rs).names.map
      (fun c ↦ (c, ((pivot rs).index.filter (· ≤ t)).map (lastEntry rs · c))) := by
  have hcol : ∀ c, ((pivot rs).index.map (lastEntry rs · c)).take
      ((pivot rs).index.filter (· ≤ t)).length =
        ((pivot rs).index.filter (· ≤ t)).map (lastEntry rs · c) := by
    intro c
    rw [← List.map_take, ← filter_le_eq_take (pivot rs).sorted t]
  simp only [← hcol, names_pivot]
  exact List.map_map

theorem mem_known_upTo_pivot :
    c ∈ ((pivot rs).upTo t).known ↔ ∃ r ∈ rs, r.name = c ∧ r.time ≤ t := by
  rw [mem_known, toList_upTo_pivot, names_pivot]
  simp only [List.mem_map, Prod.mk.injEq, mem_sortedDistinct]
  constructor
  · rintro ⟨col, ⟨c', -, rfl, rfl⟩, x, hx, hs⟩
    obtain ⟨s, hst, rfl⟩ := List.mem_map.mp hx
    obtain ⟨r, hr, rfl, rfl⟩ := lastEntry_isSome.mp hs
    exact ⟨r, hr, rfl, of_decide_eq_true (List.mem_filter.mp hst).2⟩
  · rintro ⟨r, hr, rfl, ht⟩
    refine ⟨_, ⟨r.name, ⟨r, hr, rfl⟩, rfl, rfl⟩, lastEntry rs r.time r.name, ?_,
      lastEntry_isSome.mpr ⟨r, hr, rfl, rfl⟩⟩
    apply List.mem_map.mpr
    refine ⟨r.time, List.mem_filter.mpr ⟨?_, by simpa using ht⟩, rfl⟩
    exact mem_sortedDistinct.mpr (List.mem_map_of_mem hr)

/-- The rows of the full table up to an instant, without the names unknown by then, are the table
of the records up to that instant. -/
theorem select_upTo_pivot (rs : List (Entry τ κ ν)) (t : τ) :
    ((pivot rs).upTo t).select ((pivot rs).upTo t).known = pivot (rs.filter (·.time ≤ t)) := by
  have hindex : (pivot rs).index.filter (· ≤ t) = (pivot (rs.filter (·.time ≤ t))).index := by
    rw [pivot, pivot, filter_sortedDistinct, List.filter_map]
    rfl
  have hnames : (pivot rs).names.filter (· ∈ ((pivot rs).upTo t).known) =
      (pivot (rs.filter (·.time ≤ t))).names := by
    rw [names_pivot, names_pivot]
    apply ((sortedDistinct_pairwise _).filter _).eq_of_mem_iff (sortedDistinct_pairwise _)
    intro c
    simp only [List.mem_filter, mem_sortedDistinct, decide_eq_true_eq, mem_known_upTo_pivot,
      List.mem_map]
    constructor
    · rintro ⟨-, r, hr, rfl, ht⟩
      exact ⟨r, ⟨hr, ht⟩, rfl⟩
    · rintro ⟨r, ⟨hr, ht⟩, rfl⟩
      exact ⟨⟨r, hr, rfl⟩, r, hr, rfl, ht⟩
  have hcell : ∀ c, (pivot (rs.filter (·.time ≤ t))).index.map (lastEntry rs · c) =
      (pivot (rs.filter (·.time ≤ t))).index.map (lastEntry (rs.filter (·.time ≤ t)) · c) := by
    intro c
    apply List.map_congr_left
    intro s hs
    rw [← hindex] at hs
    exact (lastEntry_filter (of_decide_eq_true (List.mem_filter.mp hs).2)).symm
  apply ext hindex
  apply Keyed.ext
  rw [select, Keyed.toList_filter, toList_upTo_pivot, List.filter_map, hindex]
  simp only [hcell]
  have hcomp : ((fun a ↦ decide (a.1 ∈ ((pivot rs).upTo t).known)) ∘ fun c ↦
      (c, (pivot (rs.filter (·.time ≤ t))).index.map (lastEntry (rs.filter (·.time ≤ t)) · c))) =
        fun c ↦ decide (c ∈ ((pivot rs).upTo t).known) := rfl
  rw [hcomp, hnames, names_pivot]
  rfl

theorem isEmpty_pivot : (pivot rs).isEmpty ↔ rs = [] := by
  have hnil : ∀ {α : Type} [LinearOrder α] (l : List α), sortedDistinct l = [] ↔ l = [] := by
    intro α _ l
    simp only [List.eq_nil_iff_forall_not_mem, mem_sortedDistinct]
  rw [isEmpty, Bool.or_eq_true, List.isEmpty_iff, List.isEmpty_iff, pivot]
  simp only [List.map_eq_nil_iff, hnil, or_self]

theorem isEmpty_upTo_pivot (rs : List (Entry τ κ ν)) (t : τ) :
    (pivot (rs.filter (·.time ≤ t))).isEmpty = ((pivot rs).upTo t).isEmpty := by
  have hsel := select_upTo_pivot rs t
  rw [Bool.eq_iff_iff]
  constructor
  · intro h
    have hi : ((pivot rs).upTo t).index = [] := by
      have hindex := congrArg Frame.index hsel
      rw [isEmpty_pivot.mp h] at hindex
      exact hindex
    rw [isEmpty, hi]
    rfl
  · intro h
    rw [← hsel]
    rw [isEmpty, Bool.or_eq_true, List.isEmpty_iff, List.isEmpty_iff] at h ⊢
    apply h.imp id
    intro hc
    rw [select, Keyed.toList_filter, hc]
    rfl

theorem known_pivot (rs : List (Entry τ κ ν)) : (pivot rs).known = (pivot rs).names := by
  have hk : ∀ c ∈ (pivot rs).columns.toList, c.1 ∈ (pivot rs).known := by
    intro a ha
    obtain ⟨c, hc, rfl⟩ := List.mem_map.mp ha
    obtain ⟨r, hr, rfl⟩ := List.mem_map.mp (mem_sortedDistinct.mp hc)
    rw [mem_known]
    refine ⟨_, ha, lastEntry rs r.time r.name, ?_, lastEntry_isSome.mpr ⟨r, hr, rfl, rfl⟩⟩
    exact List.mem_map.mpr ⟨r.time, mem_sortedDistinct.mpr (List.mem_map_of_mem hr), rfl⟩
  rw [← names_select_known, names, names, Keyed.keys, Keyed.keys, select, Keyed.toList_filter,
    List.filter_eq_self.mpr]
  intro a ha
  exact decide_eq_true (hk a ha)

end Pivot

end Frame

end MarketTrader.Library
