import MarketTrader.Backtest.Splitters
import Mathlib.Tactic.Linarith

namespace MarketTrader.Backtest

open Library

/-! ### Parts of a range -/

def partSize (n k i : ℕ) : ℕ := n / k + if i < n % k then 1 else 0

theorem flatten_parts (n k m : ℕ) :
    ((List.range m).map (fun i ↦ List.range' (i * (n / k) + min i (n % k)) (partSize n k i))).flatten
      = List.range (m * (n / k) + min m (n % k)) := by
  induction m with
  | zero => simp
  | succ m ih =>
    have hend : (m + 1) * (n / k) + min (m + 1) (n % k) =
        m * (n / k) + min m (n % k) + partSize n k m := by
      unfold partSize
      rw [Nat.succ_mul]
      split <;> omega
    rw [List.range_succ, List.map_append, List.flatten_append, ih, hend, List.map_singleton,
      List.flatten_singleton]
    generalize m * (n / k) + min m (n % k) = covered
    rw [List.range_eq_range', List.range_eq_range', ← List.range'_append_1, Nat.zero_add]

/-- The parts cover the positions in order. -/
theorem flatten_arraySplit (n : ℕ) {k : ℕ} (hk : 0 < k) :
    ((arraySplit n k).filter (· ≠ [])).flatten = List.range n := by
  have hn : k * (n / k) + min k (n % k) = n := by
    rw [Nat.min_eq_right (Nat.mod_lt n hk).le, Nat.div_add_mod]
  rw [List.flatten_filter_ne_nil, arraySplit]
  exact (flatten_parts n k k).trans (by rw [hn])

theorem mem_arraySplit {n k : ℕ} {part : List ℕ} (h : part ∈ arraySplit n k) :
    ∃ i start, part = List.range' start (partSize n k i) := by
  obtain ⟨i, -, rfl⟩ := List.mem_map.mp h
  exact ⟨i, _, rfl⟩

theorem partSize_le (n k i j : ℕ) : partSize n k i ≤ partSize n k j + 1 := by
  unfold partSize
  split <;> omega

namespace PurgedKFold

variable {τ : Type} [LinearOrder τ] {cv : PurgedKFold} {t0 t1 : List τ} {test : List ℕ}
  {start size i : ℕ}

/-- The label of the sample ends before the labels tested on, or starts after them. -/
def ClearOf (t0 t1 : List τ) (test : List ℕ) (i : ℕ) : Prop :=
  (∀ e ∈ t1[i]?, ∀ j ∈ test, ∀ s ∈ t0[j]?, e < s) ∨ (∀ s ∈ t0[i]?, ∀ j ∈ test, ∀ e ∈ t1[j]?, e < s)

/-- The samples right behind the test block. -/
def Behind (cv : PurgedKFold) (n start size i : ℕ) : Prop :=
  start + size ≤ i ∧ (i : ℤ) < start + size + roundHalfEven (n * cv.embargo)

/-- A split that trains on nothing that it tests on, and on all the rest. -/
structure Separates (cv : PurgedKFold) (t0 t1 : List τ) (start size : ℕ) (fold : Split) : Prop where
  test : fold.test = List.range' start size
  disjoint : ∀ i ∈ fold.train, i ∉ fold.test
  apart : ∀ i ∈ fold.train, ∀ j ∈ fold.test, ∀ s₀ ∈ t0[i]?, ∀ s₁ ∈ t1[i]?, ∀ u₀ ∈ t0[j]?,
    ∀ u₁ ∈ t1[j]?, s₁ < u₀ ∨ u₁ < s₀
  embargo : ∀ i ∈ fold.train, ¬Behind cv t0.length start size i
  kept : ∀ i < t0.length, i ∉ fold.test → ¬Behind cv t0.length start size i →
    ClearOf t0 t1 fold.test i → i ∈ fold.train

theorem embargoed_iff (hs : 0 < size) (n : ℕ) :
    cv.embargoed n (List.range' start size) i ↔ Behind cv n start size i := by
  have hmax : (List.range' start size).max? = some (start + size - 1) := by
    rw [List.max?_eq_some_iff]
    refine ⟨List.mem_range'_1.mpr (by omega), ?_⟩
    intro j hj
    have hlt := (List.mem_range'_1.mp hj).2
    omega
  unfold embargoed Behind
  rw [hmax]
  dsimp only
  rw [decide_eq_true_eq, embargoN]
  omega

theorem overlaps_eq_false (h : ClearOf t0 t1 test i) : overlaps t0 t1 test i = false := by
  unfold overlaps
  split
  · next lo hi s e hlo hhi hs he =>
    obtain ⟨j, hj, hlo⟩ := List.mem_filterMap.mp (List.min?_eq_some_iff.mp hlo).1
    obtain ⟨j', hj', hhi⟩ := List.mem_filterMap.mp (List.max?_eq_some_iff.mp hhi).1
    rw [decide_eq_false_iff_not, not_and_or, not_le, not_le]
    exact h.imp (fun h ↦ h e he j hj lo hlo) (fun h ↦ h s hs j' hj' hi hhi)
  · rfl

theorem separates_fold (hs : 0 < size) :
    Separates cv t0 t1 start size (cv.fold t0 t1 (List.range' start size)) where
  test := rfl
  disjoint i hi := by
    obtain ⟨-, hi⟩ := List.mem_filter.mp hi
    simp only [Bool.and_eq_true, decide_eq_true_eq] at hi
    exact hi.1.2
  apart i hi j hj s₀ hs₀ s₁ hs₁ u₀ hu₀ u₁ hu₁ := fold_disjoint hi hj hs₀ hs₁ hu₀ hu₁
  embargo i hi := by
    obtain ⟨-, hi⟩ := List.mem_filter.mp hi
    rw [← embargoed_iff hs]
    simp only [Bool.and_eq_true, Bool.not_eq_true'] at hi
    simp [hi.2]
  kept i hi hout hbehind hclear := by
    rw [← embargoed_iff hs] at hbehind
    apply List.mem_filter.mpr
    refine ⟨List.mem_range.mpr hi, ?_⟩
    have hover : overlaps t0 t1 (List.range' start size) i = false := overlaps_eq_false hclear
    have hout' : i ∉ List.range' start size := hout
    simp [hover, hout', hbehind]

/-- The folds cover the samples in order, in sizes that differ by one at most, and each split
trains on exactly the samples that its labels, its block and its buffer leave. -/
theorem purged_kfold_separates (cv : PurgedKFold) (hl : t0.length = t1.length)
    (hle : ∀ p ∈ t0.zip t1, p.1 ≤ p.2) (hn : 2 ≤ cv.nSplits) :
    ∃ folds, cv.split t0 t1 = .ok folds ∧
      (folds.map Split.test).flatten = List.range t0.length ∧
      (∀ f ∈ folds, ∀ g ∈ folds, f.test.length ≤ g.test.length + 1) ∧
      ∀ f ∈ folds, ∃ start size, 0 < size ∧ Separates cv t0 t1 start size f := by
  have hany : ¬(t0.zip t1).any (fun p ↦ p.2 < p.1) := by
    rw [List.any_eq_true]
    rintro ⟨p, hp, hlt⟩
    exact absurd (hle p hp) (not_le.mpr (of_decide_eq_true hlt))
  have hparts : ∀ f ∈ ((arraySplit t0.length cv.nSplits.toNat).filter (· ≠ [])).map
      (cv.fold t0 t1), ∃ i start, f = cv.fold t0 t1 (List.range' start
        (partSize t0.length cv.nSplits.toNat i)) ∧ 0 < partSize t0.length cv.nSplits.toNat i := by
    intro f hf
    obtain ⟨part, hpart, rfl⟩ := List.mem_map.mp hf
    obtain ⟨hpart, hne⟩ := List.mem_filter.mp hpart
    obtain ⟨i, start, rfl⟩ := mem_arraySplit hpart
    refine ⟨i, start, rfl, Nat.pos_of_ne_zero ?_⟩
    intro hz
    rw [hz] at hne
    simp at hne
  refine ⟨_, by rw [split, if_neg (not_not.mpr hl), if_neg hany, if_neg (not_lt.mpr hn)],
    ?_, ?_, ?_⟩
  · have hmap : (((arraySplit t0.length cv.nSplits.toNat).filter (· ≠ [])).map
        (cv.fold t0 t1)).map Split.test =
          (arraySplit t0.length cv.nSplits.toNat).filter (· ≠ []) := by
      rw [List.map_map]
      exact List.map_id _
    rw [hmap]
    exact flatten_arraySplit t0.length (by omega)
  · intro f hf g hg
    obtain ⟨i, _, rfl, -⟩ := hparts f hf
    obtain ⟨j, _, rfl, -⟩ := hparts g hg
    simpa [fold] using partSize_le t0.length cv.nSplits.toNat i j
  · intro f hf
    obtain ⟨i, start, rfl, hs⟩ := hparts f hf
    exact ⟨start, _, hs, separates_fold hs⟩

theorem purged_kfold_separates_overlapping :
    ∃ folds, split ⟨2, 1 / 4⟩ [0, 2, 1, 6] [3, 2, 5, 7] = .ok folds ∧
      (folds.map Split.test).flatten = List.range 4 ∧
      (∀ f ∈ folds, ∀ g ∈ folds, f.test.length ≤ g.test.length + 1) ∧
      ∀ f ∈ folds, ∃ start size, 0 < size ∧
        Separates ⟨2, 1 / 4⟩ [0, 2, 1, 6] [3, 2, 5, 7] start size f :=
  purged_kfold_separates ⟨2, 1 / 4⟩ rfl (by decide) (by decide)

end PurgedKFold

end MarketTrader.Backtest
