import MarketTrader.Library.Rounding
import Mathlib.Data.List.MinMax

namespace MarketTrader.Backtest

open Library

inductive SplitError
  | valueError (text : String)
deriving DecidableEq

/-- The positions trained on and the positions tested on. -/
structure Split where
  train : List ℕ
  test : List ℕ
deriving DecidableEq

/-- The positions below `n` in `k` consecutive parts, of which the first ones have one more. -/
def arraySplit (n k : ℕ) : List (List ℕ) :=
  (List.range k).map
    (fun i ↦ List.range' (i * (n / k) + min i (n % k)) (n / k + if i < n % k then 1 else 0))

structure PurgedKFold where
  nSplits : ℤ := 5
  embargo : ℚ := 0

namespace PurgedKFold

variable {τ : Type} [LinearOrder τ]

def embargoN (cv : PurgedKFold) (n : ℕ) : ℤ := roundHalfEven (n * cv.embargo)

def values (a : List τ) (positions : List ℕ) : List τ := positions.filterMap (a[·]?)

/-- The label of the sample reaches into the test block. -/
def overlaps (t0 t1 : List τ) (test : List ℕ) (i : ℕ) : Bool :=
  match (values t0 test).min?, (values t1 test).max?, t0[i]?, t1[i]? with
  | some testStart, some testEnd, some start, some stop => testStart ≤ stop ∧ start ≤ testEnd
  | _, _, _, _ => false

/-- The sample is in the buffer right behind the test block. -/
def embargoed (cv : PurgedKFold) (n : ℕ) (test : List ℕ) (i : ℕ) : Bool :=
  match test.max? with
  | some last => 0 < cv.embargoN n ∧ last + 1 ≤ i ∧ (i : ℤ) < last + 1 + cv.embargoN n
  | none => false

def fold (cv : PurgedKFold) (t0 t1 : List τ) (test : List ℕ) : Split where
  train := (List.range t0.length).filter
    (fun i ↦ !overlaps t0 t1 test i && i ∉ test && !cv.embargoed t0.length test i)
  test := test

def split (cv : PurgedKFold) (t0 t1 : List τ) : Except SplitError (List Split) :=
  if t0.length ≠ t1.length then .error (.valueError "t0 and t1 must be 1-D arrays of equal length")
  else if (t0.zip t1).any (fun p ↦ p.2 < p.1) then
    .error (.valueError "t1 must be >= t0 elementwise")
  else if cv.nSplits < 2 then .error (.valueError "n_splits must be >= 2")
  else .ok (((arraySplit t0.length cv.nSplits.toNat).filter (· ≠ [])).map (cv.fold t0 t1))

variable {cv : PurgedKFold} {t0 t1 : List τ} {folds : List Split} {fold : Split} {i j : ℕ}
  {test : List ℕ}

omit [LinearOrder τ] in
theorem values_of_mem {a : List τ} {x : τ} (hi : i ∈ test) (hx : a[i]? = some x) :
    x ∈ values a test := List.mem_filterMap.mpr ⟨i, hi, hx⟩

theorem split_ok (h : cv.split t0 t1 = .ok folds) : t0.length = t1.length ∧
    (∀ p ∈ t0.zip t1, p.1 ≤ p.2) ∧ 2 ≤ cv.nSplits ∧
      folds = ((arraySplit t0.length cv.nSplits.toNat).filter (· ≠ [])).map (cv.fold t0 t1) := by
  unfold split at h
  split at h
  · cases h
  split at h
  · cases h
  split at h
  · cases h
  · next hl hp hn =>
    refine ⟨not_not.mp hl, fun p hm ↦ ?_, not_lt.mp hn, (Except.ok.inj h).symm⟩
    by_contra hlt
    exact hp (List.any_eq_true.mpr ⟨p, hm, decide_eq_true (not_le.mp hlt)⟩)

/-- No label trained on reaches into a label tested on. -/
theorem fold_disjoint (hi : i ∈ (cv.fold t0 t1 test).train) (hj : j ∈ test) {s₀ s₁ u₀ u₁ : τ}
    (hs₀ : t0[i]? = some s₀) (hs₁ : t1[i]? = some s₁) (hu₀ : t0[j]? = some u₀)
    (hu₁ : t1[j]? = some u₁) : s₁ < u₀ ∨ u₁ < s₀ := by
  obtain ⟨-, hi⟩ := List.mem_filter.mp hi
  simp only [Bool.and_eq_true, Bool.not_eq_true'] at hi
  have hover := hi.1.1
  have hm₀ := values_of_mem hj hu₀
  have hm₁ := values_of_mem hj hu₁
  obtain ⟨a, ha⟩ := Option.isSome_iff_exists.mp (List.isSome_min?_of_mem hm₀)
  obtain ⟨b, hb⟩ := Option.isSome_iff_exists.mp (List.isSome_max?_of_mem hm₁)
  have hle : a ≤ u₀ := (List.le_min?_iff ha).mp le_rfl _ hm₀
  have hge : u₁ ≤ b := (List.max?_le_iff hb).mp le_rfl _ hm₁
  simp only [overlaps, ha, hb, hs₀, hs₁, decide_eq_false_iff_not, not_and, not_le] at hover
  by_cases hstart : a ≤ s₁
  · exact .inr (hge.trans_lt (hover hstart))
  · exact .inl ((not_le.mp hstart).trans_le hle)

theorem split_disjoint (h : cv.split t0 t1 = .ok folds) (hf : fold ∈ folds) (hi : i ∈ fold.train)
    (hj : j ∈ fold.test) {s₀ s₁ u₀ u₁ : τ} (hs₀ : t0[i]? = some s₀) (hs₁ : t1[i]? = some s₁)
    (hu₀ : t0[j]? = some u₀) (hu₁ : t1[j]? = some u₁) : s₁ < u₀ ∨ u₁ < s₀ := by
  obtain ⟨-, -, -, rfl⟩ := split_ok h
  obtain ⟨test, -, rfl⟩ := List.mem_map.mp hf
  exact fold_disjoint hi hj hs₀ hs₁ hu₀ hu₁

end PurgedKFold

end MarketTrader.Backtest
