import Mathlib.Algebra.BigOperators.Group.List.Basic
import Mathlib.Data.List.Induction
import Mathlib.Order.Interval.Set.UnorderedInterval
import Mathlib.Tactic.Linarith
import Mathlib.Tactic.Positivity
import Mathlib.Tactic.Ring

namespace MarketTrader.Library

variable {α : Type} [Field α] [LinearOrder α]

structure Fill (α : Type) where
  /-- What comes in, or with a minus sign what goes out. -/
  qty : α
  price : α

structure Stake (α : Type) where
  qty : α
  avgPrice : α

def total (fills : List (Fill α)) : α := (fills.map Fill.qty).sum

/-- The fills after the last time at which they summed to nothing. -/
def sinceFlat (fills : List (Fill α)) : List (Fill α) :=
  fills.foldl (fun l f ↦ if total (l ++ [f]) = 0 then [] else l ++ [f]) []

omit [LinearOrder α] in
theorem total_append (l l' : List (Fill α)) : total (l ++ l') = total l + total l' := by
  rw [total, List.map_append, List.sum_append, total, total]

theorem sinceFlat_append_singleton (fills : List (Fill α)) (f : Fill α) :
    sinceFlat (fills ++ [f]) =
      if total (sinceFlat fills ++ [f]) = 0 then [] else sinceFlat fills ++ [f] := by
  rw [sinceFlat, List.foldl_append]
  rfl

theorem total_sinceFlat (fills : List (Fill α)) : total (sinceFlat fills) = total fills := by
  induction fills using List.reverseRecOn with
  | nil => rfl
  | append_singleton fills f ih =>
    have hsum : total (sinceFlat fills ++ [f]) = total (fills ++ [f]) := by
      rw [total_append, total_append, ih]
    rw [sinceFlat_append_singleton]
    split
    · next h =>
      rw [← hsum, h]
      rfl
    · exact hsum

theorem mem_sinceFlat_append_singleton {fills : List (Fill α)} {f g : Fill α}
    (h : total (fills ++ [f]) ≠ 0) :
    g ∈ sinceFlat (fills ++ [f]) ↔ g ∈ sinceFlat fills ∨ g = f := by
  have hsum : total (sinceFlat fills ++ [f]) ≠ 0 := by
    rwa [total_append, total_sinceFlat, ← total_append]
  rw [sinceFlat_append_singleton, if_neg hsum, List.mem_append, List.mem_singleton]

namespace Stake

/-- More on the same side moves the average. Less of it leaves the average, and a change of sides
starts it anew. -/
def absorb : Option (Stake α) → Fill α → Option (Stake α)
  | none, f => if f.qty = 0 then none else some ⟨f.qty, f.price⟩
  | some s, f =>
    if s.qty + f.qty = 0 then none
    else if 0 < s.qty ↔ 0 < f.qty then
      some ⟨s.qty + f.qty, (s.avgPrice * s.qty + f.price * f.qty) / (s.qty + f.qty)⟩
    else some ⟨s.qty + f.qty, if 0 < s.qty + f.qty ↔ 0 < s.qty then s.avgPrice else f.price⟩

def ofFills (fills : List (Fill α)) : Option (Stake α) := fills.foldl absorb none

theorem ofFills_append_singleton (fills : List (Fill α)) (f : Fill α) :
    ofFills (fills ++ [f]) = absorb (ofFills fills) f := by
  rw [ofFills, List.foldl_append]
  rfl

theorem qty_absorb (s : Option (Stake α)) (f : Fill α) :
    ((absorb s f).map qty).getD 0 = (s.map qty).getD 0 + f.qty := by
  cases s with
  | none =>
    simp only [absorb]
    split
    · next h => simp [h]
    · simp
  | some s =>
    simp only [absorb]
    split
    · next h => simp [h]
    · split <;> rfl

theorem absorb_eq_none {s : Option (Stake α)} {f : Fill α} :
    absorb s f = none ↔ (s.map qty).getD 0 + f.qty = 0 := by
  cases s with
  | none =>
    simp only [absorb]
    split <;> simp [*]
  | some s =>
    simp only [absorb]
    split
    · next h => simp [h]
    · next h => split <;> simp [h]

theorem qty_ofFills (fills : List (Fill α)) : ((ofFills fills).map qty).getD 0 = total fills := by
  induction fills using List.reverseRecOn with
  | nil => rfl
  | append_singleton fills f ih =>
    rw [ofFills_append_singleton, qty_absorb, ih, total_append]
    simp [total]

/-- There is no stake exactly when the fills sum to nothing. -/
theorem ofFills_eq_none {fills : List (Fill α)} : ofFills fills = none ↔ total fills = 0 := by
  cases fills using List.reverseRecOn with
  | nil => simp [ofFills, total]
  | append_singleton fills f =>
    rw [ofFills_append_singleton, absorb_eq_none, qty_ofFills, total_append]
    simp [total]

variable [IsStrictOrderedRing α]

theorem mean_mem_uIcc {a b q r : α} (hq : q + r ≠ 0) (hs : 0 < q ↔ 0 < r) :
    (a * q + b * r) / (q + r) ∈ Set.uIcc a b := by
  have hpos : ∀ {q r : α}, 0 ≤ q → 0 ≤ r → q + r ≠ 0 →
      (a * q + b * r) / (q + r) ∈ Set.uIcc a b := by
    intro q r hq hr hne
    have hsum : 0 < q + r := lt_of_le_of_ne (add_nonneg hq hr) hne.symm
    rw [Set.mem_uIcc]
    rcases le_total a b with hab | hab
    · left
      rw [le_div_iff₀ hsum, div_le_iff₀ hsum]
      constructor <;> nlinarith
    · right
      rw [le_div_iff₀ hsum, div_le_iff₀ hsum]
      constructor <;> nlinarith
  by_cases h : 0 < q
  · exact hpos h.le (hs.mp h).le hq
  · have hr : r ≤ 0 := not_lt.mp (mt hs.mpr h)
    have hneg := hpos (neg_nonneg.mpr (not_lt.mp h)) (neg_nonneg.mpr hr)
      (by rwa [← neg_add, neg_ne_zero])
    have he : (a * -q + b * -r) / (-q + -r) = (a * q + b * r) / (q + r) := by
      rw [← neg_div_neg_eq]
      congr 1 <;> ring
    rwa [he] at hneg

theorem avgPrice_absorb {s s' : Stake α} {f : Fill α} (h : absorb (some s) f = some s') :
    s'.avgPrice ∈ Set.uIcc s.avgPrice f.price := by
  simp only [absorb] at h
  split at h
  · cases h
  · next hne =>
    split at h
    · next hs =>
      cases h
      exact mean_mem_uIcc hne hs
    · cases h
      dsimp only
      split
      · exact Set.left_mem_uIcc
      · exact Set.right_mem_uIcc

/-- The average lies between the prices of two of the fills since the stake was last flat. -/
theorem avgPrice_ofFills {fills : List (Fill α)} {s : Stake α} (h : ofFills fills = some s) :
    (∃ f ∈ sinceFlat fills, f.price ≤ s.avgPrice) ∧
      ∃ f ∈ sinceFlat fills, s.avgPrice ≤ f.price := by
  induction fills using List.reverseRecOn generalizing s with
  | nil => cases h
  | append_singleton fills f ih =>
    have hne : total (fills ++ [f]) ≠ 0 := by
      rw [Ne, ← ofFills_eq_none, h]
      exact Option.some_ne_none s
    have hmem : f ∈ sinceFlat (fills ++ [f]) := (mem_sinceFlat_append_singleton hne).mpr (.inr rfl)
    have hold : ∀ g ∈ sinceFlat fills, g ∈ sinceFlat (fills ++ [f]) := fun g hg ↦
      (mem_sinceFlat_append_singleton hne).mpr (.inl hg)
    rw [ofFills_append_singleton] at h
    cases hs : ofFills fills with
    | none =>
      rw [hs, absorb] at h
      split at h
      · cases h
      · cases h
        exact ⟨⟨f, hmem, le_rfl⟩, f, hmem, le_rfl⟩
    | some old =>
      rw [hs] at h
      obtain ⟨⟨lo, hlo, hlo'⟩, hi, hhi, hhi'⟩ := ih hs
      rcases Set.mem_uIcc.mp (avgPrice_absorb h) with ⟨hle, hle'⟩ | ⟨hle, hle'⟩
      · exact ⟨⟨lo, hold lo hlo, hlo'.trans hle⟩, f, hmem, hle'⟩
      · exact ⟨⟨f, hmem, hle⟩, hi, hold hi hhi, hle'.trans hhi'⟩

end Stake

end MarketTrader.Library
