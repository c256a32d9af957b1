import Mathlib.Data.Int.Notation
import Mathlib.Data.List.Basic
import Mathlib.Tactic.Common

namespace MarketTrader.Library

variable {α β : Type}

/-- A position as Python slices read it: counted from the end when negative, and clipped. -/
def clipIndex (n : ℕ) (i : ℤ) : ℕ := min n ((if i < 0 then i + n else i).toNat)

/-- `l[start:stop]`. -/
def iloc (l : List α) (start stop : ℤ) : List α :=
  (l.drop (clipIndex l.length start)).take
    (clipIndex l.length stop - clipIndex l.length start)

/-- `l[i]`. -/
def ilocAt (l : List α) (i : ℤ) : Option α :=
  let j := if i < 0 then i + l.length else i
  if j < 0 then none else l[j.toNat]?

/-- The last `n` entries, or, for a negative `n`, all but as many of the first. -/
def tailOf (n : ℤ) (l : List α) : List α := if n = 0 then [] else iloc l (-n) l.length

theorem mem_of_ilocAt {l : List α} {i : ℤ} {a : α} (h : ilocAt l i = some a) : a ∈ l := by
  have hj : ∃ j : ℤ, ilocAt l i = if j < 0 then none else l[j.toNat]? := ⟨_, rfl⟩
  obtain ⟨j, hj⟩ := hj
  rw [hj] at h
  split at h
  · cases h
  · exact List.mem_of_getElem? h

theorem iloc_add (l : List α) {start : ℕ} (hs : start ≤ l.length) {n : ℤ} (hn : 0 ≤ n) :
    iloc l start (start + n) = (l.drop start).take n.toNat := by
  have h₁ : clipIndex l.length start = start := by
    unfold clipIndex
    split <;> omega
  have h₂ : clipIndex l.length (start + n) = min l.length (start + n.toNat) := by
    unfold clipIndex
    split <;> omega
  rw [iloc, h₁, h₂, List.take_eq_take_iff, List.length_drop]
  omega

theorem iloc_map (f : α → β) (l : List α) (start stop : ℤ) :
    iloc (l.map f) start stop = (iloc l start stop).map f := by
  simp [iloc, List.map_drop, List.map_take]

theorem mem_of_mem_iloc {l : List α} {start stop : ℤ} {a : α} (h : a ∈ iloc l start stop) :
    a ∈ l := List.mem_of_mem_drop (List.mem_of_mem_take h)

theorem mem_of_mem_tailOf {n : ℤ} {l : List α} {a : α} (h : a ∈ tailOf n l) : a ∈ l := by
  unfold tailOf at h
  split at h
  · cases h
  · exact mem_of_mem_iloc h

theorem tailOf_sublist (n : ℤ) (l : List α) : (tailOf n l).Sublist l := by
  unfold tailOf
  split
  · exact List.nil_sublist l
  · exact (List.take_sublist _ _).trans (List.drop_sublist _ _)

theorem length_tailOf {l : List α} {l' : List β} (h : l.length = l'.length) (n : ℤ) :
    (tailOf n l).length = (tailOf n l').length := by
  unfold tailOf
  split
  · rfl
  · simp only [iloc, List.length_take, List.length_drop, h]

theorem mem_take_of_mem_iloc {l : List α} {start : ℤ} {stop : ℕ} {a : α}
    (h : a ∈ iloc l start stop) : a ∈ l.take stop := by
  have hc : clipIndex l.length stop = min l.length stop := by
    unfold clipIndex
    split <;> omega
  rw [iloc, ← List.drop_take, hc] at h
  have hm := List.mem_of_mem_drop h
  rwa [Nat.min_comm, ← List.take_eq_take_min] at hm

theorem iloc_eq_cons (l : List α) (start stop : ℕ) (h : start < stop) (hs : start < l.length) :
    ∃ rest, iloc l start stop = l[start] :: rest ∧ ∀ b ∈ rest, b ∈ l.drop (start + 1) := by
  obtain ⟨n, hn⟩ : ∃ n, min l.length stop - start = n + 1 :=
    ⟨min l.length stop - start - 1, by omega⟩
  have hc : ∀ i : ℕ, clipIndex l.length i = min l.length i := fun i ↦ by
    unfold clipIndex
    split <;> omega
  have hmin : min l.length start = start := by omega
  refine ⟨(l.drop (start + 1)).take n, ?_, fun b hb ↦ List.mem_of_mem_take hb⟩
  rw [iloc, hc, hc, hmin, hn, List.drop_eq_getElem_cons hs, List.take_succ_cons]

theorem iloc_natCast (l : List α) {start stop : ℕ} (h : stop ≤ l.length) :
    iloc l start stop = (l.drop start).take (stop - start) := by
  have hc : ∀ i : ℕ, clipIndex l.length i = min l.length i := fun i ↦ by
    unfold clipIndex
    split <;> omega
  rw [iloc, hc, hc, Nat.min_eq_right h]
  rcases Nat.le_total start l.length with hs | hs
  · rw [Nat.min_eq_right hs]
  · rw [Nat.min_eq_left hs, List.drop_length, List.drop_eq_nil_of_le hs]
    simp

theorem length_iloc_natCast (l : List α) {start stop : ℕ} (h : stop ≤ l.length) :
    (iloc l start stop).length = stop - start := by
  rw [iloc_natCast l h, List.length_take, List.length_drop]
  omega

theorem take_append_iloc (l : List α) {start stop : ℕ} (h : start ≤ stop)
    (hs : stop ≤ l.length) : l.take start ++ iloc l start stop = l.take stop := by
  rw [iloc_natCast l hs, ← List.drop_take]
  have ht : l.take start = (l.take stop).take start := by
    rw [List.take_take, Nat.min_eq_left h]
  rw [ht, List.take_append_drop]

end MarketTrader.Library
