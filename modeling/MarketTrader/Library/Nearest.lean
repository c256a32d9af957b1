import MarketTrader.Library.Champion

namespace MarketTrader.Library

variable {α ρ : Type} [LinearOrder ρ]

/-- The first `k` by a key, those that come first where keys are equal. -/
def nearest (key : α → ρ) (k : ℕ) (l : List α) : List α := (sortBy key l).take k

/-- An entry behind those whose key is no greater. -/
def place (key : α → ρ) (a : α) : List α → List α
  | [] => [a]
  | b :: l => if key b ≤ key a then b :: place key a l else a :: b :: l

/-- One more entry, for those that are nearest so far. -/
def keep (key : α → ρ) (k : ℕ) (best : List α) (a : α) : List α := (place key a best).take k

variable {key : α → ρ} {a b : α}

theorem orderedInsert_place (l : List α) :
    (place key a l).orderedInsert (fun a b ↦ key a ≤ key b) b =
      place key a (l.orderedInsert (fun a b ↦ key a ≤ key b) b) := by
  induction l with
  | nil => simp [place, List.orderedInsert_nil]
  | cons c l ih =>
    by_cases hca : key c ≤ key a
    · by_cases hbc : key b ≤ key c
      · have hba : key b ≤ key a := hbc.trans hca
        simp [place, hca, hbc, hba]
      · simp [place, hca, hbc, ih]
    · by_cases hbc : key b ≤ key c
      · by_cases hba : key b ≤ key a <;> simp [place, hca, hbc, hba]
      · have hba : ¬key b ≤ key a := fun h ↦ hca ((le_of_not_ge hbc).trans h)
        simp [place, hca, hbc, hba]

/-- The sort is stable: a last entry goes behind its equals. -/
theorem sortBy_concat (key : α → ρ) (l : List α) (a : α) :
    sortBy key (l ++ [a]) = place key a (sortBy key l) := by
  induction l with
  | nil => rfl
  | cons b l ih => rw [List.cons_append, sortBy_cons, sortBy_cons, ih, orderedInsert_place]

theorem take_place (k : ℕ) (l : List α) :
    (place key a l).take k = (place key a (l.take k)).take k := by
  induction l generalizing k with
  | nil => simp
  | cons b l ih =>
    cases k with
    | zero => simp
    | succ k =>
      rw [List.take_succ_cons, place, place]
      split
      · rw [List.take_succ_cons, List.take_succ_cons, ih]
      · rw [List.take_succ_cons, List.take_succ_cons]
        cases k with
        | zero => simp
        | succ k => simp [List.take_take]

theorem nearest_concat (key : α → ρ) (k : ℕ) (l : List α) (a : α) :
    nearest key k (l ++ [a]) = keep key k (nearest key k l) a := by
  rw [nearest, sortBy_concat, take_place]
  rfl

/-- What is nearest among all can be kept up to date entry by entry. -/
theorem nearest_append (key : α → ρ) (k : ℕ) (l l' : List α) :
    nearest key k (l ++ l') = l'.foldl (keep key k) (nearest key k l) := by
  induction l' using List.reverseRecOn with
  | nil => simp
  | append_singleton l' a ih =>
    rw [← List.append_assoc, nearest_concat, ih, List.foldl_append, List.foldl_cons,
      List.foldl_nil]

/-- The nearest are in order, and no other entry is nearer than one of them. -/
theorem nearest_spec (key : α → ρ) (k : ℕ) (l : List α) :
    (nearest key k l).Pairwise (fun a b ↦ key a ≤ key b) ∧
      (nearest key k l).length = min k l.length ∧
      ∃ rest, (nearest key k l ++ rest).Perm l ∧
        ∀ a ∈ nearest key k l, ∀ b ∈ rest, key a ≤ key b := by
  have hs : ((sortBy key l).take k ++ (sortBy key l).drop k).Pairwise
      (fun a b ↦ key a ≤ key b) := by
    rw [List.take_append_drop]
    exact sortBy_pairwise key l
  rw [List.pairwise_append] at hs
  refine ⟨hs.1, ?_, (sortBy key l).drop k, ?_, hs.2.2⟩
  · rw [nearest, List.length_take, (sortBy_perm key l).length_eq]
  · rw [nearest, List.take_append_drop]
    exact sortBy_perm key l

end MarketTrader.Library
