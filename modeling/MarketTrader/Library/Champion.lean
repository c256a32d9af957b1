import MarketTrader.Library.Keyed
import Mathlib.Data.List.Induction
import Mathlib.Order.Defs.LinearOrder

namespace MarketTrader.Library

variable {α κ ρ : Type}

def challenge (better : α → α → Bool) : Option α → α → Option α
  | none, a => some a
  | some b, a => if better b a then some a else some b

/-- The entry left after one pass: the first one, until a later one is better than it. -/
def champion (better : α → α → Bool) (l : List α) : Option α := l.foldl (challenge better) none

/-- The first entry with the greatest rank. -/
def firstMax [LinearOrder ρ] (rank : α → ρ) (l : List α) : Option α :=
  champion (fun b a ↦ rank b < rank a) l

@[simp] theorem champion_nil (better : α → α → Bool) : champion better [] = none := rfl

theorem champion_append_singleton (better : α → α → Bool) (l : List α) (a : α) :
    champion better (l ++ [a]) = challenge better (champion better l) a := by
  simp [champion]

theorem champion_mem {better : α → α → Bool} {l : List α} {a : α}
    (h : champion better l = some a) : a ∈ l := by
  induction l using List.reverseRecOn generalizing a with
  | nil => simp at h
  | append_singleton l b ih =>
    rw [champion_append_singleton] at h
    rw [List.mem_append, List.mem_singleton]
    cases hc : champion better l with
    | none =>
      rw [hc, challenge, Option.some_inj] at h
      exact .inr h.symm
    | some c =>
      rw [hc, challenge] at h
      split at h <;> cases h
      · exact .inr rfl
      · exact .inl (ih hc)

theorem champion_last {better : α → α → Bool} {l : List α} {a : α} (h : ∀ b ∈ l, better b a) :
    champion better (l ++ [a]) = some a := by
  rw [champion_append_singleton]
  cases hc : champion better l with
  | none => rfl
  | some b => rw [challenge, if_pos (h b (champion_mem hc))]

theorem champion_eq_none {better : α → α → Bool} {l : List α} :
    champion better l = none ↔ l = [] := by
  refine ⟨fun h ↦ ?_, fun h ↦ h ▸ rfl⟩
  cases l using List.reverseRecOn with
  | nil => rfl
  | append_singleton l b =>
    rw [champion_append_singleton] at h
    cases hc : champion better l with
    | none => simp [hc, challenge] at h
    | some c =>
      rw [hc, challenge] at h
      split at h <;> cases h

theorem champion_map {β : Type} {better : α → α → Bool} {better' : β → β → Bool} {f : α → β}
    (h : ∀ a b, better' (f a) (f b) = better a b) (l : List α) :
    champion better' (l.map f) = (champion better l).map f := by
  induction l using List.reverseRecOn with
  | nil => rfl
  | append_singleton l a ih =>
    rw [List.map_append, List.map_singleton, champion_append_singleton,
      champion_append_singleton, ih]
    cases champion better l with
    | none => rfl
    | some b =>
      simp only [challenge, Option.map_some, h]
      split <;> rfl

variable [LinearOrder ρ] {rank : α → ρ} {l : List α} {a b : α}

theorem le_of_firstMax (h : firstMax rank l = some a) (hb : b ∈ l) : rank b ≤ rank a := by
  induction l using List.reverseRecOn generalizing a b with
  | nil => simp at hb
  | append_singleton l c ih =>
    rw [firstMax, champion_append_singleton] at h
    rw [List.mem_append, List.mem_singleton] at hb
    cases hd : champion (fun b a ↦ decide (rank b < rank a)) l with
    | none =>
      rw [hd, challenge, Option.some_inj] at h
      rw [champion_eq_none] at hd
      subst hd h
      rcases hb with hb | rfl
      · simp at hb
      · exact le_rfl
    | some d =>
      rw [hd, challenge] at h
      split at h <;> cases h
      · next hlt =>
        rcases hb with hb | rfl
        · exact (ih hd hb).trans (of_decide_eq_true hlt).le
        · exact le_rfl
      · next hlt =>
        rcases hb with hb | rfl
        · exact ih hd hb
        · exact not_lt.mp (by simpa using hlt)

theorem firstMax_of_lt (ha : a ∈ l) (h : ∀ b ∈ l, b ≠ a → rank b < rank a) :
    firstMax rank l = some a := by
  cases hc : firstMax rank l with
  | none =>
    rw [firstMax, champion_eq_none] at hc
    simp [hc] at ha
  | some c =>
    by_contra hne
    have hlt := h c (champion_mem hc) (fun he ↦ hne (he ▸ rfl))
    exact absurd (le_of_firstMax hc ha) (not_le.mpr hlt)

/-- The first of the greatest outranks what stands before it, and no later entry outranks it. -/
theorem firstMax_eq_some_iff : firstMax rank l = some a ↔ ∃ l₁ l₂, l = l₁ ++ a :: l₂ ∧
    (∀ b ∈ l₁, rank b < rank a) ∧ ∀ b ∈ l₂, rank b ≤ rank a := by
  constructor
  · intro h
    induction l using List.reverseRecOn generalizing a with
    | nil => cases h
    | append_singleton l c ih =>
      rw [firstMax, champion_append_singleton] at h
      cases hd : firstMax rank l with
      | none =>
        have hnil : l = [] := champion_eq_none.mp hd
        rw [firstMax] at hd
        rw [hd, challenge, Option.some_inj] at h
        subst h hnil
        exact ⟨[], [], rfl, by simp, by simp⟩
      | some d =>
        have hle := fun b (hb : b ∈ l) ↦ le_of_firstMax hd hb
        obtain ⟨l₁, l₂, hl, h₁, h₂⟩ := ih hd
        rw [firstMax] at hd
        rw [hd, challenge] at h
        split at h <;> cases h
        · next hlt =>
          refine ⟨l, [], rfl, ?_, by simp⟩
          intro b hb
          exact (hle b hb).trans_lt (of_decide_eq_true hlt)
        · next hlt =>
          refine ⟨l₁, l₂ ++ [c], by simp [hl], h₁, ?_⟩
          intro b hb
          rcases List.mem_append.mp hb with hb | hb
          · exact h₂ b hb
          · rw [List.mem_singleton.mp hb]
            exact not_lt.mp (by simpa using hlt)
  · rintro ⟨l₁, l₂, rfl, h₁, h₂⟩
    have hfirst : firstMax rank (l₁ ++ [a]) = some a := by
      rw [firstMax, champion_append_singleton]
      cases hc : champion (fun b a ↦ decide (rank b < rank a)) l₁ with
      | none => rfl
      | some c => simp [challenge, h₁ c (champion_mem hc)]
    induction l₂ using List.reverseRecOn with
    | nil => exact hfirst
    | append_singleton l₂ c ih =>
      have ih := ih fun b hb ↦ h₂ b (List.mem_append_left _ hb)
      have hc := h₂ c (List.mem_append_right _ (List.mem_singleton_self c))
      rw [← List.cons_append, ← List.append_assoc, firstMax, champion_append_singleton]
      rw [firstMax] at ih
      simp [ih, challenge, not_lt.mpr hc]

theorem firstMax_filter {p : α → Bool} (h : firstMax rank l = some a) (hp : p a) :
    firstMax rank (l.filter p) = some a := by
  obtain ⟨l₁, l₂, rfl, h₁, h₂⟩ := firstMax_eq_some_iff.mp h
  refine firstMax_eq_some_iff.mpr ⟨l₁.filter p, l₂.filter p, by simp [hp], ?_, ?_⟩
  · intro b hb
    exact h₁ b (List.mem_of_mem_filter hb)
  · intro b hb
    exact h₂ b (List.mem_of_mem_filter hb)

section Grouped

variable [DecidableEq κ] {key : α → κ} {better : α → α → Bool}

def contest (better : α → α → Bool) (d : Keyed key) (a : α) : Keyed key :=
  match d.find? (key a) with
  | none => d.insert a
  | some b => if better b a then d.insert a else d

/-- One pass over a list that keeps a champion for each key. -/
def champions (key : α → κ) (better : α → α → Bool) (l : List α) : Keyed key :=
  l.foldl (contest better) .empty

theorem find?_contest (d : Keyed key) (a : α) (k : κ) :
    (contest better d a).find? k =
      if key a = k then challenge better (d.find? k) a else d.find? k := by
  by_cases hk : key a = k
  · subst hk
    simp only [contest, if_true]
    cases hd : d.find? (key a) with
    | none => simp [challenge, Keyed.find?_insert]
    | some b =>
      by_cases hb : better b a
      · simp [challenge, hb, Keyed.find?_insert]
      · simp [challenge, hb, hd]
  · simp only [contest, if_neg hk]
    cases hd : d.find? (key a) with
    | none => simp [Keyed.find?_insert, hk]
    | some b =>
      by_cases hb : better b a
      · simp [hb, Keyed.find?_insert, hk]
      · simp [hb]

/-- The champion of a key depends on the entries with that key alone. -/
theorem find?_champions (l : List α) (k : κ) :
    (champions key better l).find? k = champion better (l.filter (key · = k)) := by
  induction l using List.reverseRecOn with
  | nil => rfl
  | append_singleton l a ih =>
    have he : champions key better (l ++ [a]) = contest better (champions key better l) a := by
      simp [champions]
    rw [he, find?_contest, List.filter_append]
    by_cases hk : key a = k
    · rw [List.filter_singleton, decide_eq_true hk, cond_true, champion_append_singleton, ← ih,
        if_pos hk]
    · rw [List.filter_singleton, decide_eq_false hk, cond_false, List.append_nil, if_neg hk, ih]

theorem mem_champions {l : List α} {a : α} :
    a ∈ (champions key better l).toList ↔ champion better (l.filter (key · = key a)) = some a := by
  rw [← find?_champions, Keyed.find?_eq_some]
  simp

theorem mem_of_mem_champions {l : List α} {a : α} (h : a ∈ (champions key better l).toList) :
    a ∈ l := (List.mem_filter.mp (champion_mem (mem_champions.mp h))).1

theorem mem_keys_champions {l : List α} {k : κ} :
    k ∈ (champions key better l).keys ↔ ∃ a ∈ l, key a = k := by
  rw [← not_iff_not, ← Keyed.find?_eq_none, find?_champions, champion_eq_none]
  simp [List.filter_eq_nil_iff]

theorem length_champions (l : List α) :
    (champions key better l).toList.length = (l.map key).toFinset.card := by
  have hkeys : (champions key better l).keys.toFinset = (l.map key).toFinset := by
    ext k
    rw [List.mem_toFinset, List.mem_toFinset, mem_keys_champions, List.mem_map]
  rw [Keyed.length_eq_card_keys, hkeys]

/-- No entry is dropped exactly when no two share a key. -/
theorem length_champions_eq_iff {l : List α} :
    (champions key better l).toList.length = l.length ↔ (l.map key).Nodup := by
  rw [length_champions, ← List.length_map key]
  exact Multiset.toFinset_card_eq_card_iff_nodup (m := (l.map key : Multiset κ))

theorem champions_append_singleton (l : List α) (a : α) :
    champions key better (l ++ [a]) = contest better (champions key better l) a := by
  simp [champions]

theorem toList_champions_append {l : List α} {a : α} (h : ∀ b ∈ l, key b ≠ key a) :
    (champions key better (l ++ [a])).toList = (champions key better l).toList ++ [a] := by
  have hk : key a ∉ (champions key better l).keys := fun hm ↦ by
    obtain ⟨b, hb, he⟩ := mem_keys_champions.mp hm
    exact h b hb he
  rw [champions_append_singleton, contest, Keyed.find?_eq_none.mpr hk]
  exact upsert_of_not_mem hk

theorem toList_champions_of_nodup {l : List α} (h : (l.map key).Nodup) :
    (champions key better l).toList = l := by
  induction l using List.reverseRecOn with
  | nil => rfl
  | append_singleton l a ih =>
    rw [List.map_append, List.nodup_append] at h
    rw [toList_champions_append, ih h.1]
    intro b hb he
    exact h.2.2 (key b) (List.mem_map_of_mem hb) (key a) (by simp) he

theorem filter_champions {p : α → Bool} (h : ∀ a b, key a = key b → p a = p b) (l : List α) :
    (champions key better l).toList.filter p = (champions key better (l.filter p)).toList := by
  induction l using List.reverseRecOn with
  | nil => rfl
  | append_singleton l a ih =>
    have hins : ((champions key better l).insert a).toList.filter p =
        if p a then upsert key a (champions key better (l.filter p)).toList
        else (champions key better (l.filter p)).toList := by
      rw [Keyed.toList_insert, filter_upsert_of_key _ fun b _ hb ↦ h b a hb, ih]
    rw [champions_append_singleton, contest, List.filter_append, List.filter_singleton]
    cases ha : p a with
    | false =>
      rw [cond_false, List.append_nil]
      split
      · rw [hins, ha]
        rfl
      · split
        · rw [hins, ha]
          rfl
        · exact ih
    | true =>
      have hf : (l.filter p).filter (key · = key a) = l.filter (key · = key a) := by
        rw [List.filter_filter]
        refine List.filter_congr fun b _ ↦ ?_
        by_cases hb : key b = key a
        · simp [hb, h b a hb, ha]
        · simp [hb]
      rw [cond_true, champions_append_singleton, contest, find?_champions, find?_champions, hf]
      split
      · rw [hins, ha]
        rfl
      · split
        · rw [hins, ha]
          rfl
        · exact ih

theorem toList_champions_map {f : α → α}
    (hk : ∀ a, key (f a) = key a) (hb : ∀ a b, better (f a) (f b) = better a b) (l : List α) :
    (champions key better (l.map f)).toList = (champions key better l).toList.map f := by
  induction l using List.reverseRecOn with
  | nil => rfl
  | append_singleton l a ih =>
    have hf : (champions key better (l.map f)).find? (key (f a)) =
        ((champions key better l).find? (key a)).map f := by
      rw [find?_champions, find?_champions, List.filter_map, champion_map hb, hk]
      simp [Function.comp_def, hk]
    rw [List.map_append, List.map_singleton, champions_append_singleton, champions_append_singleton,
      contest, contest, hf]
    cases (champions key better l).find? (key a) with
    | none => rw [Option.map_none, Keyed.toList_insert, Keyed.toList_insert, ih, upsert_map hk]
    | some b =>
      simp only [Option.map_some, hb]
      split
      · rw [Keyed.toList_insert, Keyed.toList_insert, ih, upsert_map hk]
      · exact ih

end Grouped

/-- Stable sort by a key. -/
def sortBy (key : α → ρ) (l : List α) : List α := l.insertionSort (fun a b ↦ key a ≤ key b)

theorem sortBy_perm (key : α → ρ) (l : List α) : (sortBy key l).Perm l :=
  List.perm_insertionSort _ l

@[simp] theorem mem_sortBy {key : α → ρ} : a ∈ sortBy key l ↔ a ∈ l := (sortBy_perm key l).mem_iff

theorem sortBy_pairwise (key : α → ρ) (l : List α) :
    (sortBy key l).Pairwise (fun a b ↦ key a ≤ key b) :=
  haveI : Std.Total (fun a b : α ↦ key a ≤ key b) := ⟨fun a b ↦ le_total (key a) (key b)⟩
  haveI : IsTrans α (fun a b ↦ key a ≤ key b) := ⟨fun _ _ _ ↦ le_trans⟩
  List.pairwise_insertionSort _ l

section Stable

variable {r : α → α → Prop} [DecidableRel r]

theorem orderedInsert_of_forall {a : α} {l : List α} (h : ∀ b ∈ l, r a b) :
    l.orderedInsert r a = a :: l := by
  cases l with
  | nil => rfl
  | cons b l => rw [List.orderedInsert_cons, if_pos (h b List.mem_cons_self)]

theorem filter_orderedInsert [IsTrans α r] {a : α} {l : List α} {p : α → Bool}
    (hs : l.Pairwise r) :
    (l.orderedInsert r a).filter p =
      if p a then (l.filter p).orderedInsert r a else l.filter p := by
  induction l with
  | nil => cases ha : p a <;> simp [ha]
  | cons b l ih =>
    rw [List.pairwise_cons] at hs
    have ih := ih hs.2
    rw [List.orderedInsert_cons]
    split
    · next hab =>
      have hall : ∀ c ∈ (b :: l).filter p, r a c := by
        intro c hc
        rcases List.mem_cons.mp (List.mem_of_mem_filter hc) with rfl | hc
        · exact hab
        · exact IsTrans.trans _ _ _ hab (hs.1 c hc)
      rw [orderedInsert_of_forall hall]
      cases ha : p a <;> simp [ha]
    · next hab =>
      cases ha : p a <;> cases hb : p b <;> simp [ih, ha, hb, hab]

theorem orderedInsert_append_singleton {a x : α} {l : List α} (h : r a x) :
    (l ++ [x]).orderedInsert r a = l.orderedInsert r a ++ [x] := by
  induction l with
  | nil => simp [h]
  | cons b l ih =>
    simp only [List.cons_append, List.orderedInsert_cons, ih]
    split <;> simp

end Stable

theorem sortBy_cons (key : α → ρ) (a : α) (l : List α) :
    sortBy key (a :: l) = (sortBy key l).orderedInsert (fun a b ↦ key a ≤ key b) a := rfl

theorem filter_sortBy (key : α → ρ) (l : List α) (p : α → Bool) :
    (sortBy key l).filter p = sortBy key (l.filter p) := by
  have : IsTrans α (fun a b ↦ key a ≤ key b) := ⟨fun _ _ _ ↦ le_trans⟩
  induction l with
  | nil => rfl
  | cons a l ih =>
    rw [sortBy_cons, filter_orderedInsert (sortBy_pairwise key l), ih]
    cases ha : p a with
    | true =>
      rw [List.filter_cons_of_pos ha, sortBy_cons]
      rfl
    | false =>
      rw [List.filter_cons_of_neg (by simp [ha])]
      rfl

theorem sortBy_map {key : α → ρ} {f : α → α} (h : ∀ a, key (f a) = key a) (l : List α) :
    sortBy key (l.map f) = (sortBy key l).map f :=
  (List.map_insertionSort (fun a b ↦ key a ≤ key b) (fun a b ↦ key a ≤ key b) f l
    fun a _ b _ ↦ by simp [h]).symm

theorem sortBy_of_pairwise {key : α → ρ} {l : List α}
    (h : l.Pairwise (fun a b ↦ key a ≤ key b)) : sortBy key l = l :=
  List.Pairwise.insertionSort_eq h

/-- Sorting moves no two entries of one rank past each other. -/
theorem filter_key_sortBy (key : α → ρ) (l : List α) (k : ρ) :
    (sortBy key l).filter (key · = k) = l.filter (key · = k) := by
  rw [filter_sortBy]
  apply sortBy_of_pairwise
  apply List.pairwise_of_forall_mem_list
  intro a ha b hb
  simp only [List.mem_filter, decide_eq_true_eq] at ha hb
  rw [ha.2, hb.2]

/-- Where no two entries have one rank, the order in which they come does not matter. -/
theorem sortBy_eq_of_perm {key : α → ρ} {l l' : List α} (h : l.Perm l')
    (hk : ∀ a ∈ l, ∀ b ∈ l, key a = key b → a = b) : sortBy key l = sortBy key l' := by
  have hp : (sortBy key l).Perm (sortBy key l') :=
    (sortBy_perm key l).trans (h.trans (sortBy_perm key l').symm)
  refine hp.eq_of_pairwise ?_ (sortBy_pairwise key l) (sortBy_pairwise key l')
  intro a b ha hb hab hba
  have hb' : b ∈ l := h.mem_iff.mpr (mem_sortBy.mp hb)
  exact hk a (mem_sortBy.mp ha) b hb' (le_antisymm hab hba)

theorem sortBy_append_singleton {key : α → ρ} {l : List α} {a : α}
    (h : ∀ b ∈ l, key b ≤ key a) : sortBy key (l ++ [a]) = sortBy key l ++ [a] := by
  induction l with
  | nil => rfl
  | cons b l ih =>
    have hb : key b ≤ key a := h b List.mem_cons_self
    rw [List.cons_append, sortBy_cons, sortBy_cons, ih fun c hc ↦ h c (List.mem_cons_of_mem _ hc)]
    exact orderedInsert_append_singleton hb

/-- In an ordered list those of the highest rank come last. -/
theorem eq_append_of_pairwise {rank : α → ρ} {l : List α} {top : ρ}
    (h : l.Pairwise (fun a b ↦ rank a ≤ rank b)) (ht : ∀ a ∈ l, rank a ≤ top) :
    l = l.filter (rank · < top) ++ l.filter (top = rank ·) := by
  induction l with
  | nil => rfl
  | cons a l ih =>
    rw [List.pairwise_cons] at h
    rw [List.forall_mem_cons] at ht
    have ih := ih h.2 ht.2
    rcases ht.1.lt_or_eq with ha | ha
    · rw [List.filter_cons_of_pos (by simpa using ha), List.filter_cons_of_neg
        (by simpa using ha.ne'), List.cons_append, ← ih]
    · have hlow : l.filter (rank · < top) = [] := by
        rw [List.filter_eq_nil_iff]
        intro b hb hlt
        exact absurd (h.1 b hb) (not_le.mpr (ha ▸ of_decide_eq_true hlt))
      rw [List.filter_cons_of_neg (by simpa using ha.ge), List.filter_cons_of_pos
        (by simpa using ha.symm), hlow, List.nil_append]
      rw [hlow, List.nil_append] at ih
      rw [← ih]

end MarketTrader.Library
