import Mathlib.Algebra.BigOperators.Group.List.Basic
import Mathlib.Data.Finset.Card
import Mathlib.Data.List.Induction
import Mathlib.Data.List.Nodup
import Mathlib.Data.List.Sort
import Mathlib.Tactic.Common

namespace MarketTrader.Library

variable {α κ : Type}

theorem filterMap_map_sublist {α β γ : Type} {f : α → Option β} {g : β → γ} {k : α → γ}
    (h : ∀ a b, f a = some b → g b = k a) (l : List α) :
    ((l.filterMap f).map g).Sublist (l.map k) := by
  induction l with
  | nil => exact .slnil
  | cons a l ih =>
    cases hf : f a with
    | none => simpa [hf] using ih.cons (k a)
    | some b => simpa [hf, h a b hf] using ih.cons_cons (k a)

/-- A list whose entries have pairwise different keys, in the order of insertion. -/
structure Keyed (key : α → κ) where
  toList : List α
  nodup : (toList.map key).Nodup

namespace Keyed

variable {key : α → κ}

@[ext]
theorem ext {d d' : Keyed key} (h : d.toList = d'.toList) : d = d' := by
  cases d; cases d'; simpa using h

instance [DecidableEq α] : DecidableEq (Keyed key) := fun d d' ↦
  decidable_of_iff (d.toList = d'.toList) ⟨ext, fun h ↦ h ▸ rfl⟩

def empty : Keyed key := ⟨[], List.nodup_nil⟩

instance : Inhabited (Keyed key) := ⟨empty⟩

def keys (d : Keyed key) : List κ := d.toList.map key

def filter (d : Keyed key) (p : α → Bool) : Keyed key :=
  ⟨d.toList.filter p, d.nodup.sublist (List.filter_sublist.map key)⟩

@[simp] theorem toList_empty : (empty : Keyed key).toList = [] := rfl

@[simp] theorem toList_filter (d : Keyed key) (p : α → Bool) :
    (d.filter p).toList = d.toList.filter p := rfl

theorem mem_keys {d : Keyed key} {k : κ} : k ∈ d.keys ↔ ∃ a ∈ d.toList, key a = k := by
  simp [keys]

theorem eq_of_mem {d : Keyed key} {a b : α} (ha : a ∈ d.toList) (hb : b ∈ d.toList)
    (h : key a = key b) : a = b :=
  List.inj_on_of_nodup_map d.nodup ha hb h

end Keyed

variable [DecidableEq κ]

/-- Put `a` in the place of the entry with its key, or at the end when there is none. -/
def upsert (key : α → κ) (a : α) : List α → List α
  | [] => [a]
  | b :: l => if key b = key a then a :: l else b :: upsert key a l

theorem mem_upsert_self (key : α → κ) (a : α) (l : List α) : a ∈ upsert key a l := by
  induction l with
  | nil => simp [upsert]
  | cons b l ih =>
    simp only [upsert]
    split <;> simp [ih]

theorem mem_of_mem_upsert {key : α → κ} {a b : α} {l : List α} (h : b ∈ upsert key a l) :
    b = a ∨ b ∈ l := by
  induction l with
  | nil => simpa [upsert] using h
  | cons c l ih =>
    simp only [upsert] at h
    split at h <;> rw [List.mem_cons] at h <;> rcases h with rfl | h
    · exact .inl rfl
    · exact .inr (List.mem_cons_of_mem _ h)
    · exact .inr List.mem_cons_self
    · exact (ih h).imp_right (List.mem_cons_of_mem _)

theorem mem_upsert_of_ne {key : α → κ} {a b : α} {l : List α} (hb : b ∈ l)
    (hk : key b ≠ key a) : b ∈ upsert key a l := by
  induction l with
  | nil => simp at hb
  | cons c l ih =>
    simp only [upsert]
    rcases List.mem_cons.mp hb with rfl | hb
    · simp [hk]
    · split
      · exact List.mem_cons_of_mem _ hb
      · exact List.mem_cons_of_mem _ (ih hb)

theorem upsert_of_not_mem {key : α → κ} {a : α} {l : List α} (h : key a ∉ l.map key) :
    upsert key a l = l ++ [a] := by
  induction l with
  | nil => rfl
  | cons b l ih =>
    simp only [List.map_cons, List.mem_cons, not_or] at h
    simp [upsert, Ne.symm h.1, ih h.2]

theorem upsert_append {key : α → κ} {a : α} {l : List α} (h : key a ∉ l.map key) (l' : List α) :
    upsert key a (l ++ l') = l ++ upsert key a l' := by
  induction l with
  | nil => rfl
  | cons b l ih =>
    rw [List.map_cons, List.mem_cons, not_or] at h
    rw [List.cons_append, upsert, if_neg (Ne.symm h.1), ih h.2, List.cons_append]

theorem keys_upsert_of_mem {key : α → κ} {a : α} {l : List α} (h : key a ∈ l.map key) :
    (upsert key a l).map key = l.map key := by
  induction l with
  | nil => simp at h
  | cons b l ih =>
    simp only [upsert]
    split
    · next hb => simp [hb]
    · next hb =>
      have ht : key a ∈ l.map key := by
        simpa [List.mem_cons, Ne.symm hb] using h
      simp [ih ht]

theorem upsert_eq_map {key : α → κ} {a : α} {l : List α} (hn : (l.map key).Nodup)
    (h : key a ∈ l.map key) : upsert key a l = l.map (fun b ↦ if key b = key a then a else b) := by
  induction l with
  | nil => simp at h
  | cons b l ih =>
    rw [List.map_cons, List.nodup_cons] at hn
    simp only [upsert, List.map_cons]
    split
    · next hb =>
      have hid : l.map (fun c ↦ if key c = key a then a else c) = l := by
        refine (List.map_congr_left fun c hc ↦ if_neg ?_).trans (List.map_id l)
        intro he
        exact hn.1 (List.mem_map.mpr ⟨c, hc, he.trans hb.symm⟩)
      rw [hid]
    · next hb =>
      rw [ih hn.2 (by simpa [Ne.symm hb] using h)]

theorem upsert_map_of_key {β κ' : Type} [DecidableEq κ'] {key : α → κ} {key' : β → κ'} {f : α → β}
    {a : α} {l : List α} (h : ∀ b ∈ l, key' (f b) = key' (f a) ↔ key b = key a) :
    upsert key' (f a) (l.map f) = (upsert key a l).map f := by
  induction l with
  | nil => rfl
  | cons b l ih =>
    rw [List.forall_mem_cons] at h
    simp only [List.map_cons, upsert, h.1, ih h.2]
    split <;> rfl

theorem upsert_map {key : α → κ} {f : α → α} (h : ∀ a, key (f a) = key a) (a : α) (l : List α) :
    upsert key (f a) (l.map f) = (upsert key a l).map f :=
  upsert_map_of_key fun b _ ↦ by rw [h, h]

theorem upsert_nodup (key : α → κ) (a : α) {l : List α} (h : (l.map key).Nodup) :
    ((upsert key a l).map key).Nodup := by
  by_cases ha : key a ∈ l.map key
  · rwa [keys_upsert_of_mem ha]
  · rw [upsert_of_not_mem ha, List.map_append, List.nodup_append]
    refine ⟨h, by simp, fun k hk k' hk' he ↦ ha ?_⟩
    rw [List.map_singleton, List.mem_singleton] at hk'
    rwa [← hk', ← he]

theorem find?_upsert (key : α → κ) (a : α) (l : List α) (k : κ) :
    (upsert key a l).find? (key · = k) = if key a = k then some a else l.find? (key · = k) := by
  induction l with
  | nil => by_cases h : key a = k <;> simp [upsert, h]
  | cons b l ih =>
    simp only [upsert]
    by_cases hb : key b = key a
    · by_cases h : key a = k <;> simp [hb, h]
    · by_cases h : key a = k
      · have hbk : key b ≠ k := h ▸ hb
        rw [if_neg hb, List.find?_cons, ih]
        simp [hbk, h]
      · simp [hb, List.find?_cons, ih, h]

theorem upsert_comm {key : α → κ} {a c : α} {l : List α} (ha : key a ∈ l.map key)
    (hk : key c ≠ key a) :
    upsert key a (upsert key c l) = upsert key c (upsert key a l) := by
  induction l with
  | nil => simp at ha
  | cons b l ih =>
    by_cases hb : key b = key a
    · simp [upsert, hb, hk.symm]
    · have ha' : key a ∈ l.map key := by simpa [Ne.symm hb] using ha
      by_cases hc : key b = key c
      · simp [upsert, hc, hk]
      · simp [upsert, hb, hc, ih ha']

theorem upsert_upsert {key : α → κ} {a b : α} (l : List α) (h : key b = key a) :
    upsert key a (upsert key b l) = upsert key a l := by
  induction l with
  | nil => simp [upsert, h]
  | cons c l ih =>
    simp only [upsert, h]
    split
    · simp [upsert, h]
    · next hc => simp [upsert, hc, ih]

theorem filter_upsert {key : α → κ} {a : α} {l : List α} (p : α → Bool)
    (h : ∀ b ∈ l, key b = key a → p b = false) :
    ∃ l₁ l₂, l.filter p = l₁ ++ l₂ ∧
      (upsert key a l).filter p = l₁ ++ (if p a then [a] else []) ++ l₂ := by
  induction l with
  | nil => exact ⟨[], [], by simp, by simp [upsert, List.filter_cons]⟩
  | cons b l ih =>
    simp only [upsert]
    split
    · next hb =>
      refine ⟨[], l.filter p, by simp [h b List.mem_cons_self hb], ?_⟩
      by_cases ha : p a <;> simp [ha]
    · next hb =>
      obtain ⟨l₁, l₂, h₁, h₂⟩ := ih (fun c hc ↦ h c (List.mem_cons_of_mem _ hc))
      by_cases hp : p b
      · exact ⟨b :: l₁, l₂, by simp [hp, h₁], by simp [hp, h₂]⟩
      · exact ⟨l₁, l₂, by simp [hp, h₁], by simp [hp, h₂]⟩

theorem filter_upsert_of_key (key : α → κ) {a : α} {l : List α} {p : α → Bool}
    (h : ∀ b ∈ l, key b = key a → p b = p a) :
    (upsert key a l).filter p = if p a then upsert key a (l.filter p) else l.filter p := by
  induction l with
  | nil => cases ha : p a <;> simp [upsert, ha]
  | cons b l ih =>
    have ih := ih fun c hc ↦ h c (List.mem_cons_of_mem _ hc)
    simp only [upsert]
    by_cases hb : key b = key a
    · have hp := h b List.mem_cons_self hb
      cases ha : p a <;> simp [hb, hp, ha, upsert]
    · cases ha : p a <;> cases hp : p b <;> simp [hb, hp, ih, ha, upsert]

namespace Keyed

variable {key : α → κ}

def find? (d : Keyed key) (k : κ) : Option α := d.toList.find? (key · = k)

def insert (d : Keyed key) (a : α) : Keyed key :=
  ⟨upsert key a d.toList, upsert_nodup key a d.nodup⟩

def insertAll (d : Keyed key) (l : List α) : Keyed key := l.foldl insert d

def ofList (l : List α) : Keyed key := insertAll empty l

def erase (d : Keyed key) (k : κ) : Keyed key := d.filter (fun a ↦ key a ≠ k)

@[simp] theorem toList_insert (d : Keyed key) (a : α) :
    (d.insert a).toList = upsert key a d.toList := rfl

@[simp] theorem find?_empty (k : κ) : (empty : Keyed key).find? k = none := rfl

theorem find?_insert (d : Keyed key) (a : α) (k : κ) :
    (d.insert a).find? k = if key a = k then some a else d.find? k :=
  find?_upsert key a d.toList k

theorem mem_of_find? {d : Keyed key} {k : κ} {a : α} (h : d.find? k = some a) :
    a ∈ d.toList ∧ key a = k :=
  ⟨List.mem_of_find?_eq_some h, by simpa using List.find?_some h⟩

theorem find?_eq_some {d : Keyed key} {k : κ} {a : α} :
    d.find? k = some a ↔ a ∈ d.toList ∧ key a = k := by
  refine ⟨mem_of_find?, fun ⟨ha, hk⟩ ↦ ?_⟩
  cases h : d.find? k with
  | none =>
    have hn := List.find?_eq_none.mp h a ha
    simp [hk] at hn
  | some b =>
    obtain ⟨hb, hbk⟩ := mem_of_find? h
    rw [eq_of_mem hb ha (hbk.trans hk.symm)]

theorem find?_eq_none {d : Keyed key} {k : κ} : d.find? k = none ↔ k ∉ d.keys := by
  simp [find?, keys, List.find?_eq_none]

theorem mem_keys_iff_find? {d : Keyed key} {k : κ} : k ∈ d.keys ↔ ∃ a, d.find? k = some a := by
  simp only [mem_keys, find?_eq_some]

theorem mem_keys_insert {d : Keyed key} {a : α} {k : κ} :
    k ∈ (d.insert a).keys ↔ k = key a ∨ k ∈ d.keys := by
  rw [mem_keys_iff_find?, mem_keys_iff_find?, find?_insert]
  by_cases h : key a = k
  · simp [h]
  · simp [h, Ne.symm h]

theorem find?_filter {d : Keyed key} {p : α → Bool} {k : κ} :
    (d.filter p).find? k = (d.find? k).filter p := by
  ext a
  simp only [find?_eq_some, toList_filter, List.mem_filter, Option.filter_eq_some_iff]
  tauto

theorem mem_insert {d : Keyed key} {a b : α} :
    b ∈ (d.insert a).toList ↔ b = a ∨ (b ∈ d.toList ∧ key b ≠ key a) := by
  have h := find?_insert d a (key b)
  constructor
  · intro hb
    by_cases hk : key a = key b
    · exact .inl (eq_of_mem hb (mem_upsert_self key a d.toList) hk.symm)
    · exact (mem_of_mem_upsert hb).imp_right (fun hb ↦ ⟨hb, Ne.symm hk⟩)
  · rintro (rfl | ⟨hb, hk⟩)
    · exact mem_upsert_self key b d.toList
    · exact mem_upsert_of_ne hb hk

theorem insertAll_append (d : Keyed key) (l l' : List α) :
    d.insertAll (l ++ l') = (d.insertAll l).insertAll l' :=
  List.foldl_append

theorem ofList_append_singleton (l : List α) (a : α) :
    (ofList (l ++ [a]) : Keyed key) = (ofList l).insert a := insertAll_append empty l [a]

theorem insert_of_mem {d : Keyed key} {a : α} (h : a ∈ d.toList) : d.insert a = d := by
  have hu : ∀ l : List α, (l.map key).Nodup → a ∈ l → upsert key a l = l := by
    intro l hn ha
    induction l with
    | nil => simp at ha
    | cons b l ih =>
      rw [List.map_cons, List.nodup_cons] at hn
      simp only [upsert]
      rcases List.mem_cons.mp ha with rfl | ha
      · simp
      · have hb : key b ≠ key a := fun he ↦ hn.1 (he ▸ List.mem_map_of_mem ha)
        rw [if_neg hb, ih hn.2 ha]
  exact ext (hu d.toList d.nodup h)

theorem toList_insertAll {d : Keyed key} {l : List α}
    (h : ((d.toList ++ l).map key).Nodup) : (d.insertAll l).toList = d.toList ++ l := by
  induction l generalizing d with
  | nil => simp [insertAll]
  | cons a l ih =>
    have ha : key a ∉ d.toList.map key := by
      rw [List.map_append, List.map_cons] at h
      intro hm
      exact (List.nodup_append.mp h).2.2 _ hm _ List.mem_cons_self rfl
    have he : (d.insert a).toList = d.toList ++ [a] := upsert_of_not_mem ha
    have h' : (((d.insert a).toList ++ l).map key).Nodup := by
      rw [he]; simpa using h
    have ht := ih h'
    rw [he, List.append_assoc, List.singleton_append] at ht
    exact ht

theorem find?_erase (d : Keyed key) (k k' : κ) :
    (d.erase k).find? k' = if k = k' then none else d.find? k' := by
  rw [erase, find?_filter]
  split
  · next h =>
    subst h
    rw [Option.filter_eq_none_iff]
    intro a ha
    simp [(mem_of_find? ha).2]
  · next h =>
    cases ha : d.find? k' with
    | none => rfl
    | some a => simp [Option.filter, (mem_of_find? ha).2, Ne.symm h]

theorem sum_map_erase {μ : Type} [AddCommMonoid μ] (d : Keyed key) (k : κ) (f : α → μ) :
    ((d.erase k).toList.map f).sum + ((d.find? k).map f).getD 0 = (d.toList.map f).sum := by
  obtain ⟨l, hl⟩ := d
  simp only [erase, toList_filter, find?]
  induction l with
  | nil => simp
  | cons a l ih =>
    rw [List.map_cons, List.nodup_cons] at hl
    by_cases ha : key a = k
    · have hkeep : l.filter (fun b ↦ key b ≠ k) = l := by
        refine List.filter_eq_self.mpr fun b hb ↦ decide_eq_true ?_
        rintro rfl
        exact hl.1 (ha ▸ List.mem_map_of_mem hb)
      rw [List.filter_cons_of_neg (by simp [ha]), List.find?_cons_of_pos (by simp [ha]), hkeep]
      exact add_comm _ _
    · rw [List.filter_cons_of_pos (by simp [ha]), List.find?_cons_of_neg (by simp [ha]),
        List.map_cons, List.sum_cons, List.map_cons, List.sum_cons, add_assoc, ih hl.2]

theorem sum_map_insert {μ : Type} [AddCommMonoid μ] (d : Keyed key) (a : α) (f : α → μ) :
    ((d.insert a).toList.map f).sum + ((d.find? (key a)).map f).getD 0 =
      (d.toList.map f).sum + f a := by
  obtain ⟨l, hl⟩ := d
  simp only [insert, find?]
  induction l with
  | nil => simp [upsert]
  | cons b l ih =>
    rw [List.map_cons, List.nodup_cons] at hl
    by_cases hb : key b = key a
    · rw [upsert, if_pos hb, List.find?_cons_of_pos (by simp [hb]), List.map_cons, List.sum_cons,
        List.map_cons, List.sum_cons, add_right_comm, add_comm (f a)]
      exact add_right_comm _ _ _
    · rw [upsert, if_neg hb, List.find?_cons_of_neg (by simp [hb]), List.map_cons, List.sum_cons,
        List.map_cons, List.sum_cons, add_assoc, ih hl.2, add_assoc]

theorem mem_keys_insertAll {d : Keyed key} {l : List α} {k : κ} :
    k ∈ (d.insertAll l).keys ↔ k ∈ d.keys ∨ k ∈ l.map key := by
  induction l generalizing d with
  | nil => simp [insertAll]
  | cons a l ih =>
    rw [show d.insertAll (a :: l) = (d.insert a).insertAll l from rfl, ih, mem_keys_insert,
      List.map_cons, List.mem_cons]
    tauto

@[simp] theorem ofList_toList (d : Keyed key) : ofList d.toList = d :=
  ext (toList_insertAll (by simpa using d.nodup))

/-- An entry of a key that is there can take its place before or after others are put in. -/
theorem insertAll_insert {d : Keyed key} {l : List α} {a : α} (ha : key a ∈ d.keys)
    (hl : key a ∉ l.map key) : (d.insertAll l).insert a = (d.insert a).insertAll l := by
  induction l generalizing d with
  | nil => rfl
  | cons c l ih =>
    rw [List.map_cons, List.mem_cons, not_or] at hl
    have hc : (d.insert c).insert a = (d.insert a).insert c := ext (upsert_comm ha (Ne.symm hl.1))
    exact (ih (mem_keys_insert.mpr (.inr ha)) hl.2).trans
      (congrArg (fun x : Keyed key ↦ x.insertAll l) hc)

theorem insertAll_toList_insert (d e : Keyed key) (a : α) :
    d.insertAll (e.insert a).toList = (d.insertAll e.toList).insert a := by
  by_cases ha : key a ∈ e.keys
  · obtain ⟨b, hb, hk⟩ := mem_keys.mp ha
    obtain ⟨l₁, l₂, hl⟩ := List.append_of_mem hb
    have hn := e.nodup
    rw [hl, List.map_append, List.map_cons, List.nodup_append, List.nodup_cons] at hn
    have h₁ : key a ∉ l₁.map key := by
      intro hm
      exact hn.2.2 _ hm _ List.mem_cons_self hk.symm
    have hups : (e.insert a).toList = l₁ ++ a :: l₂ := by
      have hskip : ∀ l, key a ∉ l.map key → upsert key a (l ++ b :: l₂) = l ++ a :: l₂ := by
        intro l hm
        induction l with
        | nil => simp [upsert, hk]
        | cons c l ih =>
          rw [List.map_cons, List.mem_cons, not_or] at hm
          simp [upsert, Ne.symm hm.1, ih hm.2]
      rw [toList_insert, hl, hskip l₁ h₁]
    have hb' : ∀ x : Keyed key, (x.insert b).insert a = x.insert a := fun x ↦
      ext (upsert_upsert _ hk)
    have hl₂ : key a ∉ l₂.map key := hk ▸ hn.2.1.1
    rw [hups, hl, insertAll_append, insertAll_append]
    have hmem : key a ∈ ((d.insertAll l₁).insert b).keys := mem_keys_insert.mpr (.inl hk.symm)
    have hcomm := insertAll_insert hmem hl₂
    rw [hb'] at hcomm
    exact hcomm.symm
  · have hups : (e.insert a).toList = e.toList ++ [a] := upsert_of_not_mem ha
    rw [hups, insertAll_append]
    rfl

/-- Entries that are replaced within a batch leave no trace. -/
theorem insertAll_ofList (d : Keyed key) (l : List α) :
    d.insertAll (ofList l : Keyed key).toList = d.insertAll l := by
  induction l using List.reverseRecOn with
  | nil => rfl
  | append_singleton l a ih =>
    rw [ofList_append_singleton, insertAll_toList_insert, ih, insertAll_append]
    rfl

theorem insertAll_of_subset {d : Keyed key} {l : List α} (h : ∀ a ∈ l, a ∈ d.toList) :
    d.insertAll l = d := by
  induction l with
  | nil => rfl
  | cons a l ih =>
    have ha : d.insert a = d := insert_of_mem (h a List.mem_cons_self)
    exact (congrArg (fun x : Keyed key ↦ x.insertAll l) ha).trans
      (ih fun b hb ↦ h b (List.mem_cons_of_mem _ hb))

theorem mem_insertAll_toList {d e : Keyed key} {a : α} (ha : a ∈ e.toList) :
    a ∈ (d.insertAll e.toList).toList := by
  obtain ⟨l₁, l₂, hl⟩ := List.append_of_mem ha
  have hn := e.nodup
  rw [hl, List.map_append, List.map_cons, List.nodup_append, List.nodup_cons] at hn
  have hkeep : ∀ (l : List α) (x : Keyed key), key a ∉ l.map key → a ∈ x.toList →
      a ∈ (x.insertAll l).toList := by
    intro l
    induction l with
    | nil => exact fun x _ hx ↦ hx
    | cons c l ih =>
      intro x hc hx
      rw [List.map_cons, List.mem_cons, not_or] at hc
      exact ih (x.insert c) hc.2 (mem_insert.mpr (.inr ⟨hx, hc.1⟩))
  rw [hl, insertAll_append]
  exact hkeep l₂ _ hn.2.1.1 (mem_insert.mpr (.inl rfl))

/-- To put in a batch again changes nothing, whatever it replaces within itself. -/
theorem insertAll_insertAll (d : Keyed key) (l : List α) :
    (d.insertAll l).insertAll l = d.insertAll l := by
  rw [← insertAll_ofList, ← insertAll_ofList d l]
  apply insertAll_of_subset
  intro a ha
  exact mem_insertAll_toList ha

theorem length_eq_card_keys (d : Keyed key) : d.toList.length = d.keys.toFinset.card := by
  rw [keys, List.toFinset_card_of_nodup d.nodup, List.length_map]

/-- The table grows by the keys that are new to it. -/
theorem length_insertAll (d : Keyed key) (l : List α) : (d.insertAll l).toList.length =
    d.toList.length + ((l.map key).toFinset \ d.keys.toFinset).card := by
  have hkeys : (d.insertAll l).keys.toFinset = d.keys.toFinset ∪ (l.map key).toFinset := by
    ext k
    simp only [List.mem_toFinset, Finset.mem_union, mem_keys_insertAll]
  rw [length_eq_card_keys, length_eq_card_keys, hkeys, ← Finset.card_union_add_card_inter, Finset.inter_sdiff_self,
    Finset.card_empty, Nat.add_zero, Finset.union_sdiff_self_eq_union]

theorem mem_of_mem_insertAll {d : Keyed key} {l : List α} {b : α}
    (h : b ∈ (d.insertAll l).toList) : b ∈ d.toList ∨ b ∈ l := by
  induction l generalizing d with
  | nil => exact .inl h
  | cons a l ih =>
    rcases ih (d := d.insert a) h with h | h
    · rcases mem_of_mem_upsert h with rfl | h
      · exact .inr List.mem_cons_self
      · exact .inl h
    · exact .inr (List.mem_cons_of_mem _ h)

/-- The second table is the first after insertions of entries that satisfy `R`. -/
def ExtendedBy (R : α → Prop) (d d' : Keyed key) : Prop :=
  ∃ l, (∀ a ∈ l, R a) ∧ d' = d.insertAll l

namespace ExtendedBy

variable {R R' : α → Prop} {d d' d'' : Keyed key}

theorem refl (d : Keyed key) : ExtendedBy R d d := ⟨[], by simp, rfl⟩

theorem trans (h : ExtendedBy R d d') (h' : ExtendedBy R d' d'') : ExtendedBy R d d'' := by
  obtain ⟨l, hl, rfl⟩ := h
  obtain ⟨l', hl', rfl⟩ := h'
  refine ⟨l ++ l', fun a ha ↦ ?_, (insertAll_append d l l').symm⟩
  exact (List.mem_append.mp ha).elim (hl a) (hl' a)

theorem insert {a : α} (h : R a) : ExtendedBy R d (d.insert a) := ⟨[a], by simpa using h, rfl⟩

theorem mono (h : ExtendedBy R d d') (hr : ∀ a, R a → R' a) : ExtendedBy R' d d' := by
  obtain ⟨l, hl, rfl⟩ := h
  exact ⟨l, fun a ha ↦ hr a (hl a ha), rfl⟩

theorem eq_of_forall_not (h : ExtendedBy R d d') (hr : ∀ a, ¬R a) : d' = d := by
  obtain ⟨l, hl, rfl⟩ := h
  cases l with
  | nil => rfl
  | cons a l => exact absurd (hl a List.mem_cons_self) (hr a)

theorem mem_or (h : ExtendedBy R d d') {a : α} (ha : a ∈ d'.toList) : a ∈ d.toList ∨ R a := by
  obtain ⟨l, hl, rfl⟩ := h
  exact (mem_of_mem_insertAll ha).imp_right (hl a)

/-- Entries whose keys the inserted ones never have are kept. -/
theorem find?_eq (h : ExtendedBy R d d') {k : κ} (hk : ∀ a, R a → key a ≠ k) :
    d'.find? k = d.find? k := by
  obtain ⟨l, hl, rfl⟩ := h
  induction l generalizing d with
  | nil => rfl
  | cons a l ih =>
    have ht := ih (d := d.insert a) (fun b hb ↦ hl b (List.mem_cons_of_mem _ hb))
    rw [find?_insert, if_neg (hk a (hl a List.mem_cons_self))] at ht
    exact ht

theorem mem (h : ExtendedBy R d d') {a : α} (ha : a ∈ d.toList)
    (hk : ∀ b, R b → key b ≠ key a) : a ∈ d'.toList := by
  have hf := find?_eq_some.mpr ⟨ha, rfl⟩
  rw [← h.find?_eq hk] at hf
  exact (mem_of_find? hf).1

end ExtendedBy

theorem mem_insertAll_of_ne {d : Keyed key} {l : List α} {a : α} (ha : a ∈ d.toList)
    (h : ∀ b ∈ l, key b ≠ key a) : a ∈ (d.insertAll l).toList :=
  ExtendedBy.mem (R := fun b ↦ key b ≠ key a) ⟨l, h, rfl⟩ ha fun _ hb ↦ hb

theorem mem_insertAll_of_unique {d : Keyed key} {l : List α} {a : α} (ha : a ∈ l)
    (h : ∀ b ∈ l, key b = key a → b = a) : a ∈ (d.insertAll l).toList := by
  induction l generalizing d with
  | nil => cases ha
  | cons c l ih =>
    rw [List.forall_mem_cons] at h
    by_cases hl : a ∈ l
    · exact ih (d := d.insert c) hl h.2
    · obtain rfl : a = c := (List.mem_cons.mp ha).resolve_right hl
      exact mem_insertAll_of_ne (d := d.insert a) (mem_insert.mpr (.inl rfl))
        fun b hb he ↦ hl (h.2 b hb he ▸ hb)

theorem mem_of_mem_ofList {l : List α} {a : α} (h : a ∈ (ofList l : Keyed key).toList) : a ∈ l :=
  (mem_of_mem_insertAll h).resolve_left (by simp)

theorem toList_ofList_append {l l' : List α} (h : ∀ a ∈ l', key a ∉ l.map key) :
    (ofList (l ++ l') : Keyed key).toList =
      (ofList l : Keyed key).toList ++ (ofList l' : Keyed key).toList := by
  induction l' using List.reverseRecOn with
  | nil => simp [ofList, insertAll]
  | append_singleton l' a ih =>
    have ha : key a ∉ ((ofList l : Keyed key).toList).map key := by
      intro hm
      obtain ⟨b, hb, he⟩ := List.mem_map.mp hm
      refine h a (List.mem_append_right _ List.mem_cons_self) (List.mem_map.mpr ⟨b, ?_, he⟩)
      exact (mem_of_mem_insertAll hb).resolve_left (by simp)
    rw [← List.append_assoc, ofList_append_singleton, ofList_append_singleton, toList_insert,
      toList_insert, ih fun b hb ↦ h b (List.mem_append_left _ hb), upsert_append ha]

/-- Taking the place of an entry leaves the order as it is. -/
theorem pairwise_ofList [LinearOrder ρ] (rank : α → ρ)
    (hrank : ∀ a b, key a = key b → rank a = rank b) {l : List α}
    (h : l.Pairwise (fun a b ↦ rank a ≤ rank b)) :
    (ofList l : Keyed key).toList.Pairwise (fun a b ↦ rank a ≤ rank b) := by
  induction l using List.reverseRecOn with
  | nil => exact .nil
  | append_singleton l a ih =>
    rw [List.pairwise_append] at h
    have ih := ih h.1
    rw [ofList_append_singleton, toList_insert]
    by_cases ha : key a ∈ ((ofList l : Keyed key).toList).map key
    · rw [← List.pairwise_map (f := rank) (R := (· ≤ ·))] at ih ⊢
      rw [upsert_eq_map (ofList l).nodup ha, List.map_map]
      refine (List.map_congr_left fun b _ ↦ ?_) ▸ ih
      rw [Function.comp_apply]
      split
      · next he => exact hrank b a he
      · rfl
    · rw [upsert_of_not_mem ha, List.pairwise_append]
      exact ⟨ih, List.pairwise_singleton _ _, fun b hb c hc ↦
        h.2.2 b (mem_of_mem_ofList hb) c hc⟩

end Keyed

theorem map_eq_ok {ε α β : Type} {x : Except ε α} {f : α → β} {b : β} :
    x.map f = .ok b ↔ ∃ a, x = .ok a ∧ f a = b := by
  cases x <;> simp [Except.map]

abbrev Dict (κ ν : Type) [DecidableEq κ] := Keyed (Prod.fst : κ × ν → κ)

namespace Dict

variable {ν : Type}

def get? (d : Dict κ ν) (k : κ) : Option ν := (d.find? k).map Prod.snd

def getD (d : Dict κ ν) (k : κ) (v : ν) : ν := (get? d k).getD v

def set (d : Dict κ ν) (k : κ) (v : ν) : Dict κ ν := d.insert (k, v)

@[simp] theorem get?_empty (k : κ) : get? (Keyed.empty : Dict κ ν) k = none := rfl

theorem get?_set (d : Dict κ ν) (k k' : κ) (v : ν) :
    get? (set d k v) k' = if k = k' then some v else get? d k' := by
  simp only [get?, set, Keyed.find?_insert]
  split <;> rfl

@[simp] theorem get?_set_self (d : Dict κ ν) (k : κ) (v : ν) : get? (set d k v) k = some v := by
  simp [get?_set]

theorem get?_eq_some {d : Dict κ ν} {k : κ} {v : ν} : get? d k = some v ↔ (k, v) ∈ d.toList := by
  simp only [get?, Option.map_eq_some_iff, Keyed.find?_eq_some]
  constructor
  · rintro ⟨⟨k', v'⟩, ⟨hm, rfl⟩, rfl⟩
    exact hm
  · exact fun h ↦ ⟨(k, v), ⟨h, rfl⟩, rfl⟩

theorem get?_eq_none {d : Dict κ ν} {k : κ} : get? d k = none ↔ k ∉ d.keys := by
  rw [get?, Option.map_eq_none_iff, Keyed.find?_eq_none]

theorem mem_keys_iff {d : Dict κ ν} {k : κ} : k ∈ d.keys ↔ ∃ v, get? d k = some v := by
  rw [← not_iff_not, ← get?_eq_none, Option.eq_none_iff_forall_ne_some]
  simp

/-- Grouping the entries of a list by a key, in their order. -/
theorem get?_group (key : ν → κ) (l : List ν) (k : κ) :
    get? (l.foldl (fun d a ↦ set d (key a) (getD d (key a) [] ++ [a])) .empty) k =
      if l.filter (key · = k) = [] then none else some (l.filter (key · = k)) := by
  induction l using List.reverseRecOn with
  | nil => rfl
  | append_singleton l a ih =>
    rw [List.foldl_append, List.foldl_cons, List.foldl_nil, get?_set, List.filter_append]
    by_cases ha : key a = k
    · have hd : getD (l.foldl (fun d a ↦ set d (key a) (getD d (key a) [] ++ [a])) .empty) k [] =
          l.filter (key · = k) := by
        rw [getD, ih]
        split
        · next hnil => rw [hnil, Option.getD_none]
        · rfl
      rw [if_pos ha, ha, hd, List.filter_singleton, decide_eq_true ha, cond_true,
        if_neg (List.append_ne_nil_of_right_ne_nil _ (List.cons_ne_nil a []))]
    · rw [if_neg ha, ih, List.filter_singleton, decide_eq_false ha, cond_false, List.append_nil]

theorem find?_map_toList {μ : Type} (d : Dict κ ν) (f : ν → μ) (k : κ) :
    (d.toList.map (fun a ↦ (a.1, f a.2))).find? (·.1 = k) = (get? d k).map (fun v ↦ (k, f v)) := by
  rw [List.find?_map, get?, Keyed.find?, Option.map_map]
  apply Option.map_congr
  intro a ha
  have hk : a.1 = k := by simpa using List.find?_some ha
  rw [Function.comp_apply, hk]

def setAll (d : Dict κ ν) (ks : List κ) (v : ν) : Dict κ ν := ks.foldl (fun d k ↦ set d k v) d

theorem setAll_append (d : Dict κ ν) (ks ks' : List κ) (v : ν) :
    setAll d (ks ++ ks') v = setAll (setAll d ks v) ks' v := List.foldl_append

theorem get?_setAll (d : Dict κ ν) (ks : List κ) (v : ν) (k : κ) :
    get? (setAll d ks v) k = if k ∈ ks then some v else get? d k := by
  induction ks using List.reverseRecOn with
  | nil => rfl
  | append_singleton ks k' ih =>
    rw [setAll_append]
    change get? (set _ k' v) k = _
    rw [get?_set, ih]
    by_cases h : k' = k
    · simp [h]
    · simp [h, Ne.symm h]

def mapVals {μ : Type} (f : κ → ν → μ) (d : Dict κ ν) : Dict κ μ :=
  ⟨d.toList.map (fun a ↦ (a.1, f a.1 a.2)), by simpa [Function.comp_def] using d.nodup⟩

section MapVals

variable {μ : Type} {f : κ → ν → μ} {d : Dict κ ν}

@[simp] theorem toList_mapVals : (mapVals f d).toList = d.toList.map (fun a ↦ (a.1, f a.1 a.2)) :=
  rfl

@[simp] theorem keys_mapVals : (mapVals f d).keys = d.keys := by
  simp [Keyed.keys, Function.comp_def]

theorem get?_mapVals (k : κ) : get? (mapVals f d) k = (get? d k).map (f k) := by
  ext w
  simp only [get?_eq_some, toList_mapVals, List.mem_map, Option.map_eq_some_iff, Prod.mk.injEq]
  constructor
  · rintro ⟨⟨k', v⟩, hm, rfl, rfl⟩
    exact ⟨v, hm, rfl⟩
  · rintro ⟨v, hm, rfl⟩
    exact ⟨(k, v), hm, rfl, rfl⟩

theorem mapVals_set (k : κ) (v : ν) : mapVals f (set d k v) = set (mapVals f d) k (f k v) := by
  let g : κ × ν → κ × μ := fun a ↦ (a.1, f a.1 a.2)
  have hmap : upsert Prod.fst (g (k, v)) (d.toList.map g) =
      (upsert Prod.fst (k, v) d.toList).map g := upsert_map_of_key fun _ _ ↦ Iff.rfl
  exact Keyed.ext hmap.symm

theorem getD_mapVals (k : κ) (v : ν) : getD (mapVals f d) k (f k v) = f k (getD d k v) := by
  rw [getD, getD, get?_mapVals]
  cases get? d k <;> rfl

theorem mapVals_mapVals {ξ : Type} (g : κ → μ → ξ) (f : κ → ν → μ) (d : Dict κ ν) :
    mapVals g (mapVals f d) = mapVals (fun k v ↦ g k (f k v)) d := by
  apply Keyed.ext
  simp [Function.comp_def]

theorem mapVals_id {f : κ → ν → ν} (h : ∀ a ∈ d.toList, f a.1 a.2 = a.2) : mapVals f d = d := by
  apply Keyed.ext
  refine (List.map_congr_left fun a ha ↦ ?_).trans (List.map_id d.toList)
  rw [h a ha]
  rfl

end MapVals

/-- To take an entry out and put it back in only moves it to the end. -/
theorem set_erase_perm {d : Dict κ ν} {k : κ} {v : ν} (h : (k, v) ∈ d.toList) :
    (set (d.erase k) k v).toList.Perm d.toList := by
  have hk : k ∉ (d.erase k).keys := by
    rw [← Keyed.find?_eq_none, Keyed.find?_erase, if_pos rfl]
  have hset : (set (d.erase k) k v).toList = d.toList.filter (fun a ↦ a.1 ≠ k) ++ [(k, v)] :=
    upsert_of_not_mem hk
  have honly : d.toList.filter (fun a ↦ ¬a.1 ≠ k) = [(k, v)] := by
    obtain ⟨l₁, l₂, hl⟩ := List.append_of_mem h
    have hn := d.nodup
    rw [hl, List.map_append, List.map_cons, List.nodup_append, List.nodup_cons] at hn
    have h₁ : ∀ a ∈ l₁, a.1 ≠ k := by
      intro a ha he
      exact hn.2.2 _ (List.mem_map_of_mem ha) _ List.mem_cons_self he
    have h₂ : ∀ a ∈ l₂, a.1 ≠ k := by
      intro a ha he
      exact hn.2.1.1 (List.mem_map.mpr ⟨a, ha, he⟩)
    rw [hl, List.filter_append, List.filter_cons_of_pos (by simp),
      List.filter_eq_nil_iff.mpr fun a ha ↦ by simpa using h₁ a ha,
      List.filter_eq_nil_iff.mpr fun a ha ↦ by simpa using h₂ a ha]
    rfl
  rw [hset, ← honly]
  simpa using List.filter_append_perm (fun a : κ × ν ↦ decide (a.1 ≠ k)) d.toList

variable {ε : Type}

/-- Fill a dictionary from a list. Some entries have no value; a bad one ends it. -/
def collect (key : α → κ) (f : α → Except ε (Option ν)) (d : Dict κ ν) :
    List α → Except ε (Dict κ ν)
  | [] => .ok d
  | a :: l =>
    match f a with
    | .error e => .error e
    | .ok none => collect key f d l
    | .ok (some v) => collect key f (set d (key a) v) l

theorem nodup_filterMap {β : Type} {f : κ × ν → Option β} {k : β → κ}
    (h : ∀ a b, f a = some b → k b = a.1) (d : Dict κ ν) :
    ((d.toList.filterMap f).map k).Nodup := by
  exact d.nodup.sublist (filterMap_map_sublist h d.toList)

section Collect

variable {key : α → κ} {f : α → Except ε (Option ν)} {d d' : Dict κ ν} {l : List α}

theorem collect_congr {g : α → Except ε (Option ν)} (h : ∀ a ∈ l, f a = g a) :
    collect key f d l = collect key g d l := by
  induction l generalizing d with
  | nil => rfl
  | cons a l ih =>
    rw [List.forall_mem_cons] at h
    simp only [collect, h.1, ih h.2]

theorem collect_total (h : ∀ a ∈ l, ∃ v, f a = .ok v) : ∃ d', collect key f d l = .ok d' := by
  induction l generalizing d with
  | nil => exact ⟨d, rfl⟩
  | cons a l ih =>
    have ih := fun d ↦ ih (d := d) fun b hb ↦ h b (List.mem_cons_of_mem _ hb)
    obtain ⟨v, hv⟩ := h a List.mem_cons_self
    cases v <;> simp [collect, hv, ih]

theorem ok_of_collect (h : collect key f d l = .ok d') : ∀ a ∈ l, ∃ v, f a = .ok v := by
  induction l generalizing d with
  | nil => simp
  | cons a l ih =>
    rw [List.forall_mem_cons]
    rw [collect] at h
    split at h
    · cases h
    · next hv => exact ⟨⟨_, hv⟩, ih h⟩
    · next v hv => exact ⟨⟨_, hv⟩, ih h⟩

theorem of_get?_collect (h : collect key f d l = .ok d') {k : κ} {v : ν}
    (hv : get? d' k = some v) :
    get? d k = some v ∨ ∃ a ∈ l, key a = k ∧ f a = .ok (some v) := by
  induction l generalizing d with
  | nil => cases h; exact .inl hv
  | cons a l ih =>
    rw [collect] at h
    split at h
    · cases h
    · exact (ih h).imp_right fun ⟨b, hb, hk⟩ ↦ ⟨b, List.mem_cons_of_mem _ hb, hk⟩
    · next w hw =>
      rcases ih h with hd | ⟨b, hb, hk⟩
      · rw [get?_set] at hd
        split at hd
        · next hk => cases hd; exact .inr ⟨a, List.mem_cons_self, hk, hw⟩
        · exact .inl hd
      · exact .inr ⟨b, List.mem_cons_of_mem _ hb, hk⟩

theorem mem_keys_collect (h : collect key f d l = .ok d') {k : κ} :
    k ∈ d'.keys ↔ k ∈ d.keys ∨ ∃ a ∈ l, key a = k ∧ ∃ v, f a = .ok (some v) := by
  induction l generalizing d with
  | nil => cases h; simp
  | cons a l ih =>
    rw [collect] at h
    split at h
    · cases h
    · next hf => simp [ih h, hf]
    · next v hf =>
      have hset : k ∈ (set d (key a) v).keys ↔ k ∈ d.keys ∨ key a = k := by
        rw [set, Keyed.mem_keys_insert, or_comm, eq_comm]
      simp [ih h, hset, hf, or_assoc]

theorem get?_collect_of_not_mem (h : collect key f d l = .ok d') {k : κ} (hk : k ∉ l.map key) :
    get? d' k = get? d k := by
  induction l generalizing d with
  | nil => cases h; rfl
  | cons a l ih =>
    rw [List.map_cons, List.mem_cons, not_or] at hk
    rw [collect] at h
    split at h
    · cases h
    · exact ih h hk.2
    · rw [ih h hk.2, get?_set, if_neg (Ne.symm hk.1)]

theorem get?_collect_of_mem (h : collect key f d l = .ok d') (hn : (l.map key).Nodup) {a : α}
    {v : ν} (ha : a ∈ l) (hv : f a = .ok (some v)) : get? d' (key a) = some v := by
  induction l generalizing d with
  | nil => simp at ha
  | cons b l ih =>
    rw [List.map_cons, List.nodup_cons] at hn
    rw [collect] at h
    rcases List.mem_cons.mp ha with rfl | ha
    · rw [hv] at h
      rw [get?_collect_of_not_mem h hn.1, get?_set_self]
    · split at h
      · cases h
      · exact ih h hn.2 ha
      · exact ih h hn.2 ha

theorem get?_collect (h : collect key f .empty l = .ok d') (hn : (l.map key).Nodup) {k : κ}
    {v : ν} : get? d' k = some v ↔ ∃ a ∈ l, key a = k ∧ f a = .ok (some v) := by
  constructor
  · exact fun hv ↦ (of_get?_collect h hv).resolve_left (by simp)
  · rintro ⟨a, ha, rfl, hv⟩
    exact get?_collect_of_mem h hn ha hv

/-- The last value of a name is the one that stays. -/
theorem get?_collect_getLast? (h : collect key f d l = .ok d') {k : κ} {g : α → ν}
    (hf : ∀ a ∈ l, key a = k → f a = .ok (some (g a))) :
    get? d' k = ((l.filter (key · = k)).getLast?.map g).or (get? d k) := by
  induction l generalizing d with
  | nil => cases h; rfl
  | cons a l ih =>
    rw [List.forall_mem_cons] at hf
    rw [collect] at h
    by_cases hk : key a = k
    · rw [hf.1 hk] at h
      rw [ih h hf.2, List.filter_cons_of_pos (by simpa using hk), List.getLast?_cons, get?_set,
        if_pos hk]
      cases (l.filter (key · = k)).getLast? <;> rfl
    · rw [List.filter_cons_of_neg (by simpa using hk)]
      split at h
      · cases h
      · exact ih h hf.2
      · rw [ih h hf.2, get?_set, if_neg hk]

end Collect

end Dict

end MarketTrader.Library
