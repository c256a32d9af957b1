import MarketTrader.Library.Attempts
import Mathlib.Data.List.Flatten

namespace MarketTrader.Library

variable {σ ε τ α κ : Type}

/-- One page of a listing, and the token of the page after it, if there is one. -/
structure Page (τ α : Type) where
  items : List α
  next : Option τ

/-- Asks for page after page and collects what they list, unless it is given up. -/
def follow (get : Option τ → Attempt σ ε (Page τ α)) :
    ℕ → Option τ → List α → σ → Option (Except ε (List α) × σ)
  | 0, _, _, _ => none
  | fuel + 1, token, out, s =>
    match get token s with
    | (.error e, s) => some (.error e, s)
    | (.ok page, s) =>
      match page.next with
      | none => some (.ok (out ++ page.items), s)
      | some next => follow get fuel (some next) (out ++ page.items) s

/-- From a token and a world on, the answers are these pages, and then they end. -/
inductive Serves (get : Option τ → Attempt σ ε (Page τ α)) :
    Option τ → σ → List (List α) → σ → Prop
  | last {token : Option τ} {items : List α} {s s' : σ} (h : get token s = (.ok ⟨items, none⟩, s')) :
    Serves get token s [items] s'
  | more {token : Option τ} {next : τ} {items : List α} {pages : List (List α)} {s s₁ s' : σ}
    (h : get token s = (.ok ⟨items, some next⟩, s₁)) (rest : Serves get (some next) s₁ pages s') :
    Serves get token s (items :: pages) s'

section Follow

variable {get : Option τ → Attempt σ ε (Page τ α)} {token : Option τ} {s s' : σ}
  {pages : List (List α)} {out l : List α}

/-- One request for each page is enough, and each page is asked for once. -/
theorem follow_of_serves (h : Serves get token s pages s') (out : List α) {fuel : ℕ}
    (hf : pages.length ≤ fuel) : follow get fuel token out s = some (.ok (out ++ pages.flatten), s') := by
  induction h generalizing out fuel with
  | last h =>
    obtain ⟨n, rfl⟩ := Nat.exists_eq_add_of_le' hf
    simp [follow, h]
  | more h rest ih =>
    obtain ⟨n, rfl⟩ : ∃ n, fuel = n + 1 := ⟨fuel - 1, by simp at hf; omega⟩
    rw [follow, h]
    dsimp only
    rw [ih _ (by simpa using hf), List.flatten_cons, List.append_assoc]

/-- What is collected is what the pages list, each page once and in their order. -/
theorem follow_iff : (∃ fuel, follow get fuel token out s = some (.ok l, s')) ↔
    ∃ pages, Serves get token s pages s' ∧ l = out ++ pages.flatten := by
  constructor
  · rintro ⟨fuel, h⟩
    induction fuel generalizing token out s with
    | zero => cases h
    | succ fuel ih =>
      rw [follow] at h
      rcases hg : get token s with ⟨_ | ⟨items, _ | next⟩, s₁⟩
      · simp [hg] at h
      · rw [hg] at h
        simp only [Option.some.injEq, Prod.mk.injEq, Except.ok.injEq] at h
        obtain ⟨rfl, rfl⟩ := h
        exact ⟨[items], .last hg, by simp⟩
      · rw [hg] at h
        obtain ⟨pages, hserves, hl⟩ := ih h
        exact ⟨items :: pages, .more hg hserves, by rw [hl, List.flatten_cons, List.append_assoc]⟩
  · rintro ⟨pages, hserves, rfl⟩
    exact ⟨pages.length, follow_of_serves hserves out (Nat.le_refl _)⟩

end Follow

/-! ### A listing that is grouped under keys -/

variable [DecidableEq κ]

/-- The parts of a list that belong to each key, without the keys that have none. -/
def groupUnder (key : α → κ) (keys : List κ) (l : List α) : List (κ × List α) :=
  (keys.map (fun k ↦ (k, l.filter (key · = k)))).filter (·.2 ≠ [])

theorem flatMap_groupUnder (key : α → κ) (keys : List κ) (l : List α) :
    (groupUnder key keys l).flatMap Prod.snd = keys.flatMap (fun k ↦ l.filter (key · = k)) := by
  induction keys with
  | nil => rfl
  | cons k keys ih =>
    rw [groupUnder, List.map_cons, List.flatMap_cons, ← ih]
    by_cases hk : l.filter (key · = k) = []
    · rw [List.filter_cons_of_neg (by simpa using hk), hk, List.nil_append]
      rfl
    · rw [List.filter_cons_of_pos (by simpa using hk), List.flatMap_cons]
      rfl

theorem nodup_groupUnder {key : α → κ} {keys : List κ} (hn : keys.Nodup) (l : List α) :
    ((groupUnder key keys l).map Prod.fst).Nodup := by
  refine (List.filter_sublist.map Prod.fst).nodup ?_
  rwa [List.map_map, show (Prod.fst ∘ fun k ↦ (k, l.filter (key · = k))) = id from rfl, List.map_id]

/-- A part of a list that is grouped under keys comes out of its own groups as it was. -/
theorem flatMap_filter_of_sublist {key : α → κ} {groups : List (κ × List α)}
    (hn : (groups.map Prod.fst).Nodup) (hg : ∀ g ∈ groups, ∀ a ∈ g.2, key a = g.1) {l : List α}
    (h : l.Sublist (groups.flatMap Prod.snd)) :
    (groups.map Prod.fst).flatMap (fun k ↦ l.filter (key · = k)) = l := by
  induction groups generalizing l with
  | nil => exact (List.sublist_nil.mp h).symm
  | cons g groups ih =>
    obtain ⟨hk, hn⟩ := List.nodup_cons.mp hn
    rw [List.forall_mem_cons] at hg
    rw [List.flatMap_cons] at h
    obtain ⟨l₁, l₂, rfl, h₁, h₂⟩ := List.sublist_append_iff.mp h
    have hown : ∀ a ∈ l₁, key a = g.1 := fun a ha ↦ hg.1 a (h₁.subset ha)
    have hother : ∀ a ∈ l₂, key a ∈ groups.map Prod.fst := by
      intro a ha
      obtain ⟨g', hg', hm⟩ := List.mem_flatMap.mp (h₂.subset ha)
      rw [hg.2 g' hg' a hm]
      exact List.mem_map_of_mem hg'
    have hfirst : (l₁ ++ l₂).filter (key · = g.1) = l₁ := by
      rw [List.filter_append, List.filter_eq_self.mpr fun a ha ↦ decide_eq_true (hown a ha),
        List.filter_eq_nil_iff.mpr, List.append_nil]
      intro a ha he
      exact hk (of_decide_eq_true he ▸ hother a ha)
    have hrest : (groups.map Prod.fst).flatMap (fun k ↦ (l₁ ++ l₂).filter (key · = k)) =
        (groups.map Prod.fst).flatMap (fun k ↦ l₂.filter (key · = k)) := by
      apply List.flatMap_congr
      intro k hk'
      rw [List.filter_append, List.filter_eq_nil_iff.mpr, List.nil_append]
      intro a ha he
      exact hk (hown a ha ▸ of_decide_eq_true he ▸ hk')
    rw [List.map_cons, List.flatMap_cons, hfirst, hrest, ih hn hg.2 h₂]

end MarketTrader.Library
