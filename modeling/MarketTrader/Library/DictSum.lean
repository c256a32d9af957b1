import MarketTrader.Library.Keyed
import Mathlib.Algebra.BigOperators.Group.Finset.Piecewise
import Mathlib.Algebra.Order.BigOperators.Group.List

namespace MarketTrader.Library

namespace Keyed

variable {α κ : Type} [DecidableEq κ] {key : α → κ}

theorem toList_ofList {l : List α} (h : (l.map key).Nodup) :
    (ofList l : Keyed key).toList = l := by
  apply toList_insertAll (d := .empty)
  simpa using h

theorem keys_ofList {l : List α} (h : (l.map key).Nodup) : (ofList l : Keyed key).keys = l.map key :=
  congrArg (List.map key) (toList_ofList h)

end Keyed

namespace Dict

variable {κ ν : Type} [DecidableEq κ] {d : Dict κ ν} {ks : List κ}

theorem getD_of_mem {k : κ} {v w : ν} (h : (k, v) ∈ d.toList) : getD d k w = v := by
  rw [getD, get?_eq_some.mpr h, Option.getD_some]

theorem getD_of_not_mem {k : κ} {w : ν} (h : k ∉ d.keys) : getD d k w = w := by
  rw [getD, get?_eq_none.mpr h, Option.getD_none]

/-- A sum over the keys can be taken over any list that has them all. -/
theorem sum_getD {μ : Type} [AddCommMonoid μ] [Zero ν] (hn : ks.Nodup)
    (h : ∀ k ∈ d.keys, k ∈ ks) (f : κ → ν → μ) (hf : ∀ k, f k 0 = 0) :
    (ks.map (fun k ↦ f k (getD d k 0))).sum = (d.toList.map (fun a ↦ f a.1 a.2)).sum := by
  have hkeys : (d.toList.map (fun a ↦ f a.1 a.2)) = d.keys.map (fun k ↦ f k (getD d k 0)) := by
    rw [Keyed.keys, List.map_map]
    apply List.map_congr_left
    intro a ha
    rw [Function.comp_apply, getD_of_mem ha]
  have hd : d.keys.Nodup := d.nodup
  rw [hkeys, ← List.sum_toFinset _ hn, ← List.sum_toFinset _ hd]
  symm
  apply Finset.sum_subset
  · intro k hk
    exact List.mem_toFinset.mpr (h k (List.mem_toFinset.mp hk))
  · intro k _ hk
    rw [getD_of_not_mem (fun hm ↦ hk (List.mem_toFinset.mpr hm)), hf]

end Dict

/-- A sum over a list is the sum over its parts. -/
theorem sum_parts {α κ μ : Type} [DecidableEq κ] [AddCommMonoid μ] {key : α → κ} {ks : List κ}
    (hn : ks.Nodup) {l : List α} (h : ∀ a ∈ l, key a ∈ ks) (f : α → μ) :
    (ks.map (fun k ↦ ((l.filter (key · = k)).map f).sum)).sum = (l.map f).sum := by
  induction l with
  | nil => simp
  | cons a l ih =>
    have hsplit : ∀ k, (((a :: l).filter (key · = k)).map f).sum =
        (if key a = k then f a else 0) + ((l.filter (key · = k)).map f).sum := by
      intro k
      by_cases hk : key a = k <;> simp [hk]
    have hone : (ks.map (fun k ↦ if key a = k then f a else 0)).sum = f a := by
      rw [← List.sum_toFinset _ hn, Finset.sum_ite_eq, if_pos]
      exact List.mem_toFinset.mpr (h a List.mem_cons_self)
    simp only [hsplit, List.sum_map_add, hone, List.map_cons, List.sum_cons,
      ih fun b hb ↦ h b (List.mem_cons_of_mem _ hb)]

end MarketTrader.Library
