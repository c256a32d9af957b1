import Mathlib.Data.List.Infix
import Mathlib.Data.Multiset.Bind
import Mathlib.Data.Multiset.Range

namespace MarketTrader.Library

/-- The merges of `n` leaves: the `k`-th one makes the cluster `n + k` of two earlier ones. -/
abbrev Merges := List (ℕ × ℕ)

namespace Merges

variable {n : ℕ} {m : Merges} {k x a b l : ℕ}

def merged (m : Merges) : List ℕ := m.flatMap fun p ↦ [p.1, p.2]

/-- Each cluster is merged once, but for the last one. -/
structure Valid (n : ℕ) (m : Merges) : Prop where
  length : m.length + 1 = n
  earlier : ∀ k a b, m[k]? = some (a, b) → a < n + k ∧ b < n + k
  once : (merged m).Perm (List.range (n + m.length - 1))

/-- A leaf under a cluster. -/
inductive Under (n : ℕ) (m : Merges) (l : ℕ) : ℕ → Prop
  | leaf (h : l < n) : Under n m l l
  | left (k a b : ℕ) (h : m[k]? = some (a, b)) (hl : Under n m l a) : Under n m l (n + k)
  | right (k a b : ℕ) (h : m[k]? = some (a, b)) (hl : Under n m l b) : Under n m l (n + k)

/-- The leaves under a cluster, from left to right. -/
def leaves (n : ℕ) (m : Merges) (x : ℕ) : List ℕ :=
  if x < n then [x]
  else
    match m[x - n]? with
    | none => []
    | some (a, b) => if _ : a < x ∧ b < x then leaves n m a ++ leaves n m b else []

theorem leaves_leaf (h : x < n) : leaves n m x = [x] := by rw [leaves, if_pos h]

theorem Valid.leaves_merge (hv : Valid n m) (h : m[k]? = some (a, b)) :
    leaves n m (n + k) = leaves n m a ++ leaves n m b := by
  rw [leaves, if_neg (Nat.not_lt.mpr (Nat.le_add_right n k)), Nat.add_sub_cancel_left, h]
  exact dif_pos (hv.earlier k a b h)

theorem Valid.mem_leaves (hv : Valid n m) : l ∈ leaves n m x ↔ Under n m l x := by
  constructor
  · intro h
    induction x using Nat.strong_induction_on with
    | _ x ih =>
      by_cases hx : x < n
      · rw [leaves_leaf hx, List.mem_singleton] at h
        subst h
        exact .leaf hx
      · obtain ⟨k, rfl⟩ := Nat.exists_eq_add_of_le (Nat.le_of_not_lt hx)
        cases hm : m[k]? with
        | none =>
          rw [leaves, if_neg hx, Nat.add_sub_cancel_left, hm] at h
          cases h
        | some p =>
          obtain ⟨a, b⟩ := p
          obtain ⟨ha, hb⟩ := hv.earlier k a b hm
          rw [hv.leaves_merge hm, List.mem_append] at h
          rcases h with h | h
          · exact .left k a b hm (ih a ha h)
          · exact .right k a b hm (ih b hb h)
  · intro h
    induction h with
    | leaf h => simp [leaves_leaf h]
    | left k a b h _ ih => exact hv.leaves_merge h ▸ List.mem_append_left _ ih
    | right k a b h _ ih => exact hv.leaves_merge h ▸ List.mem_append_right _ ih

theorem Valid.leaves_ne_nil (hv : Valid n m) (hx : x < n + m.length) : leaves n m x ≠ [] := by
  induction x using Nat.strong_induction_on with
  | _ x ih =>
    by_cases hl : x < n
    · rw [leaves_leaf hl]
      exact List.cons_ne_nil x []
    · obtain ⟨k, rfl⟩ := Nat.exists_eq_add_of_le (Nat.le_of_not_lt hl)
      obtain ⟨⟨a, b⟩, hm⟩ : ∃ p, m[k]? = some p :=
        ⟨_, List.getElem?_eq_getElem (Nat.lt_of_add_lt_add_left hx)⟩
      obtain ⟨ha, -⟩ := hv.earlier k a b hm
      rw [hv.leaves_merge hm]
      exact List.append_ne_nil_of_left_ne_nil (ih a ha (ha.trans hx)) _

theorem merged_take_succ (h : m[k]? = some (a, b)) :
    merged (m.take (k + 1)) = merged (m.take k) ++ [a, b] := by
  rw [merged, List.take_add_one, h, List.flatMap_append]
  rfl

theorem Valid.lt_of_mem_merged (hv : Valid n m) (hx : x ∈ merged (m.take k)) : x < n + k := by
  obtain ⟨⟨a, b⟩, hp, hx⟩ := List.mem_flatMap.mp hx
  obtain ⟨j, hj⟩ := List.mem_iff_getElem?.mp hp
  rw [List.getElem?_take] at hj
  split at hj
  case isFalse => cases hj
  next hjk =>
  obtain ⟨ha, hb⟩ := hv.earlier j a b hj
  rcases List.mem_pair.mp hx with rfl | rfl
  · omega
  · omega

/-- The clusters that the first `k` merges leave have all leaves under them. -/
theorem Valid.bind_leaves (hv : Valid n m) (hk : k ≤ m.length) (A : Multiset ℕ)
    (hA : A + merged (m.take k) = Multiset.range (n + k)) :
    (A.bind fun x ↦ (leaves n m x : Multiset ℕ)) = Multiset.range n := by
  induction k generalizing A with
  | zero =>
    have hA' : A = Multiset.range n := by simpa [merged] using hA
    have hleaf (x : ℕ) (hx : x ∈ Multiset.range n) : (leaves n m x : Multiset ℕ) = {x} := by
      rw [leaves_leaf (Multiset.mem_range.mp hx)]
      rfl
    rw [hA', Multiset.bind_congr hleaf]
    exact (Multiset.bind_singleton _ id).trans (Multiset.map_id _)
  | succ k ih =>
    obtain ⟨⟨a, b⟩, hm⟩ : ∃ p, m[k]? = some p := ⟨_, List.getElem?_eq_getElem hk⟩
    obtain ⟨ha, hb⟩ := hv.earlier k a b hm
    rw [merged_take_succ hm] at hA
    -- the last cluster made so far is not merged yet
    have hmem : n + k ∈ A := by
      have hr : n + k ∈ Multiset.range (n + (k + 1)) := Multiset.mem_range.mpr (by omega)
      rw [← hA, Multiset.mem_add] at hr
      refine hr.resolve_right fun h ↦ ?_
      rcases List.mem_append.mp (Multiset.mem_coe.mp h) with h | h
      · exact absurd (hv.lt_of_mem_merged h) (by omega)
      · rcases List.mem_pair.mp h with h | h
        · omega
        · omega
    obtain ⟨A, rfl⟩ := Multiset.exists_cons_of_mem hmem
    have hrest : A + (merged (m.take k) ++ [a, b] : List ℕ) = Multiset.range (n + k) := by
      rw [← Nat.add_assoc, Multiset.range_succ, Multiset.cons_add] at hA
      exact Multiset.cons_inj_right _ |>.mp hA
    have hnext : a ::ₘ b ::ₘ A + merged (m.take k) = Multiset.range (n + k) := by
      have hpair : (([a, b] : List ℕ) : Multiset ℕ) = a ::ₘ b ::ₘ 0 := rfl
      rw [← hrest, ← Multiset.coe_add, hpair]
      simp only [Multiset.cons_add, Multiset.add_cons, Multiset.add_zero]
    have h := ih (Nat.le_of_succ_le hk) _ hnext
    rw [Multiset.cons_bind, hv.leaves_merge hm, ← Multiset.coe_add, ← h, Multiset.cons_bind,
      Multiset.cons_bind, add_assoc]

theorem Valid.leaves_root (hv : Valid n m) :
    (leaves n m (n + m.length - 1)).Perm (List.range n) := by
  have hn := hv.length
  have hroot : ({n + m.length - 1} : Multiset ℕ) + merged (m.take m.length) =
      Multiset.range (n + m.length) := by
    have hs : n + m.length = n + m.length - 1 + 1 := by omega
    rw [List.take_length, Multiset.coe_eq_coe.mpr hv.once, hs, Multiset.range_succ,
      Multiset.singleton_add]
    rfl
  have h := hv.bind_leaves le_rfl _ hroot
  rw [Multiset.singleton_bind] at h
  exact Multiset.coe_eq_coe.mp h

/-- The leaves under a cluster stand next to each other. -/
theorem Valid.leaves_infix (hv : Valid n m) (hx : x < n + m.length) :
    leaves n m x <:+: leaves n m (n + m.length - 1) := by
  have hn := hv.length
  -- from the root down: what is not the root has been merged into a later cluster
  induction hd : n + m.length - x using Nat.strong_induction_on generalizing x with
  | _ d ih =>
    by_cases hroot : x = n + m.length - 1
    · exact hroot ▸ List.infix_refl _
    · have hmem : x ∈ merged m := hv.once.mem_iff.mpr (List.mem_range.mpr (by omega))
      obtain ⟨⟨a, b⟩, hp, hxp⟩ := List.mem_flatMap.mp hmem
      obtain ⟨k, hk⟩ := List.mem_iff_getElem?.mp hp
      obtain ⟨ha, hb⟩ := hv.earlier k a b hk
      have hlen : k < m.length := (List.getElem?_eq_some_iff.mp hk).1
      have hup := ih (n + m.length - (n + k)) (by
        rcases List.mem_pair.mp hxp with rfl | rfl
        · omega
        · omega) (by omega) rfl
      rw [hv.leaves_merge hk] at hup
      rcases List.mem_pair.mp hxp with rfl | rfl
      · exact (List.prefix_append _ _).isInfix.trans hup
      · exact (List.suffix_append _ _).isInfix.trans hup

end Merges

end MarketTrader.Library
