import MarketTrader.Portfolio.QuasiDiagonal
import MarketTrader.Portfolio.Sizing
import Mathlib.Algebra.BigOperators.Group.Finset.Basic
import Mathlib.Algebra.Order.BigOperators.Group.List
import Mathlib.Algebra.Order.Field.Basic
import Mathlib.Tactic.Ring

namespace MarketTrader.Portfolio

open Library

abbrev Covariance := String → String → ℚ

/-- The product with a vector on both sides. -/
def quadratic (cov : Covariance) (names : List String) (x : String → ℚ) : ℚ :=
  (names.map fun b ↦ (names.map fun a ↦ x a * cov a b).sum * x b).sum

/-! ### The bisection -/

/-- The variance of the weights that are inverse to the variances of the items. -/
def clusterVariance (cov : Covariance) (items : List String) : ℚ :=
  let ivp := items.map fun c ↦ 1 / cov c c
  let ivp := ivp.map (· / ivp.sum)
  let row := items.map fun b ↦ ((items.map fun a ↦ cov a b).zip ivp |>.map fun p ↦ p.2 * p.1).sum
  (row.zip ivp |>.map fun p ↦ p.1 * p.2).sum

/-- The two halves of a cluster of more than one item. -/
def halves (c : List String) : List (List String) :=
  ([(0, c.length / 2), (c.length / 2, c.length)].filter fun _ ↦ 1 < c.length).map
    fun p ↦ (c.take p.2).drop p.1

def scale (w : Weights) (names : List String) (x : ℚ) : Except FrameError Weights :=
  if names.all (· ∈ w.keys) then
    .ok (Dict.mapVals (fun k v ↦ if k ∈ names then v * x else v) w)
  else .error .keyError

/-- The loop over the clusters of a level, which pairs them by their positions. -/
def scalePairs (cov : Covariance) : List (List String) → Weights → Except FrameError Weights
  | [], w => .ok w
  | [_], _ => .error .indexError
  | left :: right :: clusters, w => do
    let varLeft := clusterVariance cov left
    let varRight := clusterVariance cov right
    let alpha := 1 - varLeft / (varLeft + varRight)
    let w ← scale w left alpha
    let w ← scale w right (1 - alpha)
    scalePairs cov clusters w

def bisect (cov : Covariance) (s : List (List String) × Weights) :
    Except FrameError (List (List String) × Weights) :=
  let clusters := s.1.flatMap halves
  (scalePairs cov clusters s.2).map (clusters, ·)

def bisection (cov : Covariance) (ordered : List String) (fuel : ℕ) :
    Fueled FrameError Weights := do
  let s ← whileLoop (fun s ↦ s.1 ≠ []) (bisect cov) fuel ([ordered], .ofList (ordered.map (·, 1)))
  return s.2

/-! ### The allocation -/

/-- What is computed of a frame of returns. A correlation may be missing. -/
structure ReturnStats where
  columns : List String
  cov : Covariance
  corr : String → String → Option ℚ

namespace ReturnStats

def dist (sqrt : ℚ → ℚ) (r : ReturnStats) (a b : String) : ℚ :=
  sqrt (max ((1 - (r.corr a b).getD 0) / 2) 0)

/-- The distances above the diagonal, row by row. -/
def condensed (sqrt : ℚ → ℚ) (r : ReturnStats) : List String → List ℚ
  | [] => []
  | a :: rest => rest.map (r.dist sqrt a) ++ condensed sqrt r rest

end ReturnStats

def pick (columns : List String) (order : List ℕ) : Except FrameError (List String) :=
  order.mapM fun i ↦ (columns[i]?).elim (.error .indexError) .ok

/-- A column that has no weight has a missing one. -/
def reindexed (w : Weights) (columns : List String) : List (String × Option ℚ) :=
  columns.map fun c ↦ (c, Dict.get? w c)

def hierarchicalRiskParity (N : Numerics) (linkage : List ℚ → List LinkRow) (r : ReturnStats)
    (fuel : ℕ) : Fueled FrameError (List (String × Option ℚ)) :=
  match r.columns with
  | [c] => pure [(c, some 1)]
  | columns => do
    let order ← quasiDiagonal (linkage (r.condensed N.sqrt columns)) fuel
    let ordered ← (some (pick columns order) : Fueled FrameError (List String))
    let weights ← bisection r.cov ordered fuel
    return reindexed weights columns

/-! ### Variances -/

/-- Each product with a vector that is not zero on the names is positive. -/
def PositiveDefinite (cov : Covariance) (names : List String) : Prop :=
  ∀ x : String → ℚ, (∃ c ∈ names, x c ≠ 0) → 0 < quadratic cov names x

section Variance

variable {cov : Covariance} {names items : List String}

theorem quadratic_eq_of_subset (hn : names.Nodup) (hi : items.Nodup) (hs : ∀ c ∈ items, c ∈ names)
    {x : String → ℚ} (hx : ∀ c, c ∉ items → x c = 0) :
    quadratic cov names x = quadratic cov items x := by
  have hsum (f : String → ℚ) (hf : ∀ c, c ∉ items → f c = 0) :
      (names.map f).sum = (items.map f).sum := by
    rw [← List.sum_toFinset f hn, ← List.sum_toFinset f hi]
    refine (Finset.sum_subset (fun c hc ↦ ?_) fun c _ hc ↦ hf c ?_).symm
    · exact List.mem_toFinset.mpr (hs c (List.mem_toFinset.mp hc))
    · exact fun h ↦ hc (List.mem_toFinset.mpr h)
  rw [quadratic, quadratic, hsum _ fun c hc ↦ by rw [hx c hc, mul_zero]]
  congr 1
  refine List.map_congr_left fun b _ ↦ ?_
  rw [hsum _ fun c hc ↦ by rw [hx c hc, zero_mul]]

/-- A principal part of a positive definite matrix is positive definite. -/
theorem PositiveDefinite.sub (h : PositiveDefinite cov names) (hn : names.Nodup) (hi : items.Nodup)
    (hs : ∀ c ∈ items, c ∈ names) : PositiveDefinite cov items := by
  intro x ⟨c, hc, hx⟩
  let y : String → ℚ := fun c ↦ if c ∈ items then x c else 0
  have hy : quadratic cov items y = quadratic cov items x := by
    have hyx (c : String) (hc : c ∈ items) : y c = x c := if_pos hc
    unfold quadratic
    congr 1
    refine List.map_congr_left fun b hb ↦ ?_
    rw [hyx b hb, List.map_congr_left fun a ha ↦ by rw [hyx a ha]]
  rw [← hy, ← quadratic_eq_of_subset hn hi hs fun c hc ↦ if_neg hc]
  exact h y ⟨c, hs c hc, by rwa [show y c = x c from if_pos hc]⟩

theorem PositiveDefinite.diagonal (h : PositiveDefinite cov names) (hn : names.Nodup) {c : String}
    (hc : c ∈ names) : 0 < cov c c := by
  have h₁ := h.sub hn (List.nodup_singleton c) (by simpa using hc)
  have hq := h₁ (fun _ ↦ 1) ⟨c, List.mem_singleton_self c, one_ne_zero⟩
  simpa [quadratic] using hq

/-- The weights whose variance is the variance of a cluster. -/
def inverseVariance (cov : Covariance) (items : List String) (c : String) : ℚ :=
  1 / cov c c / (items.map fun c ↦ 1 / cov c c).sum

theorem clusterVariance_eq (cov : Covariance) (items : List String) :
    clusterVariance cov items = quadratic cov items (inverseVariance cov items) := by
  have hivp : (items.map fun c ↦ 1 / cov c c).map (· / (items.map fun c ↦ 1 / cov c c).sum) =
      items.map (inverseVariance cov items) := by
    rw [List.map_map]
    rfl
  rw [clusterVariance, hivp, List.zip_map', List.map_map, quadratic]
  congr 1
  refine List.map_congr_left fun b _ ↦ ?_
  rw [Function.comp_apply, List.zip_map', List.map_map]
  rfl

theorem clusterVariance_pos (h : PositiveDefinite cov names) (hn : names.Nodup) (hi : items.Nodup)
    (hs : ∀ c ∈ items, c ∈ names) (hne : items ≠ []) : 0 < clusterVariance cov items := by
  have hsub := h.sub hn hi hs
  have hpos : ∀ q ∈ items.map (fun c ↦ 1 / cov c c), 0 < q := by
    intro q hq
    obtain ⟨c, hc, rfl⟩ := List.mem_map.mp hq
    exact one_div_pos.mpr (hsub.diagonal hi hc)
  have hsum : 0 < (items.map fun c ↦ 1 / cov c c).sum :=
    List.sum_pos _ hpos (by simpa using hne)
  rw [clusterVariance_eq]
  obtain ⟨c, hc⟩ := List.exists_mem_of_ne_nil items hne
  refine hsub _ ⟨c, hc, ne_of_gt ?_⟩
  exact div_pos (one_div_pos.mpr (hsub.diagonal hi hc)) hsum

end Variance

/-! ### A level of the bisection -/

section Bisection

variable {cov : Covariance} {columns ordered c : List String} {w w' : Weights} {x : ℚ}
  {clusters : List (List String)}

theorem halves_of_one_lt (h : 1 < c.length) :
    halves c = [c.take (c.length / 2), c.drop (c.length / 2)] := by
  simp [halves, h]

theorem halves_singleton (k : String) : halves [k] = [] := by simp [halves]

theorem take_half_ne_nil (h : 1 < c.length) : c.take (c.length / 2) ≠ [] := by
  refine List.length_pos_iff.mp ?_
  rw [List.length_take]
  omega

theorem drop_half_ne_nil (h : 1 < c.length) : c.drop (c.length / 2) ≠ [] := by
  refine List.length_pos_iff.mp ?_
  rw [List.length_drop]
  omega

/-- The number of clusters that a bisection of the clusters goes through. -/
def pending (clusters : List (List String)) : ℕ := (clusters.map fun c ↦ 2 * c.length - 1).sum

theorem pending_halves (h : ∀ c ∈ clusters, c ≠ []) :
    pending (clusters.flatMap halves) + clusters.length = pending clusters := by
  induction clusters with
  | nil => rfl
  | cons c clusters ih =>
    have hc := List.length_pos_iff.mpr (h c List.mem_cons_self)
    have ih := ih fun d hd ↦ h d (List.mem_cons_of_mem c hd)
    simp only [pending, List.flatMap_cons, List.map_append, List.sum_append, List.map_cons,
      List.sum_cons, List.length_cons] at ih ⊢
    by_cases hl : 1 < c.length
    · simp only [halves_of_one_lt hl, List.map_cons, List.map_nil, List.sum_cons, List.sum_nil,
        List.length_take, List.length_drop]
      omega
    · obtain ⟨k, rfl⟩ := List.length_eq_one_iff.mp (by omega : c.length = 1)
      simp only [halves_singleton, List.map_nil, List.sum_nil, List.length_singleton]
      omega

/-- The weight under a name, which is there. -/
def weightAt (w : Weights) (k : String) : ℚ := Dict.getD w k 0

theorem scale_ok {names : List String} (h : ∀ k ∈ names, k ∈ w.keys) (x : ℚ) :
    ∃ w', scale w names x = .ok w' ∧ w'.keys = w.keys ∧
      ∀ k, weightAt w' k = if k ∈ names then weightAt w k * x else weightAt w k := by
  refine ⟨Dict.mapVals (fun k v ↦ if k ∈ names then v * x else v) w, if_pos (by simpa using h),
    Dict.keys_mapVals, fun k ↦ ?_⟩
  rw [weightAt, weightAt, Dict.getD, Dict.getD, Dict.get?_mapVals]
  cases Dict.get? w k with
  | none => simp
  | some v => simp

/-- The share of the left half is between nothing and everything. -/
theorem alpha_bounds {a b : ℚ} (ha : 0 < a) (hb : 0 < b) :
    0 < 1 - a / (a + b) ∧ 0 < 1 - (1 - a / (a + b)) := by
  have hab := add_pos ha hb
  have hlt : a / (a + b) < 1 := (div_lt_one hab).mpr (lt_add_of_pos_right a hb)
  constructor
  · linarith
  · have hpos := div_pos ha hab
    linarith

/-- Clusters with one weight for all their names, and that weight. -/
def Blocks (w : Weights) (blocks : List (List String × ℚ)) : Prop :=
  ∀ b ∈ blocks, b.1 ≠ [] ∧ ∀ k ∈ b.1, weightAt w k = b.2

/-- What a level makes of its blocks: names that are done, and smaller blocks, which together have
the names and the weight of the blocks. -/
structure Level (cov : Covariance) (blocks : List (List String × ℚ)) (w w' : Weights)
    (done : List String) (blocks' : List (List String × ℚ)) : Prop where
  scaled : scalePairs cov ((blocks.map Prod.fst).flatMap halves) w = .ok w'
  keys : w'.keys = w.keys
  pos : ∀ k ∈ w'.keys, 0 < weightAt w' k
  frame : ∀ k, k ∉ blocks.flatMap Prod.fst → weightAt w' k = weightAt w k
  clusters : (blocks.map Prod.fst).flatMap halves = blocks'.map Prod.fst
  even : Blocks w' blocks'
  names : (done ++ blocks'.flatMap Prod.fst).Perm (blocks.flatMap Prod.fst)
  total : (done.map (weightAt w')).sum + (blocks'.map Prod.snd).sum = (blocks.map Prod.snd).sum

theorem Blocks.congr {blocks : List (List String × ℚ)} (h : Blocks w blocks)
    (hw : ∀ k ∈ blocks.flatMap Prod.fst, weightAt w' k = weightAt w k) : Blocks w' blocks :=
  fun b hb ↦ ⟨(h b hb).1, fun k hk ↦
    (hw k (List.mem_flatMap_of_mem hb hk)).trans ((h b hb).2 k hk)⟩

/-- A block of one name is done. -/
theorem Level.singleton {blocks blocks' : List (List String × ℚ)} {done : List String} {k : String}
    (h : Level cov blocks w w' done blocks') (hk : k ∉ blocks.flatMap Prod.fst)
    (hx : weightAt w k = x) : Level cov (([k], x) :: blocks) w w' (k :: done) blocks' where
  scaled := by
    rw [List.map_cons, List.flatMap_cons, halves_singleton]
    exact h.scaled
  keys := h.keys
  pos := h.pos
  frame l hl := h.frame l fun hm ↦ hl (List.mem_cons_of_mem k hm)
  clusters := by
    rw [List.map_cons, List.flatMap_cons, halves_singleton]
    exact h.clusters
  even := h.even
  names := h.names.cons k
  total := by
    rw [List.map_cons, List.sum_cons, List.map_cons, List.sum_cons, h.frame k hk, hx, add_assoc,
      h.total]

/-- What the scaling of the two halves of a cluster does to the weights. -/
structure Shared (w w₁ : Weights) (left right : List String) (α : ℚ) : Prop where
  scaled : (scale w left α >>= fun w ↦ scale w right (1 - α)) = .ok w₁
  keys : w₁.keys = w.keys
  atLeft : ∀ k ∈ left, weightAt w₁ k = weightAt w k * α
  atRight : ∀ k ∈ right, weightAt w₁ k = weightAt w k * (1 - α)
  frame : ∀ k, k ∉ left ++ right → weightAt w₁ k = weightAt w k

theorem exists_shared (w : Weights) {left right : List String} (hn : (left ++ right).Nodup)
    (hk : ∀ k ∈ left ++ right, k ∈ w.keys) (α : ℚ) : ∃ w₁, Shared w w₁ left right α := by
  obtain ⟨w₀, hw₀, hkeys₀, hat₀⟩ :=
    scale_ok (fun k h ↦ hk k (List.mem_append_left right h)) α
  obtain ⟨w₁, hw₁, hkeys₁, hat₁⟩ := scale_ok (w := w₀)
    (fun k h ↦ hkeys₀ ▸ hk k (List.mem_append_right left h)) (1 - α)
  have hdisjoint := (List.nodup_append.mp hn).2.2
  refine ⟨w₁, ?_, hkeys₁.trans hkeys₀, fun k h ↦ ?_, fun k h ↦ ?_, fun k h ↦ ?_⟩
  · rw [hw₀]
    exact hw₁
  · rw [hat₁, if_neg fun hr ↦ hdisjoint k h k hr rfl, hat₀, if_pos h]
  · rw [hat₁, if_pos h, hat₀, if_neg fun hl ↦ hdisjoint k hl k h rfl]
  · rw [List.mem_append, not_or] at h
    rw [hat₁, if_neg h.2, hat₀, if_neg h.1]

/-- A longer block is split, and its weight is split in the same two shares. -/
theorem Level.split {blocks blocks' : List (List String × ℚ)} {done left right : List String}
    {w₁ : Weights} {α : ℚ} (h : Level cov blocks w₁ w' done blocks')
    (hs : Shared w w₁ left right α) (hc : halves c = [left, right]) (happ : left ++ right = c)
    (hne : left ≠ [] ∧ right ≠ []) (hdisjoint : ∀ k ∈ c, k ∉ blocks.flatMap Prod.fst)
    (hx : ∀ k ∈ c, weightAt w k = x)
    (hα : α =
      1 - clusterVariance cov left / (clusterVariance cov left + clusterVariance cov right)) :
    Level cov ((c, x) :: blocks) w w' done
      ((left, x * α) :: (right, x * (1 - α)) :: blocks') := by
  have hleft : ∀ k ∈ left, weightAt w' k = x * α := fun k hk ↦ by
    have hkc : k ∈ c := happ ▸ List.mem_append_left right hk
    rw [h.frame k (hdisjoint k hkc), hs.atLeft k hk, hx k hkc]
  have hright : ∀ k ∈ right, weightAt w' k = x * (1 - α) := fun k hk ↦ by
    have hkc : k ∈ c := happ ▸ List.mem_append_right left hk
    rw [h.frame k (hdisjoint k hkc), hs.atRight k hk, hx k hkc]
  refine ⟨?_, h.keys.trans hs.keys, h.pos, fun k hk ↦ ?_, ?_, ?_, ?_, ?_⟩
  · rw [List.map_cons, List.flatMap_cons, hc, List.cons_append, List.cons_append, List.nil_append,
      scalePairs, ← hα, ← bind_assoc, hs.scaled]
    exact h.scaled
  · rw [List.flatMap_cons, List.mem_append, not_or] at hk
    rw [h.frame k hk.2, hs.frame k (by rw [happ]; exact hk.1)]
  · rw [List.map_cons, List.flatMap_cons, hc, h.clusters]
    rfl
  · intro b hb
    rcases List.mem_cons.mp hb with rfl | hb
    · exact ⟨hne.1, hleft⟩
    · rcases List.mem_cons.mp hb with rfl | hb
      · exact ⟨hne.2, hright⟩
      · exact h.even b hb
  · rw [List.flatMap_cons, List.flatMap_cons, List.flatMap_cons, ← List.append_assoc left, happ]
    have hcomm : (done ++ (c ++ blocks'.flatMap Prod.fst)).Perm
        (c ++ (done ++ blocks'.flatMap Prod.fst)) := by
      rw [← List.append_assoc, ← List.append_assoc]
      exact List.perm_append_comm.append_right _
    exact hcomm.trans (h.names.append_left c)
  · rw [List.map_cons, List.map_cons, List.map_cons, List.sum_cons, List.sum_cons, List.sum_cons,
      ← h.total]
    ring

/-- A level keeps the weights positive, and their total. -/
theorem exists_level (hpd : PositiveDefinite cov columns) (hn : columns.Nodup)
    {blocks : List (List String × ℚ)} (hb : Blocks w blocks)
    (hnodup : (blocks.flatMap Prod.fst).Nodup)
    (hcols : ∀ k ∈ blocks.flatMap Prod.fst, k ∈ columns)
    (hkeys : ∀ k ∈ blocks.flatMap Prod.fst, k ∈ w.keys) (hpos : ∀ k ∈ w.keys, 0 < weightAt w k) :
    ∃ w' done blocks', Level cov blocks w w' done blocks' := by
  induction blocks generalizing w with
  | nil => exact ⟨w, [], [], rfl, rfl, hpos, fun _ _ ↦ rfl, rfl, hb, .nil, by simp⟩
  | cons b blocks ih =>
    obtain ⟨c, x⟩ := b
    rw [List.flatMap_cons] at hnodup hcols hkeys
    obtain ⟨hc, hrest, hdisjoint⟩ := List.nodup_append.mp hnodup
    obtain ⟨hne, hx⟩ := hb (c, x) List.mem_cons_self
    have hb' : Blocks w blocks := fun b h ↦ hb b (List.mem_cons_of_mem _ h)
    have hnot : ∀ k ∈ c, k ∉ blocks.flatMap Prod.fst := fun k hk hm ↦ hdisjoint k hk k hm rfl
    have hcols' := fun k hk ↦ hcols k (List.mem_append_right c hk)
    have hkeys' := fun k hk ↦ hkeys k (List.mem_append_right c hk)
    by_cases hl : 1 < c.length
    · let left := c.take (c.length / 2)
      let right := c.drop (c.length / 2)
      let α := 1 - clusterVariance cov left / (clusterVariance cov left + clusterVariance cov right)
      have happ : left ++ right = c := List.take_append_drop _ c
      have hhalf : left ≠ [] ∧ right ≠ [] := ⟨take_half_ne_nil hl, drop_half_ne_nil hl⟩
      have hvl : 0 < clusterVariance cov left := clusterVariance_pos hpd hn
        (hc.sublist (List.take_sublist _ c))
        (fun k hk ↦ hcols k (List.mem_append_left _ (List.mem_of_mem_take hk))) hhalf.1
      have hvr : 0 < clusterVariance cov right := clusterVariance_pos hpd hn
        (hc.sublist (List.drop_sublist _ c))
        (fun k hk ↦ hcols k (List.mem_append_left _ (List.mem_of_mem_drop hk))) hhalf.2
      obtain ⟨hα, hα'⟩ := alpha_bounds hvl hvr
      obtain ⟨w₁, hs⟩ := exists_shared w (happ.symm ▸ hc : (left ++ right).Nodup)
        (fun k hk ↦ hkeys k (List.mem_append_left _ (by rwa [happ] at hk))) α
      have hpos₁ : ∀ k ∈ w₁.keys, 0 < weightAt w₁ k := by
        intro k hk
        rw [hs.keys] at hk
        by_cases hkl : k ∈ left
        · rw [hs.atLeft k hkl]
          exact mul_pos (hpos k hk) hα
        · by_cases hkr : k ∈ right
          · rw [hs.atRight k hkr]
            exact mul_pos (hpos k hk) hα'
          · rw [hs.frame k fun h ↦ (List.mem_append.mp h).elim hkl hkr]
            exact hpos k hk
      have hsame : ∀ k ∈ blocks.flatMap Prod.fst, weightAt w₁ k = weightAt w k :=
        fun k hk ↦ hs.frame k fun h ↦ hnot k (by rwa [happ] at h) hk
      obtain ⟨w', done, blocks', hlevel⟩ := ih (hb'.congr hsame) hrest hcols'
        (fun k hk ↦ hs.keys ▸ hkeys' k hk) hpos₁
      exact ⟨w', done, _, hlevel.split hs (halves_of_one_lt hl) happ hhalf hnot hx rfl⟩
    · have hlen := List.length_pos_iff.mpr hne
      obtain ⟨k, rfl⟩ := List.length_eq_one_iff.mp (Nat.le_antisymm (not_lt.mp hl) hlen)
      obtain ⟨w', done, blocks', hlevel⟩ := ih hb' hrest hcols' hkeys' hpos
      exact ⟨w', k :: done, blocks', hlevel.singleton (hnot k (List.mem_singleton_self k))
        (hx k (List.mem_singleton_self k))⟩

/-- The names that are done and the blocks that are left have all names and all of the weight. -/
structure Bisected (ordered : List String) (s : List (List String) × Weights) (done : List String)
    (blocks : List (List String × ℚ)) : Prop where
  clusters : s.1 = blocks.map Prod.fst
  even : Blocks s.2 blocks
  names : (done ++ blocks.flatMap Prod.fst).Perm ordered
  total : (done.map (weightAt s.2)).sum + (blocks.map Prod.snd).sum = 1
  keys : s.2.keys = ordered
  pos : ∀ k ∈ ordered, 0 < weightAt s.2 k

/-- One pass goes through a level. -/
theorem Bisected.pass (hpd : PositiveDefinite cov columns) (hn : columns.Nodup)
    (ho : ordered.Nodup) (hs : ∀ k ∈ ordered, k ∈ columns) {s : List (List String) × Weights}
    {done : List String} {blocks : List (List String × ℚ)} (h : Bisected ordered s done blocks) :
    ∃ s' done' blocks', bisect cov s = .ok s' ∧ s'.1 = s.1.flatMap halves ∧
      Bisected ordered s' done' blocks' := by
  have hmem : ∀ k ∈ blocks.flatMap Prod.fst, k ∈ ordered :=
    fun k hk ↦ h.names.mem_iff.mp (List.mem_append_right done hk)
  obtain ⟨hd, hb, hdisjoint⟩ := List.nodup_append.mp (h.names.nodup_iff.mpr ho)
  obtain ⟨w', done', blocks', hl⟩ := exists_level hpd hn h.even hb
    (fun k hk ↦ hs k (hmem k hk)) (fun k hk ↦ h.keys ▸ hmem k hk) (fun k hk ↦ h.pos k (h.keys ▸ hk))
  have hkeys : w'.keys = ordered := hl.keys.trans h.keys
  have hdone : done.map (weightAt w') = done.map (weightAt s.2) :=
    List.map_congr_left fun k hk ↦ hl.frame k fun hm ↦ hdisjoint k hk k hm rfl
  refine ⟨(s.1.flatMap halves, w'), done ++ done', blocks', ?_, rfl, ?_, hl.even, ?_, ?_, hkeys,
    fun k hk ↦ hl.pos k (hkeys ▸ hk)⟩
  · rw [bisect, h.clusters, hl.scaled]
    rfl
  · rw [h.clusters]
    exact hl.clusters
  · rw [List.append_assoc]
    exact (hl.names.append_left done).trans h.names
  · rw [List.map_append, List.sum_append, hdone, add_assoc, hl.total]
    exact h.total

theorem toList_ones (ho : ordered.Nodup) :
    (Keyed.ofList (ordered.map (·, 1)) : Weights).toList = ordered.map (·, 1) := by
  rw [Keyed.ofList, Keyed.toList_insertAll]
  · rfl
  · simpa [Function.comp_def] using ho

/-- The bisection ends, with positive weights of all names that sum to one. -/
theorem bisection_halts (hpd : PositiveDefinite cov columns) (hn : columns.Nodup)
    (ho : ordered.Nodup) (hs : ∀ k ∈ ordered, k ∈ columns) (hne : ordered ≠ []) :
    ∃ w, Halts (bisection cov ordered) w ∧ w.keys = ordered ∧ (∀ k ∈ ordered, 0 < weightAt w k) ∧
      (ordered.map (weightAt w)).sum = 1 := by
  have hones : ∀ k ∈ ordered, weightAt (.ofList (ordered.map (·, 1))) k = 1 := by
    intro k hk
    have hget : Dict.get? (Keyed.ofList (ordered.map (·, 1)) : Weights) k = some 1 := by
      rw [Dict.get?_eq_some, toList_ones ho]
      exact List.mem_map_of_mem hk
    rw [weightAt, Dict.getD, hget]
    rfl
  have heven : Blocks (.ofList (ordered.map (·, 1))) [(ordered, 1)] := by
    intro b hb
    obtain rfl := List.mem_singleton.mp hb
    exact ⟨hne, hones⟩
  have hkeys : (Keyed.ofList (ordered.map (·, 1)) : Weights).keys = ordered := by
    simp [Keyed.keys, toList_ones ho, Function.comp_def]
  have hstart : Bisected ordered ([ordered], .ofList (ordered.map (·, 1))) [] [(ordered, 1)] :=
    ⟨rfl, heven, by simp, by simp, hkeys, fun k hk ↦ by rw [hones k hk]; exact one_pos⟩
  have hpass : ∀ s : List (List String) × Weights,
      (∃ done blocks, Bisected ordered s done blocks) → decide (s.1 ≠ []) = true →
        ∃ s', bisect cov s = .ok s' ∧ (∃ done blocks, Bisected ordered s' done blocks) ∧
          pending s'.1 < pending s.1 := by
    rintro s ⟨done, blocks, h⟩ hc
    obtain ⟨s', done', blocks', hs', hhalves, h'⟩ := h.pass hpd hn ho hs
    refine ⟨s', hs', ⟨done', blocks', h'⟩, ?_⟩
    have hne' : ∀ c ∈ s.1, c ≠ [] := by
      intro c hm
      rw [h.clusters] at hm
      obtain ⟨b, hb, rfl⟩ := List.mem_map.mp hm
      exact (h.even b hb).1
    have hpending := pending_halves hne'
    have hpos := List.length_pos_iff.mpr (of_decide_eq_true hc)
    rw [hhalves]
    omega
  obtain ⟨s, hhalts, ⟨done, blocks, h⟩, hc⟩ :=
    halts_of_variant (fun s ↦ s.1 ≠ []) (bisect cov) (fun s ↦ pending s.1) hpass ⟨_, _, hstart⟩
  have hnil : s.1 = [] := by simpa using hc
  have hblocks : blocks = [] := by
    have hcl := h.clusters
    rwa [hnil, eq_comm, List.map_eq_nil_iff] at hcl
  subst hblocks
  refine ⟨s.2, hhalts.bind (halts_pure s.2), h.keys, h.pos, ?_⟩
  have hperm : done.Perm ordered := by simpa using h.names
  rw [← (hperm.map (weightAt s.2)).sum_eq]
  simpa using h.total

end Bisection

/-! ### The whole allocation -/

/-- A positive weight for each column, in the order of the columns, and all of it is given. -/
def FullAllocation (columns : List String) (result : List (String × Option ℚ)) : Prop :=
  ∃ v : String → ℚ, result = columns.map (fun c ↦ (c, some (v c))) ∧ (∀ c ∈ columns, 0 < v c) ∧
    (columns.map v).sum = 1

section Allocation

variable {cov : Covariance} {columns : List String} {order : List ℕ}

theorem pick_ok (h : ∀ i ∈ order, i < columns.length) :
    pick columns order = .ok (order.map fun i ↦ columns.getD i "") := by
  induction order with
  | nil => rfl
  | cons i order ih =>
    have hi := h i List.mem_cons_self
    have ih := ih fun j hj ↦ h j (List.mem_cons_of_mem i hj)
    rw [pick] at ih
    rw [pick, List.mapM_cons, ih, List.getElem?_eq_getElem hi, List.map_cons,
      List.getD_eq_getElem?_getD, List.getElem?_eq_getElem hi]
    rfl

theorem perm_pick (h : order.Perm (List.range columns.length)) :
    (order.map fun i ↦ columns.getD i "").Perm columns := by
  refine (h.map _).trans (List.Perm.of_eq ?_)
  refine List.ext_getElem (by simp) fun i hi hi' ↦ ?_
  simp [hi']

theorem fullAllocation_reindexed {ordered : List String} {w : Weights} (hp : ordered.Perm columns)
    (hk : w.keys = ordered) (hpos : ∀ k ∈ ordered, 0 < weightAt w k)
    (hsum : (ordered.map (weightAt w)).sum = 1) : FullAllocation columns (reindexed w columns) := by
  refine ⟨weightAt w, List.map_congr_left fun c hc ↦ ?_, fun c hc ↦ hpos c (hp.mem_iff.mpr hc), ?_⟩
  · obtain ⟨v, hv⟩ := Dict.mem_keys_iff.mp (hk ▸ hp.mem_iff.mpr hc : c ∈ w.keys)
    rw [weightAt, Dict.getD, hv]
    rfl
  · rw [← (hp.map (weightAt w)).sum_eq]
    exact hsum

/-- For each order of the leaves, the bisection of the columns in that order ends with a full
allocation. -/
theorem bisection_allocates (hpd : PositiveDefinite cov columns) (hn : columns.Nodup)
    (hne : columns ≠ []) (h : order.Perm (List.range columns.length)) :
    ∃ ordered w, pick columns order = .ok ordered ∧ Halts (bisection cov ordered) w ∧
      FullAllocation columns (reindexed w columns) := by
  have hperm := perm_pick h
  have hne' : (order.map fun i ↦ columns.getD i "") ≠ [] := fun he ↦ hne (by
    rw [he] at hperm
    exact hperm.nil_eq.symm)
  obtain ⟨w, hhalts, hk, hpos, hsum⟩ := bisection_halts hpd hn (hperm.nodup_iff.mpr hn)
    (fun k hk ↦ hperm.mem_iff.mp hk) hne'
  exact ⟨_, w, pick_ok fun i hi ↦ List.mem_range.mp (h.mem_iff.mp hi), hhalts,
    fullAllocation_reindexed hperm hk hpos hsum⟩

theorem hierarchicalRiskParity_halts {N : Numerics} {linkage : List ℚ → List LinkRow}
    {r : ReturnStats} (hlen : 2 ≤ r.columns.length) {ordered : List String} {w : Weights}
    (hq : Halts (quasiDiagonal (linkage (r.condensed N.sqrt r.columns))) order)
    (hp : pick r.columns order = .ok ordered) (hb : Halts (bisection r.cov ordered) w) :
    Halts (hierarchicalRiskParity N linkage r) (reindexed w r.columns) := by
  have hmany (fuel : ℕ) : hierarchicalRiskParity N linkage r fuel = (do
      let order ← quasiDiagonal (linkage (r.condensed N.sqrt r.columns)) fuel
      let ordered ← (some (pick r.columns order) : Fueled FrameError (List String))
      let weights ← bisection r.cov ordered fuel
      return reindexed weights r.columns) := by
    unfold hierarchicalRiskParity
    split
    · next hc =>
      rw [hc] at hlen
      exact absurd hlen (by simp)
    · rfl
  obtain ⟨fuel, h⟩ := hq.bind (g := fun fuel order ↦ do
      let ordered ← (some (pick r.columns order) : Fueled FrameError (List String))
      let weights ← bisection r.cov ordered fuel
      return reindexed weights r.columns) (b := reindexed w r.columns) (by
    rw [hp]
    exact hb.bind (halts_pure _))
  exact ⟨fuel, fun m hm ↦ (hmany m).trans (h m hm)⟩

/-- On a valid linkage the order is found, each cluster's leaves are together in it, and from every
order the bisection allocates one between the columns. -/
theorem hierarchical_risk_parity_allocates (n : ℕ) (hn : 2 ≤ n) (link : List LinkRow)
    (hv : ValidLinkage n link) :
    (∃ order, Halts (quasiDiagonal link) order ∧ order.Perm (List.range n) ∧
      ∀ k < link.length, ∃ block, block <:+: order ∧
        ∀ l, l ∈ block ↔ Merges.Under n (link.map LinkRow.merge) l (n + k)) ∧
    ∀ (columns : List String) (cov : Covariance), columns.Nodup → columns.length = n →
      PositiveDefinite cov columns →
      (∀ order, order.Perm (List.range n) → ∃ ordered w, pick columns order = .ok ordered ∧
        Halts (bisection cov ordered) w ∧ FullAllocation columns (reindexed w columns)) ∧
      ∀ (N : Numerics) (linkage : List ℚ → List LinkRow) (corr : String → String → Option ℚ),
        linkage (ReturnStats.condensed N.sqrt ⟨columns, cov, corr⟩ columns) = link →
        ∃ result, Halts (hierarchicalRiskParity N linkage ⟨columns, cov, corr⟩) result ∧
          FullAllocation columns result := by
  have hq := quasiDiagonal_halts hv hn
  have hm := hv.merges
  have hlen : (link.map LinkRow.merge).length = link.length := List.length_map _
  have hroot := hm.leaves_root
  rw [hlen] at hroot
  refine ⟨⟨_, hq, hroot, fun k hk ↦ ?_⟩, fun columns cov hc hl hpd ↦ ⟨fun order ho ↦ ?_,
    fun N linkage corr hlink ↦ ?_⟩⟩
  · refine ⟨_, ?_, fun l ↦ hm.mem_leaves⟩
    have hinfix := hm.leaves_infix (x := n + k) (by rw [hlen]; omega)
    rwa [hlen] at hinfix
  · subst hl
    exact bisection_allocates hpd hc (List.length_pos_iff.mp (by omega)) ho
  · subst hl
    obtain ⟨ordered, w, hp, hb, hfull⟩ := bisection_allocates hpd hc
      (List.length_pos_iff.mp (by omega)) hroot
    refine ⟨_, hierarchicalRiskParity_halts hn ?_ hp hb, hfull⟩
    dsimp only
    rw [hlink]
    exact hq

/-- Three columns of one variance, of which the outer two are merged first. -/
theorem hierarchical_risk_parity_allocates_three :
    let link : List LinkRow := [⟨0, 2, 2⟩, ⟨1, 3, 3⟩]
    let r : ReturnStats :=
      { columns := ["A", "B", "C"], cov := fun a b ↦ if a = b then 1 else 0
        corr := fun _ _ ↦ none }
    ∃ result, Halts (hierarchicalRiskParity .plain (fun _ ↦ link) r) result ∧
      FullAllocation ["A", "B", "C"] result := by
  intro link r
  have hv : ValidLinkage 3 link := by
    refine ⟨⟨rfl, ?_, by decide⟩, ?_⟩
    · intro k a b hk
      match k, hk with
      | 0, hk =>
        cases hk
        decide
      | 1, hk =>
        cases hk
        decide
    · intro last hlast
      cases hlast
      rfl
  have hpd : PositiveDefinite r.cov r.columns := by
    rintro x ⟨c, hc, hx⟩
    have hq : quadratic r.cov r.columns x = x "A" ^ 2 + x "B" ^ 2 + x "C" ^ 2 := by
      simp [quadratic, r]
      ring
    rw [hq]
    have hc : c = "A" ∨ c = "B" ∨ c = "C" := by simpa [r] using hc
    rcases hc with rfl | rfl | rfl <;> positivity
  exact ((hierarchical_risk_parity_allocates 3 (by decide) link hv).2 r.columns r.cov
    (by decide +kernel) rfl hpd).2 .plain (fun _ ↦ link) r.corr rfl

end Allocation

end MarketTrader.Portfolio
