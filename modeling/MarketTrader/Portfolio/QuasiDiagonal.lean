import MarketTrader.Library.Dendrogram
import MarketTrader.Library.While

namespace MarketTrader.Portfolio

open Library

/-- A row of a linkage matrix as integers. -/
structure LinkRow where
  first : ℕ
  second : ℕ
  size : ℕ

def LinkRow.merge (r : LinkRow) : ℕ × ℕ := (r.first, r.second)

inductive FrameError
  | indexError
  | keyError
deriving DecidableEq

/-! ### The order of the leaves -/

/-- The values of a series at its positions, under the labels `0, 2, 4, …`. -/
def evenLabels (order : List ℕ) : List (ℕ × ℕ) := order.zipIdx.map fun p ↦ (2 * p.2, p.1)

/-- New values under some of the labels. -/
def assign (order : List (ℕ × ℕ)) (labels values : List ℕ) : List (ℕ × ℕ) :=
  order.map fun p ↦ (p.1, ((labels.zip values).lookup p.1).getD p.2)

def rowsAt (link : List LinkRow) (indices : List ℕ) : Except FrameError (List LinkRow) :=
  indices.mapM fun j ↦ (link[j]?).elim (.error .indexError) .ok

def isCluster (nItems : ℕ) (p : ℕ × ℕ) : Bool := nItems ≤ p.2

/-- One pass: the first of a cluster's two parts takes its place, and the second one the odd label
behind it. -/
def expand (link : List LinkRow) (nItems : ℕ) (order : List ℕ) : Except FrameError (List ℕ) := do
  let order := evenLabels order
  let clusters := order.filter (isCluster nItems)
  let i := clusters.map Prod.fst
  let rows ← rowsAt link (clusters.map fun p ↦ p.2 - nItems)
  let order := assign order i (rows.map LinkRow.first)
  let order := order ++ (i.map (· + 1)).zip (rows.map LinkRow.second)
  return (order.mergeSort fun a b ↦ a.1 ≤ b.1).map Prod.snd

def quasiDiagonal (link : List LinkRow) (fuel : ℕ) : Fueled FrameError (List ℕ) :=
  match link.getLast? with
  | none => throw .indexError
  | some last =>
    whileLoop (fun order ↦ order.max?.any (last.size ≤ ·)) (expand link last.size) fuel
      [last.first, last.second]

/-- What one pass makes of a value. -/
def parts (row : ℕ → LinkRow) (nItems v : ℕ) : List ℕ :=
  if nItems ≤ v then [(row v).first, (row v).second] else [v]

/-! ### What a pass does -/

section Pass

variable {link : List LinkRow} {row : ℕ → LinkRow} {nItems : ℕ} {order : List ℕ}
  {l : List (ℕ × ℕ)}

theorem lookup_map_of_mem {g : ℕ × ℕ → ℕ} {p : ℕ × ℕ} (hl : (l.map Prod.fst).Nodup)
    (hp : p ∈ l) : (l.map fun q ↦ (q.1, g q)).lookup p.1 = some (g p) := by
  induction l with
  | nil => cases hp
  | cons q l ih =>
    obtain ⟨hq, hl⟩ := List.nodup_cons.mp hl
    rw [List.map_cons, List.lookup_cons]
    rcases List.mem_cons.mp hp with rfl | hp
    · rw [beq_self_eq_true]
    · have hne : (p.1 == q.1) = false :=
        beq_eq_false_iff_ne.mpr fun h ↦ hq (h ▸ List.mem_map_of_mem hp)
      rw [hne]
      exact ih hl hp

/-- Only the values that are assigned change. -/
theorem assign_filter {c : ℕ × ℕ → Bool} {g : ℕ × ℕ → ℕ} (hl : (l.map Prod.fst).Nodup) :
    assign l ((l.filter c).map Prod.fst) ((l.filter c).map g) =
      l.map fun p ↦ (p.1, if c p then g p else p.2) := by
  refine List.map_congr_left fun p hp ↦ ?_
  rw [List.zip_map']
  by_cases hc : c p = true
  · have hn : ((l.filter c).map Prod.fst).Nodup := hl.sublist (List.filter_sublist.map _)
    rw [lookup_map_of_mem hn (List.mem_filter.mpr ⟨hp, hc⟩), if_pos hc]
    rfl
  · have hnone : ((l.filter c).map fun q ↦ (q.1, g q)).lookup p.1 = none := by
      refine List.lookup_eq_none_iff.mpr fun q hq ↦ ?_
      obtain ⟨q', hq', rfl⟩ := List.mem_map.mp hq
      obtain ⟨hm, hcq⟩ := List.mem_filter.mp hq'
      refine bne_iff_ne.mpr fun h ↦ hc ?_
      rwa [List.inj_on_of_nodup_map hl hp hm h]
    rw [hnone, if_neg hc]
    rfl

theorem evenLabels_pairwise (order : List ℕ) (k : ℕ) :
    ((order.zipIdx k).map fun p ↦ (2 * p.2, p.1)).Pairwise fun p q ↦ p.1 + 2 ≤ q.1 := by
  induction order generalizing k with
  | nil => exact .nil
  | cons v order ih =>
    rw [List.zipIdx_cons, List.map_cons, List.pairwise_cons]
    refine ⟨fun q hq ↦ ?_, ih (k + 1)⟩
    obtain ⟨p, hp, rfl⟩ := List.mem_map.mp hq
    have hk := List.le_snd_of_mem_zipIdx hp
    dsimp only
    omega

/-- The parts of a labelled value under their labels. -/
def labelledParts (row : ℕ → LinkRow) (nItems : ℕ) (p : ℕ × ℕ) : List (ℕ × ℕ) :=
  if nItems ≤ p.2 then [(p.1, (row p.2).first), (p.1 + 1, (row p.2).second)] else [p]

theorem label_of_mem_labelledParts {p q : ℕ × ℕ} (h : q ∈ labelledParts row nItems p) :
    q.1 = p.1 ∨ q.1 = p.1 + 1 := by
  unfold labelledParts at h
  split at h
  · rcases List.mem_pair.mp h with rfl | rfl
    · exact .inl rfl
    · exact .inr rfl
  · exact .inl (by rw [List.mem_singleton.mp h])

theorem labelledParts_sorted (hl : l.Pairwise fun p q ↦ p.1 + 2 ≤ q.1) :
    (l.flatMap (labelledParts row nItems)).Pairwise fun p q ↦ p.1 < q.1 := by
  induction l with
  | nil => exact .nil
  | cons p l ih =>
    obtain ⟨hp, hl⟩ := List.pairwise_cons.mp hl
    rw [List.flatMap_cons, List.pairwise_append]
    refine ⟨?_, ih hl, fun q hq r hr ↦ ?_⟩
    · unfold labelledParts
      split
      · simp
      · simp
    · obtain ⟨p', hp', hr⟩ := List.mem_flatMap.mp hr
      have hle := hp p' hp'
      have hq := label_of_mem_labelledParts hq
      have hr := label_of_mem_labelledParts hr
      omega

def firstPart (row : ℕ → LinkRow) (nItems : ℕ) (p : ℕ × ℕ) : ℕ × ℕ :=
  (p.1, if nItems ≤ p.2 then (row p.2).first else p.2)

def secondPart (row : ℕ → LinkRow) (p : ℕ × ℕ) : ℕ × ℕ := (p.1 + 1, (row p.2).second)

theorem perm_labelledParts (row : ℕ → LinkRow) (nItems : ℕ) (l : List (ℕ × ℕ)) :
    (l.map (firstPart row nItems) ++
      (l.filter (isCluster nItems)).map (secondPart row)).Perm
      (l.flatMap (labelledParts row nItems)) := by
  induction l with
  | nil => exact .nil
  | cons p l ih =>
    rw [List.map_cons, List.flatMap_cons, labelledParts, firstPart]
    by_cases hp : nItems ≤ p.2
    · have hc : isCluster nItems p = true := decide_eq_true hp
      rw [List.filter_cons_of_pos hc, if_pos hp, if_pos hp, List.map_cons]
      exact (List.perm_middle.trans (ih.cons _)).cons _
    · rw [List.filter_cons_of_neg (by simpa [isCluster] using hp), if_neg hp, if_neg hp]
      exact ih.cons _

theorem rowsAt_eq (h : ∀ v ∈ order, nItems ≤ v → link[v - nItems]? = some (row v))
    (hl : ∀ p ∈ l, p.2 ∈ order) :
    rowsAt link ((l.filter (isCluster nItems)).map fun p ↦ p.2 - nItems) =
      .ok ((l.filter (isCluster nItems)).map fun p ↦ row p.2) := by
  induction l with
  | nil => rfl
  | cons p l ih =>
    have ih := ih fun q hq ↦ hl q (List.mem_cons_of_mem p hq)
    by_cases hp : nItems ≤ p.2
    · have hc : isCluster nItems p = true := decide_eq_true hp
      rw [List.filter_cons_of_pos hc, List.map_cons, List.map_cons, rowsAt,
        List.mapM_cons, h p.2 (hl p List.mem_cons_self) hp]
      rw [rowsAt] at ih
      rw [ih]
      rfl
    · rw [List.filter_cons_of_neg (by simpa [isCluster] using hp)]
      exact ih

/-- Each cluster is replaced by its two parts where it stands. -/
theorem expand_eq (h : ∀ v ∈ order, nItems ≤ v → link[v - nItems]? = some (row v)) :
    expand link nItems order = .ok (order.flatMap (parts row nItems)) := by
  have hsorted := evenLabels_pairwise order 0
  have hnodup : ((evenLabels order).map Prod.fst).Nodup :=
    List.pairwise_map.mpr (hsorted.imp fun hpq ↦ by omega)
  have hmem : ∀ p ∈ evenLabels order, p.2 ∈ order := by
    intro p hp
    obtain ⟨q, hq, rfl⟩ := List.mem_map.mp hp
    exact List.fst_mem_of_mem_zipIdx hq
  have hassign : assign (evenLabels order)
      (((evenLabels order).filter (isCluster nItems)).map Prod.fst)
      ((((evenLabels order).filter (isCluster nItems)).map fun p ↦ row p.2).map
        LinkRow.first) = (evenLabels order).map (firstPart row nItems) := by
    rw [List.map_map, assign_filter hnodup]
    refine List.map_congr_left fun p _ ↦ ?_
    simp [firstPart, isCluster]
  have hsort : (((evenLabels order).map (firstPart row nItems) ++
      ((evenLabels order).filter (isCluster nItems)).map (secondPart row)).mergeSort
      fun a b ↦ decide (a.1 ≤ b.1)) = (evenLabels order).flatMap (labelledParts row nItems) := by
    have hparts : ((evenLabels order).flatMap (labelledParts row nItems)).Pairwise
        fun p q ↦ p.1 < q.1 := labelledParts_sorted hsorted
    have hperm := (List.mergeSort_perm _ fun a b : ℕ × ℕ ↦ decide (a.1 ≤ b.1)).trans
      (perm_labelledParts row nItems (evenLabels order))
    refine List.Perm.eq_of_pairwise (fun a b ha hb hab hba ↦ ?_)
      (List.pairwise_mergeSort ?_ ?_ _) (hparts.imp fun hpq ↦ decide_eq_true hpq.le) hperm
    · have hn : (((evenLabels order).flatMap (labelledParts row nItems)).map Prod.fst).Nodup :=
        List.pairwise_map.mpr (hparts.imp fun hpq ↦ hpq.ne)
      exact List.inj_on_of_nodup_map hn (hperm.mem_iff.mp ha) hb
        (Nat.le_antisymm (of_decide_eq_true hab) (of_decide_eq_true hba))
    · intro a b c hab hbc
      simp only [decide_eq_true_eq] at hab hbc ⊢
      omega
    · intro a b
      simp only [Bool.or_eq_true, decide_eq_true_eq]
      omega
  have hvalues : ((evenLabels order).flatMap (labelledParts row nItems)).map Prod.snd =
      order.flatMap (parts row nItems) := by
    have horder : (evenLabels order).map Prod.snd = order := by
      rw [evenLabels, List.map_map]
      exact List.zipIdx_map_fst 0 order
    conv_rhs => rw [← horder]
    rw [List.map_flatMap, List.flatMap_map]
    refine List.flatMap_congr fun p _ ↦ ?_
    unfold labelledParts parts
    split
    · rfl
    · rfl
  rw [expand]
  dsimp only
  rw [rowsAt_eq h hmem]
  change Except.ok _ = _
  rw [hassign, List.map_map, List.map_map, List.zip_map']
  exact congrArg Except.ok ((congrArg (List.map Prod.snd) hsort).trans hvalues)

end Pass

/-! ### The loop -/

/-- What a single-linkage clustering of `n` leaves returns, as far as the order reads it. -/
structure ValidLinkage (n : ℕ) (link : List LinkRow) : Prop where
  merges : Merges.Valid n (link.map LinkRow.merge)
  size : ∀ last, link.getLast? = some last → last.size = n

section Loop

variable {link : List LinkRow} {n : ℕ} {order : List ℕ}

theorem any_max?_iff : order.max?.any (n ≤ ·) = true ↔ ∃ v ∈ order, n ≤ v := by
  cases hm : order.max? with
  | none =>
    rw [List.max?_eq_none_iff] at hm
    simp [hm]
  | some m =>
    obtain ⟨hmem, hle⟩ := List.max?_eq_some_iff.mp hm
    simp only [Option.any_some, decide_eq_true_eq]
    exact ⟨fun h ↦ ⟨m, hmem, h⟩, fun ⟨v, hv, hn⟩ ↦ hn.trans (hle v hv)⟩

theorem length_le_flatMap {f : ℕ → List ℕ} (h : ∀ v ∈ order, f v ≠ []) :
    order.length ≤ (order.flatMap f).length := by
  induction order with
  | nil => exact le_rfl
  | cons v order ih =>
    have hv := List.length_pos_iff.mpr (h v List.mem_cons_self)
    have ih := ih fun w hw ↦ h w (List.mem_cons_of_mem v hw)
    rw [List.flatMap_cons, List.length_append, List.length_cons]
    omega

theorem length_lt_flatMap {row : ℕ → LinkRow} (h : ∃ v ∈ order, n ≤ v) :
    order.length < (order.flatMap (parts row n)).length := by
  induction order with
  | nil =>
    obtain ⟨v, hv, -⟩ := h
    cases hv
  | cons v order ih =>
    have hle : order.length ≤ (order.flatMap (parts row n)).length :=
      length_le_flatMap fun w _ ↦ by
        unfold parts
        split
        · exact List.cons_ne_nil _ _
        · exact List.cons_ne_nil _ _
    rw [List.flatMap_cons, List.length_append, List.length_cons, parts]
    obtain ⟨w, hw, hn⟩ := h
    split
    · simp only [List.length_cons, List.length_nil]
      omega
    · next hv =>
      have hw : w ∈ order := (List.mem_cons.mp hw).resolve_left fun he ↦ hv (he ▸ hn)
      have ih := ih ⟨w, hw, hn⟩
      simp only [List.length_cons, List.length_nil]
      omega

/-- The values are clusters whose leaves, put together, are all leaves. -/
structure Unfolded (n : ℕ) (link : List LinkRow) (order : List ℕ) : Prop where
  bound : ∀ v ∈ order, v < n + link.length
  leaves : order.flatMap (Merges.leaves n (link.map LinkRow.merge)) =
    Merges.leaves n (link.map LinkRow.merge) (n + link.length - 1)

/-- The row that makes a cluster. -/
def rowOf (n : ℕ) (link : List LinkRow) (v : ℕ) : LinkRow := link.getD (v - n) ⟨0, 0, 0⟩

theorem getElem?_rowOf {v : ℕ} (hn : n ≤ v) (hv : v < n + link.length) :
    link[v - n]? = some (rowOf n link v) := by
  have hlt : v - n < link.length := by omega
  rw [rowOf, List.getD_eq_getElem?_getD, List.getElem?_eq_getElem hlt]
  rfl

theorem merge_rowOf {v : ℕ} (hn : n ≤ v) (hv : v < n + link.length) :
    (link.map LinkRow.merge)[v - n]? = some ((rowOf n link v).first, (rowOf n link v).second) := by
  rw [List.getElem?_map, getElem?_rowOf hn hv]
  rfl

/-- A pass keeps the leaves, and makes the order longer where it stands for fewer values than
leaves. -/
theorem Unfolded.pass (hv : ValidLinkage n link) (h : Unfolded n link order) :
    Unfolded n link (order.flatMap (parts (rowOf n link) n)) := by
  have hpart (v : ℕ) (hm : v ∈ order) :
      (∀ w ∈ parts (rowOf n link) n v, w < n + link.length) ∧
        (parts (rowOf n link) n v).flatMap (Merges.leaves n (link.map LinkRow.merge)) =
          Merges.leaves n (link.map LinkRow.merge) v := by
    have hb := h.bound v hm
    unfold parts
    split
    · next hn =>
      have hmerge := merge_rowOf hn hb
      have hle := hv.merges.leaves_merge hmerge
      obtain ⟨hf, hs⟩ := hv.merges.earlier _ _ _ hmerge
      rw [Nat.add_sub_cancel' hn] at hf hs hle
      refine ⟨fun w hw ↦ ?_, ?_⟩
      · rcases List.mem_pair.mp hw with rfl | rfl
        · omega
        · omega
      · rw [hle, List.flatMap_cons, List.flatMap_cons, List.flatMap_nil, List.append_nil]
    · refine ⟨fun w hw ↦ ?_, by simp⟩
      rwa [List.mem_singleton.mp hw]
  refine ⟨fun w hw ↦ ?_, ?_⟩
  · obtain ⟨v, hm, hw⟩ := List.mem_flatMap.mp hw
    exact (hpart v hm).1 w hw
  · rw [List.flatMap_assoc, List.flatMap_congr fun v hm ↦ (hpart v hm).2, h.leaves]

theorem Unfolded.length_le (hv : ValidLinkage n link) (h : Unfolded n link order) :
    order.length ≤
      (Merges.leaves n (link.map LinkRow.merge) (n + link.length - 1)).length := by
  rw [← h.leaves]
  exact length_le_flatMap fun v hm ↦
    hv.merges.leaves_ne_nil (by rw [List.length_map]; exact h.bound v hm)

/-- The order is that of the leaves under the last cluster. -/
theorem quasiDiagonal_halts (hv : ValidLinkage n link) (hn : 2 ≤ n) :
    Halts (quasiDiagonal link)
      (Merges.leaves n (link.map LinkRow.merge) (n + link.length - 1)) := by
  have hlen : link.length + 1 = n := by simpa using hv.merges.length
  have hlast : link.getLast? = some (rowOf n link (n + link.length - 1)) := by
    rw [List.getLast?_eq_getElem?, ← getElem?_rowOf (by omega) (by omega)]
    congr 1
    omega
  have hstart : Unfolded n link [(rowOf n link (n + link.length - 1)).first,
      (rowOf n link (n + link.length - 1)).second] := by
    have hroot : Unfolded n link [n + link.length - 1] :=
      ⟨fun v hm ↦ by rw [List.mem_singleton.mp hm]; omega, by simp⟩
    have h := hroot.pass hv
    rwa [List.flatMap_singleton, parts, if_pos (by omega)] at h
  unfold quasiDiagonal
  rw [hlast]
  dsimp only
  rw [hv.size _ hlast]
  obtain ⟨order, hhalts, hi, hc⟩ := halts_of_variant
    (fun order ↦ order.max?.any (n ≤ ·)) (expand link n) (I := Unfolded n link)
    (fun order ↦
      (Merges.leaves n (link.map LinkRow.merge) (n + link.length - 1)).length - order.length)
    (fun order hi hc ↦ by
      have hrows : ∀ v ∈ order, n ≤ v → link[v - n]? = some (rowOf n link v) :=
        fun v hm hnv ↦ getElem?_rowOf hnv (hi.bound v hm)
      refine ⟨_, expand_eq hrows, hi.pass hv, ?_⟩
      have hlt : order.length < (order.flatMap (parts (rowOf n link) n)).length :=
        length_lt_flatMap (any_max?_iff.mp hc)
      have hle := (hi.pass hv).length_le hv
      omega) hstart
  have hleaf : ∀ v ∈ order, v < n := by
    intro v hm
    by_contra hnv
    rw [any_max?_iff.mpr ⟨v, hm, not_lt.mp hnv⟩] at hc
    cases hc
  have horder : order.flatMap (Merges.leaves n (link.map LinkRow.merge)) = order := by
    rw [List.flatMap_congr fun v hm ↦ Merges.leaves_leaf (hleaf v hm)]
    exact List.flatMap_singleton' order
  rw [← hi.leaves, horder]
  exact hhalts

end Loop

end MarketTrader.Portfolio
