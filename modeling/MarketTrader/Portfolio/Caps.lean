import MarketTrader.Portfolio.Risk
import Mathlib.Algebra.BigOperators.Ring.List
import Mathlib.Algebra.Order.BigOperators.Group.List
import Mathlib.Algebra.Order.Field.Basic
import Mathlib.Algebra.Order.Ring.Abs
import Mathlib.Tactic.Ring

namespace MarketTrader.Portfolio

open Library

variable {limits : RiskLimits} {w w' w'' : Weights}

/-- The second weight lies between zero and the first. -/
def Toward (v u : ℚ) : Prop := (0 ≤ u ∧ u ≤ v) ∨ (v ≤ u ∧ u ≤ 0)

theorem toward_refl (v : ℚ) : Toward v v := by
  rcases le_total 0 v with h | h
  · exact .inl ⟨h, le_refl v⟩
  · exact .inr ⟨le_refl v, h⟩

theorem Toward.trans {a b c : ℚ} (h : Toward a b) (h' : Toward b c) : Toward a c := by
  unfold Toward at *
  grind

theorem Toward.abs_le {v u : ℚ} (h : Toward v u) : |u| ≤ |v| := by
  rcases h with ⟨h₀, h₁⟩ | ⟨h₁, h₀⟩
  · rwa [abs_of_nonneg h₀, abs_of_nonneg (h₀.trans h₁)]
  · rw [abs_of_nonpos h₀, abs_of_nonpos (h₁.trans h₀)]
    exact neg_le_neg h₁

theorem toward_mul {c : ℚ} (h₀ : 0 ≤ c) (h₁ : c ≤ 1) (v : ℚ) : Toward v (v * c) := by
  rcases le_total 0 v with hv | hv
  · exact .inl ⟨mul_nonneg hv h₀, mul_le_of_le_one_right hv h₁⟩
  · refine .inr ⟨?_, mul_nonpos_of_nonpos_of_nonneg hv h₀⟩
    nlinarith

/-- Every weight of the first book is moved toward zero in the second. -/
def Damped (w w' : Weights) : Prop :=
  ∃ f : String → ℚ → ℚ, (∀ k v, Toward v (f k v)) ∧ w' = Dict.mapVals f w

namespace Damped

theorem refl (w : Weights) : Damped w w :=
  ⟨fun _ v ↦ v, fun _ v ↦ toward_refl v, (Dict.mapVals_id fun _ _ ↦ rfl).symm⟩

theorem trans (h : Damped w w') (h' : Damped w' w'') : Damped w w'' := by
  obtain ⟨f, hf, rfl⟩ := h
  obtain ⟨g, hg, rfl⟩ := h'
  exact ⟨fun k v ↦ g k (f k v), fun k v ↦ (hf k v).trans (hg k _), Dict.mapVals_mapVals g f w⟩

theorem exposure_le (h : Damped w w') (p : String → Bool) :
    exposureOf (fun k _ ↦ p k) w' ≤ exposureOf (fun k _ ↦ p k) w := by
  obtain ⟨f, hf, rfl⟩ := h
  simp only [exposureOf, Dict.toList_mapVals, List.filter_map, List.map_map]
  apply List.sum_le_sum
  intro a _
  exact (hf a.1 a.2).abs_le

theorem of_get? (h : Damped w w') {k : String} {u : ℚ} (hu : Dict.get? w' k = some u) :
    ∃ v, Dict.get? w k = some v ∧ Toward v u := by
  obtain ⟨f, hf, rfl⟩ := h
  rw [Dict.get?_mapVals, Option.map_eq_some_iff] at hu
  obtain ⟨v, hv, rfl⟩ := hu
  exact ⟨v, hv, hf k v⟩

end Damped

theorem grossOf_eq_exposureOf (w : Weights) : grossOf w = exposureOf (fun _ _ ↦ true) w := by
  simp [grossOf, exposureOf]

theorem exposureOf_nonneg (p : String → ℚ → Bool) (w : Weights) : 0 ≤ exposureOf p w := by
  apply List.sum_nonneg
  intro a ha
  obtain ⟨b, -, rfl⟩ := List.mem_map.mp ha
  exact abs_nonneg b.2

/-! ### The four caps -/

theorem clip_toward (h : 0 ≤ limits.maxPositionWeight) (v : ℚ) :
    Toward v (clip (-limits.maxPositionWeight) limits.maxPositionWeight v) ∧
      |clip (-limits.maxPositionWeight) limits.maxPositionWeight v| ≤ limits.maxPositionWeight := by
  have hn : -limits.maxPositionWeight ≤ limits.maxPositionWeight := by linarith
  unfold clip Toward
  rw [max_eq_right hn, min_eq_left hn, abs_le]
  grind

theorem damped_clipPositions (h : 0 ≤ limits.maxPositionWeight) (w : Weights) :
    Damped w (clipPositions limits w) :=
  ⟨_, fun _ v ↦ (clip_toward h v).1, rfl⟩

theorem abs_le_of_mem_clipPositions (h : 0 ≤ limits.maxPositionWeight) {k : String} {v : ℚ}
    (hv : Dict.get? (clipPositions limits w) k = some v) : |v| ≤ limits.maxPositionWeight := by
  rw [clipPositions, Dict.get?_mapVals, Option.map_eq_some_iff] at hv
  obtain ⟨u, -, rfl⟩ := hv
  exact (clip_toward h u).2

variable (p : String → Bool) in
theorem capExposure_spec {cap : ℚ} (h : 0 ≤ cap) (w : Weights) :
    Damped w (capExposure p cap w) ∧ exposureOf (fun k _ ↦ p k) (capExposure p cap w) ≤ cap := by
  set exposure := exposureOf (fun k _ ↦ p k) w with hx
  by_cases he : cap < exposure ∧ 0 < exposure
  · obtain ⟨hlt, hpos⟩ := id he
    have hcap : capExposure p cap w =
        Dict.mapVals (fun k v ↦ if p k then v * (cap / exposure) else v) w := if_pos he
    have h₀ : 0 ≤ cap / exposure := div_nonneg h hpos.le
    have h₁ : cap / exposure ≤ 1 := (div_le_one hpos).mpr hlt.le
    have hsum : exposureOf (fun k _ ↦ p k) (capExposure p cap w) = exposure * (cap / exposure) := by
      rw [hcap, hx]
      simp only [exposureOf, Dict.toList_mapVals, List.filter_map, List.map_map]
      rw [← List.sum_map_mul_right]
      refine congrArg List.sum (List.map_congr_left fun a ha ↦ ?_)
      have hin : p a.1 = true := (List.mem_filter.mp ha).2
      rw [Function.comp_apply, if_pos hin, abs_mul]
      exact congrArg _ (abs_of_nonneg h₀)
    refine ⟨hcap ▸ ⟨_, fun k v ↦ ?_, rfl⟩, le_of_eq ?_⟩
    · split
      · exact toward_mul h₀ h₁ v
      · exact toward_refl v
    · rw [hsum, mul_div_cancel₀ _ hpos.ne']
  · have hcap : capExposure p cap w = w := if_neg he
    rw [hcap]
    refine ⟨.refl w, ?_⟩
    by_contra hlt
    rw [not_le] at hlt
    exact he ⟨hlt, h.trans_lt hlt⟩

theorem gross_capExposure_le (cap : ℚ) (w : Weights) :
    grossOf (capExposure (fun _ ↦ true) cap w) ≤ |cap| := by
  by_cases h : cap < grossOf w ∧ 0 < grossOf w
  · have hid : capExposure (fun _ ↦ true) cap w =
        Dict.mapVals (fun _ v ↦ v * (cap / grossOf w)) w := by
      rw [grossOf_eq_exposureOf] at h ⊢
      exact if_pos h
    have hsum : grossOf (capExposure (fun _ ↦ true) cap w) = grossOf w * |cap / grossOf w| := by
      rw [hid, grossOf, Dict.toList_mapVals, List.map_map, grossOf, ← List.sum_map_mul_right]
      refine congrArg List.sum (List.map_congr_left fun a _ ↦ ?_)
      rw [Function.comp_apply, abs_mul]
    rw [hsum, abs_div, abs_of_pos h.2, mul_div_cancel₀ _ h.2.ne']
  · have hid : capExposure (fun _ ↦ true) cap w = w := by
      rw [grossOf_eq_exposureOf] at h
      exact if_neg h
    rw [hid]
    by_contra hlt
    rw [not_le] at hlt
    exact h ⟨(le_abs_self cap).trans_lt hlt, (abs_nonneg cap).trans_lt hlt⟩

theorem capExposure_of_le {p : String → Bool} {cap : ℚ}
    (h : exposureOf (fun k _ ↦ p k) w ≤ cap) : capExposure p cap w = w :=
  if_neg fun he ↦ not_lt.mpr h he.1

section Sectors

variable (sectors : Dict String String)

def sectorExposure (sector : String) (w : Weights) : ℚ :=
  exposureOf (fun k _ ↦ Dict.get? sectors k = some sector) w

theorem foldl_capSector_spec (h : 0 ≤ limits.maxSectorWeight) (names : List String) (w : Weights) :
    let w' := names.foldl (capSector limits sectors) w
    Damped w w' ∧ ∀ sector ∈ names, sectorExposure sectors sector w' ≤ limits.maxSectorWeight := by
  induction names using List.reverseRecOn with
  | nil => exact ⟨.refl w, by simp⟩
  | append_singleton names name ih =>
    obtain ⟨hd, hle⟩ := ih
    intro w'
    have hw' : w' = capSector limits sectors (names.foldl (capSector limits sectors) w) name :=
      List.foldl_append
    obtain ⟨hd', hle'⟩ := capExposure_spec (fun k ↦ Dict.get? sectors k = some name) h
      (names.foldl (capSector limits sectors) w)
    rw [hw']
    refine ⟨hd.trans hd', fun sector hs ↦ ?_⟩
    rcases List.mem_append.mp hs with hs | hs
    · exact (hd'.exposure_le fun k ↦ Dict.get? sectors k = some sector).trans (hle sector hs)
    · rw [List.mem_singleton.mp hs]
      exact hle'

end Sectors

def WithinSectors (limits : RiskLimits) (sectors : Option (Dict String String)) (w : Weights) :
    Prop :=
  ∀ map ∈ sectors, ∀ sector ∈ map.toList.map Prod.snd,
    sectorExposure map sector w ≤ limits.maxSectorWeight

theorem capSectors_spec (h : 0 ≤ limits.maxSectorWeight) (sectors : Option (Dict String String))
    (w : Weights) : Damped w (capSectors limits sectors w) ∧
      WithinSectors limits sectors (capSectors limits sectors w) := by
  cases sectors with
  | none => exact ⟨.refl w, fun map hm ↦ by cases hm⟩
  | some sectors =>
    obtain ⟨hd, hle⟩ := foldl_capSector_spec sectors h (sectors.toList.map Prod.snd).dedup w
    refine ⟨hd, fun map hm sector hs ↦ ?_⟩
    cases hm
    exact hle sector (List.mem_dedup.mpr hs)

theorem capSectors_of_within {sectors : Option (Dict String String)}
    (h : WithinSectors limits sectors w) : capSectors limits sectors w = w := by
  cases sectors with
  | none => rfl
  | some sectors =>
    have hfold : ∀ names : List String, (∀ name ∈ names, name ∈ sectors.toList.map Prod.snd) →
        names.foldl (capSector limits sectors) w = w := by
      intro names hn
      induction names with
      | nil => rfl
      | cons name names ih =>
        have hname : capSector limits sectors w name = w :=
          capExposure_of_le (h sectors rfl name (hn name List.mem_cons_self))
        rw [List.foldl_cons, hname]
        exact ih fun name' hm ↦ hn name' (List.mem_cons_of_mem _ hm)
    exact hfold _ fun name hm ↦ List.mem_dedup.mp hm

/-! ### The net cap -/

/-- The exposure of the dominant side, trimmed by a factor, less what the other side takes off it,
makes up the net. -/
theorem sign_mul_net (net c : ℚ) (l : List (String × ℚ)) :
    (if 0 < net then 1 else -1) *
        (l.map (fun a ↦ if dominant net a.2 then a.2 * c else a.2)).sum =
      ((l.filter (fun a ↦ dominant net a.2)).map (|·.2|)).sum * c -
        ((l.filter (fun a ↦ !dominant net a.2)).map (|·.2|)).sum := by
  induction l with
  | nil => simp
  | cons a l ih =>
    have hsplit : (if 0 < net then (1 : ℚ) else -1) * a.2 =
        if dominant net a.2 then |a.2| else -|a.2| := by
      unfold dominant
      rcases lt_trichotomy a.2 0 with ha | ha | ha
      · rw [abs_of_neg ha]
        split <;> simp [ha, not_lt.mpr ha.le]
      · simp [ha]
      · rw [abs_of_pos ha]
        split <;> simp [ha, not_lt.mpr ha.le]
    rw [List.map_cons, List.sum_cons, mul_add, ih]
    cases hd : dominant net a.2 with
    | false =>
      rw [hd] at hsplit
      simp only [Bool.false_eq_true, if_false] at hsplit ⊢
      rw [hsplit]
      simp [hd]
      ring
    | true =>
      rw [hd] at hsplit
      simp only [if_true] at hsplit ⊢
      rw [← mul_assoc, hsplit]
      simp [hd]
      ring

theorem gross_split (net : ℚ) (l : List (String × ℚ)) (c : ℚ) :
    (l.map (fun a ↦ |if dominant net a.2 then a.2 * c else a.2|)).sum =
      ((l.filter (fun a ↦ dominant net a.2)).map (|·.2|)).sum * |c| +
        ((l.filter (fun a ↦ !dominant net a.2)).map (|·.2|)).sum := by
  induction l with
  | nil => simp
  | cons a l ih =>
    rw [List.map_cons, List.sum_cons, ih]
    cases hd : dominant net a.2 with
    | false => simp [hd]; ring
    | true => simp [hd, abs_mul]; ring

/-- The net is what the dominant side has over the other. -/
theorem abs_netOf (w : Weights) :
    |netOf w| = exposureOf (fun _ v ↦ dominant (netOf w) v) w -
      ((w.toList.filter (fun a ↦ !dominant (netOf w) a.2)).map (|·.2|)).sum := by
  have hsign : (if 0 < netOf w then (1 : ℚ) else -1) * netOf w = |netOf w| := by
    split
    · next hp => rw [one_mul, abs_of_pos hp]
    · next hp => rw [neg_one_mul, abs_of_nonpos (not_lt.mp hp)]
  have hs := sign_mul_net (netOf w) 1 w.toList
  simp only [mul_one, ite_self] at hs
  rw [← hsign]
  exact hs

theorem capNet_spec (h : 0 ≤ limits.maxNetExposure) (w : Weights) :
    Damped w (capNet limits w) ∧
      |netOf (capNet limits w)| ≤ limits.maxNetExposure + 1 / 10 ^ 12 := by
  set net := netOf w with hnet
  by_cases hcap : limits.maxNetExposure + 1 / 10 ^ 12 < |net|
  · set gross := exposureOf (fun _ v ↦ dominant net v) w with hg
    set other := ((w.toList.filter (fun a ↦ !dominant net a.2)).map (|·.2|)).sum with ho
    have hother : 0 ≤ other := exposureOf_nonneg (fun _ v ↦ !dominant net v) w
    have hsum : |net| = gross - other := abs_netOf w
    have hpos : 0 < gross := by linarith
    set c := 1 - (|net| - limits.maxNetExposure) / gross with hc
    have hid : capNet limits w =
        Dict.mapVals (fun _ v ↦ if dominant net v then v * c else v) w := by
      unfold capNet
      exact (if_pos hcap).trans (if_pos hpos)
    have h₁ : c ≤ 1 := by
      have hd : 0 ≤ (|net| - limits.maxNetExposure) / gross := div_nonneg (by linarith) hpos.le
      linarith
    have h₀ : 0 ≤ c := by
      have hd : (|net| - limits.maxNetExposure) / gross ≤ 1 :=
        (div_le_one hpos).mpr (by linarith)
      linarith
    refine ⟨hid ▸ ⟨_, fun k v ↦ ?_, rfl⟩, ?_⟩
    · split
      · exact toward_mul h₀ h₁ v
      · exact toward_refl v
    · -- the trimmed side makes the net come out at the cap
      have hs := sign_mul_net net c w.toList
      have hnet' : (if 0 < net then (1 : ℚ) else -1) * netOf (capNet limits w) =
          limits.maxNetExposure := by
        have hmul : gross * c = gross - (|net| - limits.maxNetExposure) := by
          rw [hc, mul_sub, mul_one, mul_div_cancel₀ _ hpos.ne']
        rw [hid, netOf, Dict.toList_mapVals, List.map_map]
        refine hs.trans ?_
        change gross * c - other = _
        rw [hmul]
        linarith
      have habs : |netOf (capNet limits w)| = limits.maxNetExposure := by
        have ha := congrArg abs hnet'
        rw [abs_mul, abs_of_nonneg h] at ha
        split at ha <;> simpa using ha
      rw [habs]
      linarith
  · have hid : capNet limits w = w := if_neg hcap
    rw [hid]
    exact ⟨.refl w, not_lt.mp hcap⟩

/-- A negative net cap turns a book over, up to that size. -/
theorem gross_capNet_le (limits : RiskLimits) (w : Weights) :
    grossOf (capNet limits w) ≤ max (grossOf w) (-limits.maxNetExposure) := by
  set net := netOf w with hnet
  set gross := exposureOf (fun _ v ↦ dominant net v) w with hg
  set other := ((w.toList.filter (fun a ↦ !dominant net a.2)).map (|·.2|)).sum with ho
  by_cases hcap : limits.maxNetExposure + 1 / 10 ^ 12 < |net| ∧ 0 < gross
  · obtain ⟨hlt, hpos⟩ := hcap
    set c := 1 - (|net| - limits.maxNetExposure) / gross with hc
    have hid : capNet limits w =
        Dict.mapVals (fun _ v ↦ if dominant net v then v * c else v) w := by
      unfold capNet
      exact (if_pos hlt).trans (if_pos hpos)
    have hsum : |net| = gross - other := abs_netOf w
    have hall : grossOf w = gross + other := by
      have hs := gross_split net w.toList 1
      simp only [mul_one, ite_self, abs_one] at hs
      exact hs
    have hmul : gross * |c| = |other + limits.maxNetExposure| := by
      rw [← abs_of_pos hpos, ← abs_mul, hc, mul_sub, mul_one,
        mul_div_cancel₀ _ hpos.ne', hsum]
      congr 1
      ring
    have hafter : grossOf (capNet limits w) = |other + limits.maxNetExposure| + other := by
      rw [hid, grossOf, Dict.toList_mapVals, List.map_map, ← hmul]
      exact gross_split net w.toList c
    rw [hafter, hall, le_max_iff]
    rcases le_total 0 (other + limits.maxNetExposure) with h | h
    · left
      rw [abs_of_nonneg h]
      linarith
    · right
      rw [abs_of_nonpos h]
      linarith
  · have hid : capNet limits w = w := by
      unfold capNet
      by_cases hlt : limits.maxNetExposure + 1 / 10 ^ 12 < |net|
      · exact (if_pos hlt).trans (if_neg fun hpos ↦ hcap ⟨hlt, hpos⟩)
      · exact if_neg hlt
    rw [hid]
    exact le_max_left _ _

theorem capNet_of_le (h : |netOf w| ≤ limits.maxNetExposure + 1 / 10 ^ 12) :
    capNet limits w = w :=
  if_neg (not_lt.mpr h)

/-! ### All caps at once -/

structure WithinCaps (limits : RiskLimits) (sectors : Option (Dict String String)) (w : Weights) :
    Prop where
  position : ∀ k v, Dict.get? w k = some v → |v| ≤ limits.maxPositionWeight
  gross : grossOf w ≤ limits.maxGrossExposure
  sectors : WithinSectors limits sectors w
  net : |netOf w| ≤ limits.maxNetExposure + 1 / 10 ^ 12

def dropZeros (w : Weights) : Weights := w.filter (·.2 ≠ 0)

theorem get?_dropZeros {k : String} {v : ℚ} :
    Dict.get? (dropZeros w) k = some v ↔ Dict.get? w k = some v ∧ v ≠ 0 := by
  simp [Dict.get?_eq_some, dropZeros]

theorem exposureOf_dropZeros (p : String → ℚ → Bool) (w : Weights) :
    exposureOf p (dropZeros w) = exposureOf p w := by
  have hl : ∀ l : List (String × ℚ), (((l.filter (·.2 ≠ 0)).filter
      (fun a ↦ p a.1 a.2)).map (|·.2|)).sum = ((l.filter (fun a ↦ p a.1 a.2)).map (|·.2|)).sum := by
    intro l
    induction l with
    | nil => rfl
    | cons a l ih =>
      by_cases ha : a.2 = 0
      · rw [List.filter_cons_of_neg (by simp [ha]), ih, List.filter_cons]
        split <;> simp [ha]
      · rw [List.filter_cons_of_pos (by simp [ha]), List.filter_cons, List.filter_cons]
        split
        · rw [List.map_cons, List.map_cons, List.sum_cons, List.sum_cons, ih]
        · exact ih
  exact hl w.toList

theorem netOf_dropZeros (w : Weights) : netOf (dropZeros w) = netOf w := by
  have hl : ∀ l : List (String × ℚ), ((l.filter (·.2 ≠ 0)).map (·.2)).sum = (l.map (·.2)).sum := by
    intro l
    induction l with
    | nil => rfl
    | cons a l ih =>
      by_cases ha : a.2 = 0
      · rw [List.filter_cons_of_neg (by simp [ha]), ih]
        simp [ha]
      · rw [List.filter_cons_of_pos (by simp [ha])]
        simp only [List.map_cons, List.sum_cons, ih]
  exact hl w.toList

theorem WithinCaps.dropZeros {sectors : Option (Dict String String)}
    (h : WithinCaps limits sectors w) : WithinCaps limits sectors (dropZeros w) where
  position k v hv := h.position k v (get?_dropZeros.mp hv).1
  gross := by
    rw [grossOf_eq_exposureOf, exposureOf_dropZeros, ← grossOf_eq_exposureOf]
    exact h.gross
  sectors map hm sector hs := by
    rw [sectorExposure, exposureOf_dropZeros]
    exact h.sectors map hm sector hs
  net := by
    rw [netOf_dropZeros]
    exact h.net

theorem gross_applyRiskLimits (limits : RiskLimits) (weights : Weights) :
    grossOf (applyRiskLimits weights limits none) ≤
      max |limits.maxGrossExposure| (-limits.maxNetExposure) := by
  have hdrop := exposureOf_dropZeros (fun _ _ ↦ true)
    (capNet limits (capGross limits (clipPositions limits weights)))
  rw [← grossOf_eq_exposureOf, ← grossOf_eq_exposureOf] at hdrop
  exact hdrop.le.trans ((gross_capNet_le limits _).trans
    (max_le_max (gross_capExposure_le _ _) le_rfl))

structure RiskLimits.Nonneg (limits : RiskLimits) : Prop where
  position : 0 ≤ limits.maxPositionWeight
  gross : 0 ≤ limits.maxGrossExposure
  net : 0 ≤ limits.maxNetExposure
  sector : 0 ≤ limits.maxSectorWeight

section Book

variable (h : limits.Nonneg) (weights : Weights) (sectors : Option (Dict String String))

include h

/-- No later step undoes what an earlier one enforced, since each only moves weights toward
zero. -/
theorem damped_capped :
    let capped := capNet limits (capSectors limits sectors (capGross limits
      (clipPositions limits weights)))
    Damped weights capped ∧ WithinCaps limits sectors capped := by
  intro capped
  have hclip := damped_clipPositions h.position weights
  obtain ⟨hgross, hg⟩ := capExposure_spec (fun _ ↦ true) h.gross (clipPositions limits weights)
  obtain ⟨hsector, hs⟩ := capSectors_spec h.sector sectors
    (capGross limits (clipPositions limits weights))
  obtain ⟨hnet, hn⟩ := capNet_spec h.net
    (capSectors limits sectors (capGross limits (clipPositions limits weights)))
  refine ⟨((hclip.trans hgross).trans hsector).trans hnet, ?_, ?_, ?_, hn⟩
  · intro k u hu
    obtain ⟨v, hv, ht⟩ := ((hgross.trans hsector).trans hnet).of_get? hu
    exact ht.abs_le.trans (abs_le_of_mem_clipPositions h.position hv)
  · rw [grossOf_eq_exposureOf]
    exact ((hsector.trans hnet).exposure_le fun _ ↦ true).trans hg
  · intro map hm sector hsec
    exact (hnet.exposure_le fun k ↦ Dict.get? map k = some sector).trans (hs map hm sector hsec)

theorem withinCaps_applyRiskLimits :
    WithinCaps limits sectors (applyRiskLimits weights limits sectors) :=
  (damped_capped h weights sectors).2.dropZeros

/-- A weight of the book has the sign of the weight that it comes from, and is no larger. -/
theorem applyRiskLimits_toward {k : String} {u : ℚ}
    (hu : Dict.get? (applyRiskLimits weights limits sectors) k = some u) :
    ∃ v, Dict.get? weights k = some v ∧ ((0 < u ∧ u ≤ v) ∨ (v ≤ u ∧ u < 0)) := by
  obtain ⟨hu, hne⟩ := get?_dropZeros.mp hu
  obtain ⟨v, hv, ht⟩ := (damped_capped h weights sectors).1.of_get? hu
  refine ⟨v, hv, ?_⟩
  rcases ht with ⟨h₀, h₁⟩ | ⟨h₁, h₀⟩
  · exact .inl ⟨lt_of_le_of_ne h₀ (Ne.symm hne), h₁⟩
  · exact .inr ⟨h₁, lt_of_le_of_ne h₀ hne⟩

end Book

theorem applyRiskLimits_of_within {sectors : Option (Dict String String)}
    (h : WithinCaps limits sectors w) (hz : ∀ a ∈ w.toList, a.2 ≠ 0) :
    applyRiskLimits w limits sectors = w := by
  have hclip : clipPositions limits w = w := by
    refine Dict.mapVals_id fun a ha ↦ ?_
    have hle := abs_le.mp (h.position a.1 a.2 (Dict.get?_eq_some.mpr ha))
    have hn : -limits.maxPositionWeight ≤ limits.maxPositionWeight := hle.1.trans hle.2
    rw [clip, max_eq_right hn, min_eq_left hn, max_eq_right hle.1, min_eq_right hle.2]
  have hgross : capGross limits w = w := by
    apply capExposure_of_le
    rw [← grossOf_eq_exposureOf]
    exact h.gross
  rw [applyRiskLimits, hclip, hgross, capSectors_of_within h.sectors, capNet_of_le h.net]
  apply Keyed.ext
  rw [Keyed.toList_filter, List.filter_eq_self]
  intro a ha
  simpa using hz a ha

end MarketTrader.Portfolio
