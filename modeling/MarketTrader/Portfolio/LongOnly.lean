import MarketTrader.Portfolio.Caps
import MarketTrader.Portfolio.Sizing

namespace MarketTrader.Portfolio

open Library Features Backtest

variable {names names' : List String} {w : Weights} {limits : RiskLimits}

/-- A book that is long only, in some of the names. -/
def LongIn (names : List String) (w : Weights) : Prop := ∀ a ∈ w.toList, a.1 ∈ names ∧ 0 ≤ a.2

namespace LongIn

theorem empty (names : List String) : LongIn names .empty := fun a ha ↦ by cases ha

theorem mono (h : LongIn names w) (hn : ∀ s ∈ names, s ∈ names') : LongIn names' w :=
  fun a ha ↦ ⟨hn _ (h a ha).1, (h a ha).2⟩

theorem of_list {l : List (String × ℚ)} (h : ∀ a ∈ l, a.1 ∈ names ∧ 0 ≤ a.2) :
    LongIn names (.ofList l) :=
  fun a ha ↦ h a (Keyed.mem_of_mem_ofList ha)

theorem mapVals (h : LongIn names w) {f : String → ℚ → ℚ} (hf : ∀ k v, 0 ≤ v → 0 ≤ f k v) :
    LongIn names (Dict.mapVals f w) := by
  intro a ha
  obtain ⟨b, hb, rfl⟩ := List.mem_map.mp ha
  exact ⟨(h b hb).1, hf b.1 b.2 (h b hb).2⟩

theorem filter (h : LongIn names w) (p : String × ℚ → Bool) : LongIn names (w.filter p) :=
  fun a ha ↦ h a (List.mem_of_mem_filter ha)

theorem getD_nonneg (h : LongIn names w) (symbol : String) : 0 ≤ Dict.getD w symbol 0 := by
  unfold Dict.getD
  cases hs : Dict.get? w symbol with
  | none => exact le_rfl
  | some v => exact (h _ (Dict.get?_eq_some.mp hs)).2

/-- The limits leave every weight on its side of zero. -/
theorem applyRiskLimits (h : LongIn names w) (hl : limits.Nonneg)
    (sectors : Option (Dict String String)) : LongIn names (applyRiskLimits w limits sectors) := by
  intro a ha
  obtain ⟨v, hv, hu⟩ := applyRiskLimits_toward hl w sectors (Dict.get?_eq_some.mpr ha)
  obtain ⟨hname, hpos⟩ := h _ (Dict.get?_eq_some.mp hv)
  refine ⟨hname, ?_⟩
  rcases hu with ⟨h₀, -⟩ | ⟨h₁, h₀⟩
  · exact h₀.le
  · exact absurd (hpos.trans_lt (h₁.trans_lt h₀)) (lt_irrefl 0)

end LongIn

/-- Shares by the size of the parts, unless they sum up to nothing. -/
def shares (parts : List (String × ℚ)) : Option Weights :=
  if 0 < (parts.map Prod.snd).sum then
    some (.ofList (parts.map (fun p ↦ (p.1, p.2 / (parts.map Prod.snd).sum))))
  else none

theorem longIn_shares {parts : List (String × ℚ)} (h : ∀ a ∈ parts, a.1 ∈ names ∧ 0 ≤ a.2)
    (hw : shares parts = some w) : LongIn names w := by
  rw [shares, Option.ite_none_right_eq_some, Option.some_inj] at hw
  obtain ⟨ht, rfl⟩ := hw
  apply LongIn.of_list
  intro a ha
  obtain ⟨b, hb, rfl⟩ := List.mem_map.mp ha
  exact ⟨(h b hb).1, div_nonneg (h b hb).2 ht.le⟩

theorem longIn_equalWeights (names : List String) : LongIn names (equalWeights names) := by
  apply LongIn.of_list
  intro a ha
  obtain ⟨s, hs, rfl⟩ := List.mem_map.mp ha
  exact ⟨hs, one_div_nonneg.mpr (Nat.cast_nonneg _)⟩

theorem longIn_volatilityTargetWeights (N : Numerics) (h : LongIn names w) (cov : List (List ℚ))
    {targetVol : ℚ} (ht : 0 ≤ targetVol) :
    LongIn names (volatilityTargetWeights N w cov targetVol) := by
  unfold volatilityTargetWeights
  dsimp only
  split
  · exact h
  · next hv => exact h.mapVals fun _ v hpos ↦ mul_nonneg hpos (div_nonneg ht (not_le.mp hv).le)

theorem fst_crossSectionalZscore (sqrt : ℚ → ℚ) (s : Scores) :
    (crossSectionalZscore sqrt s).map Prod.fst = s.map Prod.fst := by
  unfold crossSectionalZscore
  dsimp only
  split <;> exact List.map_map

theorem longIn_tiltWeights {N : Numerics} (hexp : ∀ x, 0 ≤ N.exp x) (scores : Option Scores)
    (names : List String) (tiltStrength : ℚ) :
    LongIn names (tiltWeights N scores names tiltStrength) := by
  have hbase := longIn_equalWeights names
  cases scores with
  | none => exact hbase
  | some scores =>
    by_cases ht : tiltStrength ≤ 0
    · have hid : tiltWeights N (some scores) names tiltStrength = equalWeights names := if_pos ht
      rwa [hid]
    · let filled := (reindex scores names).map (fun p ↦ (p.1, some (p.2.getD 0)))
      let raw := (crossSectionalZscore N.sqrt filled).map
        (fun p ↦ (p.1, N.exp (tiltStrength * clip (-3) 3 (p.2.getD 0))))
      have hid : tiltWeights N (some scores) names tiltStrength =
          (shares raw).getD (equalWeights names) := by
        refine (if_neg ht).trans ?_
        unfold shares
        split <;> rfl
      have hraw : ∀ a ∈ raw, a.1 ∈ names ∧ 0 ≤ a.2 := by
        intro a ha
        obtain ⟨b, hb, rfl⟩ := List.mem_map.mp ha
        have hfst := List.mem_map_of_mem (f := Prod.fst) hb
        rw [fst_crossSectionalZscore, List.map_map, reindex, List.map_map] at hfst
        obtain ⟨s, hs, hfst⟩ := List.mem_map.mp hfst
        exact ⟨hfst ▸ hs, hexp _⟩
      rw [hid]
      cases hw : shares raw with
      | none => exact hbase
      | some book => exact longIn_shares hraw hw

theorem withinCaps_empty (hl : limits.Nonneg) (sectors : Option (Dict String String)) :
    WithinCaps limits sectors .empty where
  position k v hv := by cases hv
  gross := hl.gross
  sectors map hm sector hs := hl.sector
  net := by
    have hzero : netOf (.empty : Weights) = 0 := rfl
    have hn := hl.net
    rw [hzero, abs_zero]
    linarith

theorem withinCaps_sizeBook (N : Numerics) (returns : PriceFrame) (targetVol : ℚ)
    (hl : limits.Nonneg) (scores : Option Scores) (tiltStrength : ℚ) (lookback : ℤ)
    (sectors : Option (Dict String String)) (regimeDerisk : ℚ) : WithinCaps limits sectors
      (sizeBook N returns targetVol limits scores tiltStrength lookback sectors regimeDerisk) := by
  unfold sizeBook
  dsimp only
  split
  · exact withinCaps_empty hl sectors
  · exact withinCaps_applyRiskLimits hl _ sectors

theorem longIn_sizeBook {N : Numerics} (hexp : ∀ x, 0 ≤ N.exp x) (returns : PriceFrame)
    {targetVol : ℚ} (ht : 0 ≤ targetVol) (hl : limits.Nonneg) (scores : Option Scores)
    (tiltStrength : ℚ) (lookback : ℤ) (sectors : Option (Dict String String))
    (regimeDerisk : ℚ) :
    LongIn returns.names
      (sizeBook N returns targetVol limits scores tiltStrength lookback sectors regimeDerisk) := by
  have hraw := longIn_tiltWeights hexp scores returns.names tiltStrength
  have hderisk : 0 ≤ max 0 regimeDerisk := le_max_left 0 regimeDerisk
  unfold sizeBook
  dsimp only
  split
  · exact LongIn.empty _
  · refine LongIn.applyRiskLimits (LongIn.filter ?_ _) hl sectors
    split
    · refine longIn_volatilityTargetWeights N ?_ _ (mul_nonneg ht hderisk)
      have hclean : LongIn returns.names (.ofList ((cleanColumns returns lookback).map (fun c ↦
          (c.1, Dict.getD (tiltWeights N scores returns.names tiltStrength) c.1 0)))) := by
        apply LongIn.of_list
        intro a ha
        obtain ⟨c, hc, rfl⟩ := List.mem_map.mp ha
        exact ⟨mem_names_of_clean hc, hraw.getD_nonneg c.1⟩
      split
      · next hg => exact hclean.mapVals fun _ v hpos ↦ div_nonneg hpos hg.le
      · exact hclean
    · exact hraw.mapVals fun _ v hpos ↦ mul_nonneg hpos hderisk

end MarketTrader.Portfolio
