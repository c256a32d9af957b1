import MarketTrader.Execution.Submission
import MarketTrader.Portfolio.Caps

namespace MarketTrader.Execution

open Library MarketTrader.Core Config Portfolio

variable {w : Weights} {limits : RiskLimits} {sectors : Option (Dict String String)}

theorem checkOrder_eq_none {symbol : String} {weight : ℚ} {current : Weights}
    (hp : |weight| ≤ limits.maxPositionWeight + 1 / 10 ^ 9)
    (hg : grossOf (Dict.set current symbol weight) ≤ limits.maxGrossExposure + 1 / 10 ^ 9)
    (hn : |netOf (Dict.set current symbol weight)| ≤ limits.maxNetExposure + 1 / 10 ^ 9) :
    checkOrder symbol weight current limits = none := by
  unfold checkOrder
  dsimp only
  rw [if_neg (not_lt.mpr hp), if_neg (not_lt.mpr hg), if_neg (not_lt.mpr hn)]

/-- The caps of the risk layer are no wider than those of the gate. -/
structure Acceptable (limits : RiskLimits) (w : Weights) : Prop where
  position : ∀ a ∈ w.toList, |a.2| ≤ limits.maxPositionWeight + 1 / 10 ^ 9
  gross : grossOf w ≤ limits.maxGrossExposure + 1 / 10 ^ 9
  net : |netOf w| ≤ limits.maxNetExposure + 1 / 10 ^ 9

theorem acceptable_of_withinCaps (h : WithinCaps limits sectors w) : Acceptable limits w where
  position a ha := by
    have hp := h.position a.1 a.2 (Dict.get?_eq_some.mpr ha)
    linarith
  gross := by
    have hg := h.gross
    linarith
  net := by
    have hn := h.net
    linarith

namespace Acceptable

variable (h : Acceptable limits w)

include h

theorem set_zero (hl : limits.Nonneg) {symbol : String}
    (hs : Dict.get? w symbol = none ∨ Dict.get? w symbol = some 0) :
    Acceptable limits (Dict.set w symbol 0) := by
  rcases hs with hs | hs
  · have happ : (Dict.set w symbol 0).toList = w.toList ++ [(symbol, 0)] :=
      upsert_of_not_mem (Dict.get?_eq_none.mp hs)
    refine ⟨fun a ha ↦ ?_, ?_, ?_⟩
    · rw [happ] at ha
      rcases List.mem_append.mp ha with ha | ha
      · exact h.position a ha
      · rw [List.mem_singleton.mp ha]
        have hz := hl.position
        rw [abs_zero]
        linarith
    · simpa [grossOf, happ] using h.gross
    · simpa [netOf, happ] using h.net
  · have hid : Dict.set w symbol 0 = w := Keyed.insert_of_mem (Dict.get?_eq_some.mp hs)
    rwa [hid]

theorem overLimit_eq_none : overLimit w limits = none := by
  unfold overLimit
  rw [List.findSome?_eq_none_iff]
  intro a ha
  have hperm : (Dict.set (w.erase a.1) a.1 a.2).toList.Perm w.toList := Dict.set_erase_perm ha
  apply checkOrder_eq_none (h.position a ha)
  · rw [grossOf, (hperm.map _).sum_eq]
    exact h.gross
  · rw [netOf, (hperm.map _).sum_eq]
    exact h.net

theorem checkOrder_self {a : String × ℚ} (ha : a ∈ w.toList) :
    checkOrder a.1 a.2 w limits = none := by
  have hid : Dict.set w a.1 a.2 = w := Keyed.insert_of_mem ha
  apply checkOrder_eq_none (h.position a ha)
  · rw [hid]
    exact h.gross
  · rw [hid]
    exact h.net

theorem setAll_zero (hl : limits.Nonneg) {exits : List String} (hx : ∀ s ∈ exits, s ∉ w.keys) :
    Acceptable limits (Dict.setAll w exits 0) := by
  induction exits using List.reverseRecOn with
  | nil => exact h
  | append_singleton exits s ih =>
    have ih := ih fun s' hs' ↦ hx s' (List.mem_append_left _ hs')
    have hs : Dict.get? w s = none :=
      Dict.get?_eq_none.mpr (hx s (List.mem_append_right _ (List.mem_singleton_self s)))
    rw [Dict.setAll_append]
    apply ih.set_zero hl
    rw [Dict.get?_setAll, hs]
    split
    · exact .inr rfl
    · exact .inl rfl

end Acceptable

variable {β : Type} {D : Digests} {B : Broker β}

theorem passGates_ne_breach (e : ExecutionEngine) (world : World β) (asOf : Datetime)
    (breach : RiskLimitBreach) :
    (passGates D B e world asOf).1 ≠ some (.riskLimitBreach breach) := by
  unfold passGates
  intro h
  split at h
  · cases h
  · split at h
    · cases h
    · dsimp only at h
      split at h
      · cases h
      · split at h <;> cases h

theorem rebalance_ne_breach {e : ExecutionEngine} {target : Weights}
    (h : overLimit target e.limits = none) (world : World β) (prices : Dict String ℚ)
    (asOf : Datetime) (breach : RiskLimitBreach) :
    (rebalance D B e world target prices asOf).result ≠ .error (.riskLimitBreach breach) := by
  have hne := passGates_ne_breach (D := D) (B := B) e world asOf breach
  unfold rebalance
  rcases hg : passGates D B e world asOf with ⟨stop, e', w'⟩
  obtain ⟨-, hl, -⟩ := passGates_frame hg
  rw [hg] at hne
  cases stop with
  | some err =>
    intro he
    cases he
    exact hne rfl
  | none =>
    dsimp only
    rw [hl, h]
    intro he
    cases he

/-- What the risk layer produces, the execution gate accepts. -/
theorem applyRiskLimits_accepted (weights : Weights) (limits : RiskLimits) (h : limits.Nonneg)
    (sectors : Option (Dict String String)) :
    let book := applyRiskLimits weights limits sectors
    WithinCaps limits sectors book ∧
    (∀ k u, Dict.get? book k = some u →
      ∃ v, Dict.get? weights k = some v ∧ ((0 < u ∧ u ≤ v) ∨ (v ≤ u ∧ u < 0))) ∧
    applyRiskLimits book limits sectors = book ∧
    ∀ exits : List String, (∀ s ∈ exits, s ∉ book.keys) →
      let target := Dict.setAll book exits 0
      (∀ a ∈ target.toList, checkOrder a.1 a.2 target limits = none) ∧
      ∀ (β : Type) (D : Digests) (B : Broker β) (e : ExecutionEngine) (w : World β)
        (prices : Dict String ℚ) (asOf : Datetime) (breach : RiskLimitBreach), e.limits = limits →
        (rebalance D B e w target prices asOf).result ≠ .error (.riskLimitBreach breach) := by
  intro book
  have hcaps : WithinCaps limits sectors book := withinCaps_applyRiskLimits h weights sectors
  have hzero : ∀ a ∈ book.toList, a.2 ≠ 0 := by
    intro a ha
    simpa using (List.mem_filter.mp ha).2
  refine ⟨hcaps, fun k u hu ↦ applyRiskLimits_toward h weights sectors hu,
    applyRiskLimits_of_within hcaps hzero, fun exits hx ↦ ?_⟩
  intro target
  have htarget : Acceptable limits target := (acceptable_of_withinCaps hcaps).setAll_zero h hx
  constructor
  · intro a ha
    exact htarget.checkOrder_self ha
  · intro β D B e w prices asOf breach he
    apply rebalance_ne_breach
    rw [he]
    exact htarget.overLimit_eq_none

/-- Two names over the position cap and an exit. -/
theorem applyRiskLimits_accepted_two_names :
    let book := applyRiskLimits (.ofList [("A", 1 / 2), ("B", -1 / 5)]) {} none
    (rebalance .plain accountBroker (.fresh {} {} false .empty 0)
      ⟨{ equity := 100, cash := 100, buyingPower := 100 }, .empty, []⟩
      (Dict.setAll book ["C"] 0) .empty 0).result ≠ .error (.riskLimitBreach (.gross 1 1)) := by
  intro book
  have hl : ({} : RiskLimits).Nonneg :=
    ⟨by decide +kernel, by decide +kernel, by decide +kernel, by decide +kernel⟩
  obtain ⟨-, -, -, h⟩ := applyRiskLimits_accepted (.ofList [("A", 1 / 2), ("B", -1 / 5)]) {} hl none
  exact (h ["C"] (by decide +kernel)).2 Account .plain accountBroker _ _ _ _ _ rfl

/-- A net exposure over the cap by less than the tolerance is left as it is. -/
theorem applyRiskLimits_net_over_cap : ¬∀ (weights : Weights) (limits : RiskLimits)
    (sectors : Option (Dict String String)), limits.Nonneg →
      |netOf (applyRiskLimits weights limits sectors)| ≤ limits.maxNetExposure := by
  intro h
  let limits : RiskLimits := { maxPositionWeight := 1, maxNetExposure := 1 / 2 }
  have hl : limits.Nonneg :=
    ⟨by decide +kernel, by decide +kernel, by decide +kernel, by decide +kernel⟩
  have hle := h (.ofList [("A", 1 / 2 + 1 / (2 * 10 ^ 12))]) limits none hl
  revert hle
  decide +kernel

end MarketTrader.Execution
