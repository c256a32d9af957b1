import MarketTrader.Execution.Convergence

namespace MarketTrader.Execution

open Library MarketTrader.Core Storage Config Portfolio

variable {β : Type} {D : Digests} {B : Broker β} {b : β} {e : ExecutionEngine}
  {settings : Settings} {target prices : Dict String ℚ} {asOf : Datetime} {symbol : String}

/-- The order takes a position to nothing. -/
structure ClosesOut (o : Order) (qty : ℚ) : Prop where
  side : o.side = if 0 < qty then .sell else .buy
  qty : o.qty = |qty|

/-- Once the order has filled the name is flat. -/
theorem ClosesOut.add_signedQty {o : Order} {qty : ℚ} (h : ClosesOut o qty) :
    qty + o.signedQty = 0 := by
  by_cases hpos : 0 < qty
  · have hside : o.side = .sell := h.side.trans (if_pos hpos)
    simp [Order.signedQty, hside, h.qty, abs_of_pos hpos]
  · have hside : o.side = .buy := h.side.trans (if_neg hpos)
    simp [Order.signedQty, hside, h.qty, abs_of_nonpos (not_lt.mp hpos)]

theorem truncate_abs_eq_iff {q : ℚ} : (truncate |q| : ℚ) = |q| ↔ ∃ n : ℤ, q = n := by
  rw [truncate, if_pos (abs_nonneg q)]
  constructor
  · intro h
    rcases abs_choice q with hq | hq
    · exact ⟨⌊|q|⌋, by rw [h, hq]⟩
    · refine ⟨-⌊|q|⌋, ?_⟩
      rw [Int.cast_neg, h, hq, neg_neg]
  · rintro ⟨n, rfl⟩
    rw [← Int.cast_abs, Int.floor_intCast]

/-- An order for a whole position is for all of it exactly when fractions may be traded or the
position has none. -/
theorem orderQty_eq_abs_iff {q : ℚ} : orderQty settings q = |q| ↔
    settings.fractionalShares = true ∨ ∃ n : ℤ, q = n := by
  unfold orderQty
  split
  · next h => simp [h]
  · next h => rw [truncate_abs_eq_iff, or_iff_right h]

theorem inBand_exit (settings : Settings) (currentQty : ℚ) : ¬inBand settings currentQty 0 := by
  simp [inBand]

theorem moveOrder_exit_side {q : ℚ} (hq : q ≠ 0) :
    (moveOrder settings asOf symbol 0 q).side = if 0 < q then .sell else .buy := by
  simp only [moveOrder, zero_sub, Left.neg_pos_iff]
  rcases lt_or_gt_of_ne hq with h | h
  · rw [if_pos h, if_neg (not_lt.mpr h.le)]
  · rw [if_neg (not_lt.mpr h.le), if_pos h]

theorem moveOrder_exit_qty (q : ℚ) :
    (moveOrder settings asOf symbol 0 q).qty = orderQty settings q := by
  have hneg := orderQty_neg settings q
  simpa only [moveOrder, zero_sub] using hneg

/-- A name that the target leaves is sold out in one order if and only if all of it can be traded
and it is worth a dollar. -/
theorem exit_in_full_iff (D : Digests) (B : Broker β) (e : ExecutionEngine) (w : World β)
    (target prices : Dict String ℚ) (asOf : Datetime) (hs : ¬Stops e (B.getAccount w.broker))
    (hl : overLimit target e.limits = none) (hc : ¬CapReached B e w.broker target prices asOf) :
    ∃ sent, (rebalance D B e w target prices asOf).world.submitted = w.submitted ++ sent ∧
      ∀ symbol price, Dict.get? target symbol = some 0 → Dict.get? prices symbol = some price →
        0 < price → B.effectiveQty w.broker symbol ≠ 0 →
        |B.effectiveQty w.broker symbol| ≤ maxQty →
        ((∃ o, sent.filter (·.symbol = symbol) = [o] ∧
            ClosesOut o (B.effectiveQty w.broker symbol) ∧
            B.effectiveQty w.broker symbol + o.signedQty = 0) ↔
          (e.settings.fractionalShares = true ∨ ∃ n : ℤ, B.effectiveQty w.broker symbol = n) ∧
            1 ≤ |B.effectiveQty w.broker symbol| * price) := by
  refine ⟨_, rebalance_submitted e w target prices asOf, ?_⟩
  intro symbol price ht hp hpos hq hmax
  set q := B.effectiveQty w.broker symbol with hqdef
  have hzero : ∀ p : ℚ, 0 * deployable e.settings (B.getAccount w.broker) / p = 0 := fun p ↦ by
    rw [zero_mul, zero_div]
  constructor
  · rintro ⟨o, ho, hclose, -⟩
    have hmem : o ∈ (sentOrders B e w.broker target prices asOf).filter (·.symbol = symbol) :=
      ho ▸ List.mem_singleton_self o
    obtain ⟨hsent, hsym⟩ := List.mem_filter.mp hmem
    obtain rfl : o.symbol = symbol := of_decide_eq_true hsym
    obtain ⟨weight, price', hw, hp', -, hT, he⟩ := exists_of_mem_sentOrders hsent
    obtain rfl : 0 = weight := Option.some.inj (ht.symm.trans hw)
    obtain rfl : price = price' := Option.some.inj (hp.symm.trans hp')
    have hqty : orderQty e.settings q = |q| := by
      rw [← hclose.qty, he, hzero, moveOrder_exit_qty]
    refine ⟨orderQty_eq_abs_iff.mp hqty, ?_⟩
    obtain ⟨price', hp', -, -, hd, -⟩ := hT
    obtain rfl : price = price' := Option.some.inj (hp.symm.trans hp')
    have hcur : Dict.getD (B.effective w.broker) o.symbol 0 = q := rfl
    rwa [hzero, hcur, zero_sub, orderQty_neg, hqty] at hd
  · rintro ⟨hall, hworth⟩
    have hqty : orderQty e.settings q = |q| := orderQty_eq_abs_iff.mpr hall
    have hcur : Dict.getD (B.effective w.broker) symbol 0 = q := rfl
    have hT : Tradable e.settings (deployable e.settings (B.getAccount w.broker)) prices
        (B.effective w.broker) symbol 0 := by
      refine ⟨price, hp, hpos, ?_⟩
      dsimp only
      rw [hzero, hcur, zero_sub, orderQty_neg, hqty]
      exact ⟨inBand_exit _ _, hworth, hmax⟩
    have hmem := moveOrder_mem_sentOrders hs hl hc ht hT hp
    rw [hzero] at hmem
    have hclose : ClosesOut (moveOrder e.settings asOf symbol 0 q) q :=
      ⟨moveOrder_exit_side hq, (moveOrder_exit_qty q).trans hqty⟩
    exact ⟨_, filter_symbol_of_mem sentOrders_nodup hmem, hclose, hclose.add_signedQty⟩

theorem fourShares_nonzero : ∀ p ∈ (.ofList [("A", 4)] : Dict String ℚ).toList, p.2 ≠ 0 := by
  decide +kernel

/-- Four shares and no fraction. -/
def fourShares : ShareBook :=
  ⟨{ equity := 100, cash := 60, buyingPower := 60 }, .ofList [("A", 4)], fourShares_nonzero⟩

theorem exit_in_full_four_shares :
    ∃ sent, (rebalance .plain fillBroker (.fresh {} {} false .empty 0) ⟨fourShares, .empty, []⟩
      (.ofList [("A", 0)]) (.ofList [("A", 10)]) 0).world.submitted = [] ++ sent ∧
        ∃ o, sent.filter (·.symbol = "A") = [o] ∧
          ClosesOut o (fillBroker.effectiveQty fourShares "A") ∧
          fillBroker.effectiveQty fourShares "A" + o.signedQty = 0 := by
  obtain ⟨sent, hsent, hexit⟩ := exit_in_full_iff .plain fillBroker (.fresh {} {} false .empty 0)
    ⟨fourShares, .empty, []⟩ (.ofList [("A", 0)]) (.ofList [("A", 10)]) 0 (by decide +kernel)
    (by decide +kernel) (fun hc ↦ absurd hc.2.2 (by decide +kernel))
  have hiff := hexit "A" 10 (by decide +kernel) (by decide +kernel) (by norm_num)
    (by decide +kernel) (by decide +kernel)
  refine ⟨sent, hsent, hiff.mpr ⟨.inr ⟨4, ?_⟩, ?_⟩⟩
  · decide +kernel
  · decide +kernel

/-- Half of a share stays behind. -/
theorem half_share_left_behind :
    ¬∀ (β : Type) (D : Digests) (B : Broker β) (e : ExecutionEngine) (w : World β)
      (target prices : Dict String ℚ) (asOf : Datetime), ¬Stops e (B.getAccount w.broker) →
      overLimit target e.limits = none → ¬CapReached B e w.broker target prices asOf →
      ∃ sent, (rebalance D B e w target prices asOf).world.submitted = w.submitted ++ sent ∧
        ∀ symbol price, Dict.get? target symbol = some 0 → Dict.get? prices symbol = some price →
          0 < price → B.effectiveQty w.broker symbol ≠ 0 →
          |B.effectiveQty w.broker symbol| ≤ maxQty →
          ∃ o, sent.filter (·.symbol = symbol) = [o] ∧
            ClosesOut o (B.effectiveQty w.broker symbol) ∧
            B.effectiveQty w.broker symbol + o.signedQty = 0 := by
  intro h
  let b : ShareBook := ⟨{ equity := 100, cash := 85, buyingPower := 85 },
    .ofList [("A", 3 / 2)], by decide +kernel⟩
  let e : ExecutionEngine := .fresh {} {} false .empty 0
  obtain ⟨sent, hsent, hexit⟩ := h ShareBook .plain fillBroker e ⟨b, .empty, []⟩
    (.ofList [("A", 0)]) (.ofList [("A", 10)]) 0 (by decide +kernel) (by decide +kernel)
    (fun hc ↦ absurd hc.2.2 (by decide +kernel))
  obtain ⟨o, ho, hclose, -⟩ := hexit "A" 10 (by decide +kernel) (by decide +kernel) (by norm_num)
    (by decide +kernel) (by decide +kernel)
  have hone : ∀ o ∈ (rebalance .plain fillBroker e ⟨b, .empty, []⟩ (.ofList [("A", 0)])
      (.ofList [("A", 10)]) 0).world.submitted, o.qty = 1 := by decide +kernel
  have hmem : o ∈ sent := List.mem_of_mem_filter (ho ▸ List.mem_singleton_self o)
  rw [hsent] at hone
  have hqty := (hone o (List.mem_append_right _ hmem)).symm.trans hclose.qty
  revert hqty
  decide +kernel

end MarketTrader.Execution
