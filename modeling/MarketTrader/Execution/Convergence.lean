import MarketTrader.Execution.Settlement
import Mathlib.Order.Interval.Set.UnorderedInterval

namespace MarketTrader.Execution

open Library MarketTrader.Core Storage Config Portfolio

variable {β : Type} {D : Digests} {B : Broker β} {b : β} {w : World β} {e : ExecutionEngine}
  {settings : Settings} {target prices : Dict String ℚ} {asOf : Datetime} {orders : List Order}
  {symbol : String} {weight : ℚ}

namespace Broker

variable (B : Broker β) (b : β)

def effectiveQty (symbol : String) : ℚ := Dict.getD (B.effective b) symbol 0

/-- The order moves the position of its symbol by its signed quantity, and no other. -/
def TakesEffect (o : Order) : Prop := ∀ symbol,
  B.effectiveQty (B.submitOrder b o).2 symbol =
    B.effectiveQty b symbol + if o.symbol = symbol then o.signedQty else 0

def LeavesAlone (o : Order) : Prop := ∀ symbol,
  B.effectiveQty (B.submitOrder b o).2 symbol = B.effectiveQty b symbol

def FullOrNone : β → List Order → Prop
  | _, [] => True
  | b, o :: orders =>
    (B.TakesEffect b o ∨ B.LeavesAlone b o) ∧ FullOrNone (B.submitOrder b o).2 orders

end Broker

/-! ### Steps toward the target -/

theorem orderQty_nonneg (settings : Settings) (delta : ℚ) : 0 ≤ orderQty settings delta := by
  unfold orderQty
  split
  · exact abs_nonneg delta
  · exact_mod_cast truncate_nonneg (abs_nonneg delta)

theorem orderQty_le (settings : Settings) (delta : ℚ) : orderQty settings delta ≤ |delta| := by
  unfold orderQty
  split
  · exact le_rfl
  · exact truncate_le (abs_nonneg delta)

theorem orderQty_residue (settings : Settings) (delta : ℚ) :
    orderQty settings (|delta| - orderQty settings delta) = 0 := by
  have hle : 0 ≤ |delta| - orderQty settings delta := sub_nonneg.mpr (orderQty_le settings delta)
  by_cases hf : settings.fractionalShares
  · have hq : orderQty settings delta = |delta| := if_pos hf
    rw [hq, sub_self, orderQty, if_pos hf, abs_zero]
  · have hq : ∀ x, orderQty settings x = truncate |x| := fun _ ↦ if_neg hf
    rw [hq, abs_of_nonneg hle, hq, truncate, if_pos (by rwa [hq] at hle), truncate,
      if_pos (abs_nonneg delta), Int.floor_sub_intCast, sub_self, Int.cast_zero]

theorem orderQty_neg (settings : Settings) (delta : ℚ) :
    orderQty settings (-delta) = orderQty settings delta := by
  simp only [orderQty, abs_neg]

theorem signedQty_moveOrder (targetQty currentQty : ℚ) :
    (moveOrder settings asOf symbol targetQty currentQty).signedQty =
      if 0 < targetQty - currentQty then orderQty settings (targetQty - currentQty)
      else -orderQty settings (targetQty - currentQty) := by
  simp only [Order.signedQty, moveOrder]
  split <;> simp

theorem moveOrder_mem_uIcc (targetQty currentQty : ℚ) :
    currentQty + (moveOrder settings asOf symbol targetQty currentQty).signedQty ∈
      Set.uIcc currentQty targetQty := by
  have hpos := orderQty_nonneg settings (targetQty - currentQty)
  have hle := orderQty_le settings (targetQty - currentQty)
  rw [signedQty_moveOrder, Set.mem_uIcc]
  split
  · next h =>
    rw [abs_of_pos h] at hle
    left
    constructor <;> linarith
  · next h =>
    rw [abs_of_nonpos (not_lt.mp h)] at hle
    right
    constructor <;> linarith

theorem orderQty_after_moveOrder (targetQty currentQty : ℚ) :
    orderQty settings (targetQty - (currentQty +
      (moveOrder settings asOf symbol targetQty currentQty).signedQty)) = 0 := by
  set delta := targetQty - currentQty with hd
  have hres := orderQty_residue settings delta
  rw [signedQty_moveOrder, ← hd]
  split
  · next h =>
    rw [abs_of_pos h] at hres
    rw [← hres]
    congr 1
    linarith
  · next h =>
    rw [abs_of_nonpos (not_lt.mp h)] at hres
    rw [← orderQty_neg, ← hres]
    congr 1
    linarith

theorem not_tradable_of_orderQty {capital : ℚ} {positions : Dict String ℚ}
    (h : ∀ price, Dict.get? prices symbol = some price → 0 < price →
      orderQty settings (weight * capital / price - Dict.getD positions symbol 0) = 0) :
    ¬Tradable settings capital prices positions symbol weight := by
  rintro ⟨price, hp, hpos, -, hd, -⟩
  rw [h price hp hpos, zero_mul] at hd
  exact absurd hd (by norm_num)

/-! ### The orders of one call -/

theorem exists_of_mem_sentOrders {o : Order} (h : o ∈ sentOrders B e b target prices asOf) :
    ∃ weight price, Dict.get? target o.symbol = some weight ∧
      Dict.get? prices o.symbol = some price ∧ 0 < price ∧
      Tradable e.settings (deployable e.settings (B.getAccount b)) prices (B.effective b) o.symbol
        weight ∧
      o = moveOrder e.settings asOf o.symbol
        (weight * deployable e.settings (B.getAccount b) / price) (B.effectiveQty b o.symbol) := by
  unfold sentOrders at h
  split at h
  · cases h
  · obtain ⟨p, hp, rfl⟩ := List.mem_map.mp (List.mem_of_mem_take h)
    obtain ⟨hp, hsane⟩ := List.mem_filter.mp hp
    obtain ⟨t, ht, ho⟩ := mem_plan.mp hp
    have hm := (sane_of_planOrder ho).mp hsane
    obtain ⟨hg, hpos, hb, hd, he⟩ := planOrder_eq_some.mp ho
    have hs : p.1.symbol = t.1 := by
      rw [he]
      rfl
    rw [hs]
    rw [he] at hm
    exact ⟨t.2, p.2, Dict.get?_eq_some.mpr ht, hg, hpos, ⟨p.2, hg, hpos, hb, hd, hm⟩, he⟩

theorem sentOrders_sells_first :
    (sentOrders B e b target prices asOf).Pairwise (fun o o' ↦ o.side = .buy → o'.side = .buy) := by
  unfold sentOrders
  split
  · exact .nil
  · unfold bookOrders
    apply List.Pairwise.sublist (List.take_sublist _ _)
    rw [List.pairwise_map]
    apply List.Pairwise.sublist List.filter_sublist
    apply (sortBy_pairwise _ _).imp
    intro p p' hle hb
    by_contra hs
    have hs' : p'.1.side = .sell := by
      cases h : p'.1.side with
      | buy => exact absurd h hs
      | sell => rfl
    simp only [hb, hs', ne_eq, reduceCtorEq, not_false_eq_true, not_true_eq_false, decide_true,
      decide_false] at hle
    exact absurd hle (by decide)

theorem length_sentOrders_le :
    (sentOrders B e b target prices asOf).length ≤ e.rateLimiter.room := by
  unfold sentOrders
  split
  · exact Nat.zero_le _
  · exact List.length_take_le _ _

theorem effectiveQty_sendAll (h : B.FullOrNone w.broker orders)
    (hn : (orders.map Order.symbol).Nodup) (symbol : String) :
    B.effectiveQty (w.sendAll B orders).broker symbol = B.effectiveQty w.broker symbol ∨
    ∃ o ∈ orders, o.symbol = symbol ∧ B.effectiveQty (w.sendAll B orders).broker symbol =
      B.effectiveQty w.broker symbol + o.signedQty := by
  induction orders generalizing w with
  | nil => exact .inl rfl
  | cons o orders ih =>
    obtain ⟨hstep, hrest⟩ := h
    rw [List.map_cons, List.nodup_cons] at hn
    have hs : w.sendAll B (o :: orders) = (w.submit B o).2.sendAll B orders := rfl
    have hb : (w.submit B o).2.broker = (B.submitOrder w.broker o).2 := rfl
    rw [hs]
    have ih := ih (w := (w.submit B o).2) (by rwa [hb]) hn.2
    rw [hb] at ih
    by_cases ho : o.symbol = symbol
    · have hlater : B.effectiveQty ((w.submit B o).2.sendAll B orders).broker symbol =
          B.effectiveQty (B.submitOrder w.broker o).2 symbol := by
        rcases ih with ih | ⟨o', ho', hs', -⟩
        · exact ih
        · exact absurd (List.mem_map.mpr ⟨o', ho', hs'.trans ho.symm⟩) hn.1
      rw [hlater]
      rcases hstep with heff | hnone
      · right
        refine ⟨o, List.mem_cons_self, ho, ?_⟩
        rw [heff symbol, if_pos ho]
      · left
        exact hnone symbol
    · have hsame : B.effectiveQty (B.submitOrder w.broker o).2 symbol =
          B.effectiveQty w.broker symbol := by
        rcases hstep with heff | hnone
        · rw [heff symbol, if_neg ho, add_zero]
        · exact hnone symbol
      rw [hsame] at ih
      rcases ih with ih | ⟨o', ho', hs', hq⟩
      · exact .inl ih
      · exact .inr ⟨o', List.mem_cons_of_mem _ ho', hs', hq⟩

/-- A rebalance only ever moves positions toward their targets, whatever the broker refuses. -/
theorem rebalance_moves_toward (e : ExecutionEngine) (w : World β) (target prices : Dict String ℚ)
    (asOf : Datetime) (hc : 0 ≤ e.rateLimiter.count) :
    let sent := sentOrders B e w.broker target prices asOf
    let after := (rebalance D B e w target prices asOf).world
    after.submitted = w.submitted ++ sent ∧
    (∀ o ∈ sent, o.symbol ∈ target.keys ∧ ∃ price, Dict.get? prices o.symbol = some price ∧
      0 < price) ∧
    (sent.map Order.symbol).Nodup ∧
    sent.Pairwise (fun o o' ↦ o.side = .buy → o'.side = .buy) ∧
    sent.length ≤ e.rateLimiter.maxOrders.toNat ∧
    (B.FullOrNone w.broker sent → ∀ symbol,
      (∀ weight price, Dict.get? target symbol = some weight →
        Dict.get? prices symbol = some price → 0 < price →
        B.effectiveQty after.broker symbol ∈ Set.uIcc (B.effectiveQty w.broker symbol)
          (weight * deployable e.settings (B.getAccount w.broker) / price)) ∧
      ((∀ o ∈ sent, o.symbol ≠ symbol) →
        B.effectiveQty after.broker symbol = B.effectiveQty w.broker symbol)) := by
  intro sent after
  have hafter : after.broker = (w.sendAll B sent).broker := by
    obtain ⟨store, hst⟩ := rebalance_world (D := D) (B := B) e w target prices asOf
    simp only [after, hst]
    rfl
  refine ⟨rebalance_submitted e w target prices asOf, fun o ho ↦ ?_, sentOrders_nodup,
    sentOrders_sells_first, ?_, fun hB symbol ↦ ⟨fun weight price hw hp hpos ↦ ?_, fun hno ↦ ?_⟩⟩
  · obtain ⟨weight, price, hw, hp, hpos, -⟩ := exists_of_mem_sentOrders ho
    exact ⟨Dict.mem_keys_iff.mpr ⟨weight, hw⟩, price, hp, hpos⟩
  · have hroom : e.rateLimiter.room ≤ e.rateLimiter.maxOrders.toNat := by
      unfold OrderRateLimiter.room
      omega
    exact length_sentOrders_le.trans hroom
  · rw [hafter]
    rcases effectiveQty_sendAll hB sentOrders_nodup symbol with hq | ⟨o, ho, rfl, hq⟩
    · rw [hq]
      exact Set.left_mem_uIcc
    · obtain ⟨weight', price', hw', hp', -, -, he⟩ := exists_of_mem_sentOrders ho
      rw [hw, Option.some_inj] at hw'
      rw [hp, Option.some_inj] at hp'
      subst hw' hp'
      rw [hq, he]
      exact moveOrder_mem_uIcc _ _
  · rw [hafter]
    rcases effectiveQty_sendAll hB sentOrders_nodup symbol with hq | ⟨o, ho, hs, -⟩
    · exact hq
    · exact absurd hs (hno o ho)

theorem effectiveQty_eq_holding (hB : FillsOrRejects B) (b : β) (symbol : String) :
    B.effectiveQty b symbol = B.holding b symbol := by
  rw [Broker.effectiveQty, Broker.effective, hB.noneOpen]
  rfl

theorem fullOrNone_of_fillsOrRejects (hB : FillsOrRejects B) (hq : ∀ o ∈ orders, 0 < o.qty) :
    B.FullOrNone b orders := by
  have heff := effectiveQty_eq_holding hB
  induction orders generalizing b with
  | nil => trivial
  | cons o orders ih =>
    constructor
    · rcases hs : B.submitOrder b o with ⟨answer, b'⟩
      cases answer with
      | error reason =>
        right
        intro symbol
        rw [heff, heff, hs]
        exact hB.reject b o reason b' hs symbol
      | ok filled =>
        left
        intro symbol
        rw [heff, heff, hs]
        exact hB.fill b o filled b' (hq o List.mem_cons_self) hs symbol
    · apply ih
      intro o' ho'
      exact hq o' (List.mem_cons_of_mem _ ho')

/-- Out of one name, up in another. -/
theorem rebalance_moves_toward_two_names :
    let b : ShareBook := ⟨{ equity := 100, cash := 60, buyingPower := 60 },
      .ofList [("A", 4)], by decide +kernel⟩
    let e : ExecutionEngine := .fresh {} {} false .empty 0
    let after := (rebalance .plain fillBroker e ⟨b, .empty, []⟩ (.ofList [("A", 0), ("B", 1 / 5)])
      (.ofList [("A", 10), ("B", 3)]) 0).world
    fillBroker.effectiveQty after.broker "B" ∈
      Set.uIcc (fillBroker.effectiveQty b "B") (1 / 5 * deployable {} b.account / 3) := by
  intro b e after
  obtain ⟨-, -, -, -, -, h⟩ := rebalance_moves_toward (D := .plain) (B := fillBroker) e
    ⟨b, .empty, []⟩ (.ofList [("A", 0), ("B", 1 / 5)]) (.ofList [("A", 10), ("B", 3)]) 0 le_rfl
  apply (h _ "B").1 (1 / 5) 3 (by decide +kernel) (by decide +kernel) (by norm_num)
  apply fullOrNone_of_fillsOrRejects fillsOrRejects_fillBroker
  intro o ho
  exact (mem_sentOrders ho).2

/-! ### Idempotence -/

def CapReached (B : Broker β) (e : ExecutionEngine) (b : β) (target prices : Dict String ℚ)
    (asOf : Datetime) : Prop :=
  ¬Stops e (B.getAccount b) ∧ overLimit target e.limits = none ∧
    e.rateLimiter.room < ((plan e.settings (deployable e.settings (B.getAccount b)) target prices
      (B.effective b) asOf).filter sane).length

def movedBy (orders : List Order) (symbol : String) : ℚ :=
  ((orders.filter (·.symbol = symbol)).map Order.signedQty).sum

theorem movedBy_of_mem {o : Order} (hn : (orders.map Order.symbol).Nodup) (ho : o ∈ orders) :
    movedBy orders o.symbol = o.signedQty := by
  simp [movedBy, filter_symbol_of_mem hn ho]

theorem movedBy_of_not_mem (h : ∀ o ∈ orders, o.symbol ≠ symbol) : movedBy orders symbol = 0 := by
  have hf : orders.filter (·.symbol = symbol) = [] :=
    List.filter_eq_nil_iff.mpr fun o ho he ↦ h o ho (of_decide_eq_true he)
  simp [movedBy, hf]

/-- Short of the cap, every name that is worth an order gets it. -/
theorem moveOrder_mem_sentOrders (hs : ¬Stops e (B.getAccount b))
    (hl : overLimit target e.limits = none) (hc : ¬CapReached B e b target prices asOf)
    {price : ℚ} (hw : Dict.get? target symbol = some weight)
    (hT : Tradable e.settings (deployable e.settings (B.getAccount b)) prices (B.effective b) symbol
      weight) (hp : Dict.get? prices symbol = some price) :
    moveOrder e.settings asOf symbol (weight * deployable e.settings (B.getAccount b) / price)
      (B.effectiveQty b symbol) ∈ sentOrders B e b target prices asOf := by
  obtain ⟨price', hp', hpos, hb, hd, hm⟩ := hT
  rw [hp, Option.some_inj] at hp'
  subst hp'
  have ho : planOrder e.settings (deployable e.settings (B.getAccount b)) prices (B.effective b)
      asOf symbol weight = some (moveOrder e.settings asOf symbol
        (weight * deployable e.settings (B.getAccount b) / price) (B.effectiveQty b symbol),
        price) :=
    planOrder_eq_some.mpr ⟨hp, hpos, hb, hd, rfl⟩
  have hsent : ¬(Stops e (B.getAccount b) ∨ (overLimit target e.limits).isSome) := by
    simp [hs, hl]
  unfold CapReached at hc
  push Not at hc
  rw [sentOrders, if_neg hsent, bookOrders, List.take_of_length_le (by
    rw [List.length_map]
    exact hc hs hl)]
  apply List.mem_map.mpr
  refine ⟨_, List.mem_filter.mpr ⟨mem_plan.mpr ⟨(symbol, weight), Dict.get?_eq_some.mp hw, ho⟩, ?_⟩,
    rfl⟩
  exact (sane_of_planOrder ho).mpr hm

theorem not_tradable_after {b' : β} (hs : ¬Stops e (B.getAccount b))
    (hl : overLimit target e.limits = none) (hc : ¬CapReached B e b target prices asOf)
    (hpos : ∀ symbol, B.effectiveQty b' symbol =
      B.effectiveQty b symbol + movedBy (sentOrders B e b target prices asOf) symbol)
    (hw : Dict.get? target symbol = some weight) :
    ¬Tradable e.settings (deployable e.settings (B.getAccount b)) prices (B.effective b') symbol
      weight := by
  by_cases hT : Tradable e.settings (deployable e.settings (B.getAccount b)) prices (B.effective b)
      symbol weight
  · apply not_tradable_of_orderQty
    intro price hp _
    have hmem := moveOrder_mem_sentOrders hs hl hc hw hT hp
    have hmoved := movedBy_of_mem sentOrders_nodup hmem
    have hq := hpos symbol
    rw [show movedBy (sentOrders B e b target prices asOf) symbol = _ from hmoved] at hq
    rw [show Dict.getD (B.effective b') symbol 0 = _ from hq]
    exact orderQty_after_moveOrder _ _
  · have hno : ∀ o ∈ sentOrders B e b target prices asOf, o.symbol ≠ symbol := by
      rintro o ho rfl
      obtain ⟨weight', price, hw', -, -, hT', -⟩ := exists_of_mem_sentOrders ho
      rw [hw, Option.some_inj] at hw'
      subst hw'
      exact hT hT'
    have hq := hpos symbol
    rw [movedBy_of_not_mem hno, add_zero] at hq
    rintro ⟨price, hp, hpr, hb, hd, hm⟩
    simp only [show Dict.getD (B.effective b') symbol 0 =
      Dict.getD (B.effective b) symbol 0 from hq]
      at hb hd hm
    exact hT ⟨price, hp, hpr, hb, hd, hm⟩

theorem accepted_fillBroker (b : ShareBook) : fillBroker.accepted b orders = orders := by
  induction orders generalizing b with
  | nil => rfl
  | cons o orders ih => exact congrArg (o :: ·) (ih _)

end MarketTrader.Execution
