import MarketTrader.Execution.Submission

namespace MarketTrader.Execution

open Library MarketTrader.Core Storage Config Portfolio

variable {β : Type}

namespace Broker

variable (B : Broker β) (b : β)

def holding (symbol : String) : ℚ :=
  Dict.getD (.ofList ((B.getPositions b).map (fun p ↦ (p.symbol, p.qty)))) symbol 0

def Holds (symbol : String) : Prop := symbol ∈ (B.getPositions b).map Position.symbol

def accepted : β → List Order → List Order
  | _, [] => []
  | b, o :: orders =>
    match B.submitOrder b o with
    | (.ok _, b') => o :: accepted b' orders
    | (.error _, b') => accepted b' orders

def Served (orders : List Order) (symbol : String) : Prop :=
  symbol ∈ (B.accepted b orders).map Order.symbol

def SoldOut (orders : List Order) (symbol : String) : Prop :=
  ∃ o ∈ B.accepted b orders, o.symbol = symbol ∧ o.signedQty = -B.holding b symbol

theorem accepted_sublist (orders : List Order) : (B.accepted b orders).Sublist orders := by
  induction orders generalizing b with
  | nil => exact .slnil
  | cons o orders ih =>
    rw [accepted]
    split
    · exact (ih _).cons_cons o
    · exact (ih _).cons o

end Broker

/-- Nobody else trades, and an order is filled in full or refused. -/
structure FillsOrRejects (B : Broker β) : Prop where
  noneOpen : ∀ b, B.getOpenOrders b = []
  nonzero : ∀ b, ∀ p ∈ B.getPositions b, p.qty ≠ 0
  fill : ∀ b o answer b', 0 < o.qty → B.submitOrder b o = (.ok answer, b') → ∀ symbol,
    B.holding b' symbol = B.holding b symbol + if o.symbol = symbol then o.signedQty else 0
  reject : ∀ b o reason b', B.submitOrder b o = (.error reason, b') → ∀ symbol,
    B.holding b' symbol = B.holding b symbol

variable {D : Digests} {B : Broker β} {b : β} {w : World β} {orders : List Order} {symbol : String}

theorem holds_iff (hB : FillsOrRejects B) : B.Holds b symbol ↔ B.holding b symbol ≠ 0 := by
  set l := (B.getPositions b).map (fun p ↦ (p.symbol, p.qty)) with hl
  have hkeys : B.Holds b symbol ↔ symbol ∈ (Keyed.ofList l : Dict String ℚ).keys := by
    rw [Keyed.ofList, Keyed.mem_keys_insertAll, hl, List.map_map]
    simp [Broker.Holds, Keyed.keys, Function.comp_def]
  rw [hkeys, Dict.mem_keys_iff]
  constructor
  · rintro ⟨q, hq⟩
    have hm := (Keyed.mem_of_mem_insertAll (Dict.get?_eq_some.mp hq)).resolve_left (by simp)
    obtain ⟨p, hp, he⟩ := List.mem_map.mp hm
    rw [Broker.holding, Dict.getD, ← hl, hq, Option.getD_some, ← (Prod.mk.inj he).2]
    exact hB.nonzero b p hp
  · intro h
    cases hq : Dict.get? (Keyed.ofList l : Dict String ℚ) symbol with
    | none => simp [Broker.holding, Dict.getD, ← hl, hq] at h
    | some q => exact ⟨q, rfl⟩

theorem holding_sendAll (hB : FillsOrRejects B) (hq : ∀ o ∈ orders, 0 < o.qty) :
    B.holding (w.sendAll B orders).broker symbol = B.holding w.broker symbol +
      (((B.accepted w.broker orders).filter (·.symbol = symbol)).map Order.signedQty).sum := by
  induction orders generalizing w with
  | nil => simp [World.sendAll, Broker.accepted]
  | cons o orders ih =>
    have ih := ih (w := (w.submit B o).2) fun o' ho' ↦ hq o' (List.mem_cons_of_mem _ ho')
    have hs : w.sendAll B (o :: orders) = (w.submit B o).2.sendAll B orders := rfl
    have hbr : (w.submit B o).2.broker = (B.submitOrder w.broker o).2 := rfl
    rw [hs, ih, hbr, Broker.accepted]
    rcases hb : B.submitOrder w.broker o with ⟨answer, b'⟩
    cases answer with
    | error reason => rw [hB.reject _ _ _ _ hb]
    | ok filled =>
      rw [hB.fill _ _ _ _ (hq o List.mem_cons_self) hb]
      by_cases ho : o.symbol = symbol
      · simp [ho, add_assoc]
      · simp [ho]

theorem filter_symbol_of_mem {o : Order} (hn : (orders.map Order.symbol).Nodup) (ho : o ∈ orders) :
    orders.filter (·.symbol = o.symbol) = [o] := by
  obtain ⟨l₁, l₂, rfl⟩ := List.append_of_mem ho
  rw [List.map_append, List.map_cons, List.nodup_append, List.nodup_cons] at hn
  rw [List.filter_append, List.filter_cons_of_pos (by simp), List.filter_eq_nil_iff.mpr,
    List.filter_eq_nil_iff.mpr, List.nil_append]
  · intro o' ho' he
    exact hn.2.1.1 (List.mem_map.mpr ⟨o', ho', of_decide_eq_true he⟩)
  · intro o' ho' he
    exact hn.2.2 _ (List.mem_map_of_mem ho') _ List.mem_cons_self (of_decide_eq_true he)

section Distinct

variable (hB : FillsOrRejects B) (hq : ∀ o ∈ orders, 0 < o.qty)
  (hn : (orders.map Order.symbol).Nodup)

include hB hq hn

theorem holding_of_served {o : Order} (ho : o ∈ B.accepted w.broker orders) :
    B.holding (w.sendAll B orders).broker o.symbol =
      B.holding w.broker o.symbol + o.signedQty := by
  have hn' := hn.sublist ((B.accepted_sublist w.broker orders).map Order.symbol)
  rw [holding_sendAll hB hq, filter_symbol_of_mem hn' ho]
  simp

omit hn in
theorem holding_of_not_served (h : ¬B.Served w.broker orders symbol) :
    B.holding (w.sendAll B orders).broker symbol = B.holding w.broker symbol := by
  have hf : (B.accepted w.broker orders).filter (·.symbol = symbol) = [] :=
    List.filter_eq_nil_iff.mpr fun o ho he ↦
      h (List.mem_map.mpr ⟨o, ho, of_decide_eq_true he⟩)
  rw [holding_sendAll hB hq, hf]
  simp

theorem holds_sendAll_of_holds (h : B.Holds w.broker symbol) :
    B.Holds (w.sendAll B orders).broker symbol ↔ ¬B.SoldOut w.broker orders symbol := by
  rw [holds_iff hB] at h ⊢
  by_cases hs : B.Served w.broker orders symbol
  · obtain ⟨o, ho, rfl⟩ := List.mem_map.mp hs
    rw [holding_of_served hB hq hn ho]
    refine not_congr ⟨fun hz ↦ ⟨o, ho, rfl, eq_neg_of_add_eq_zero_right hz⟩, ?_⟩
    rintro ⟨o', ho', hs', hz⟩
    rw [← holding_of_served hB hq hn ho, ← hs', holding_of_served hB hq hn ho', hs', hz]
    exact add_neg_cancel _
  · rw [holding_of_not_served hB hq hs]
    refine iff_of_true h ?_
    rintro ⟨o, ho, rfl, -⟩
    exact hs (List.mem_map_of_mem ho)

theorem holds_sendAll_of_not_holds (h : ¬B.Holds w.broker symbol) :
    B.Holds (w.sendAll B orders).broker symbol ↔ B.Served w.broker orders symbol := by
  rw [holds_iff hB, not_not] at h
  rw [holds_iff hB]
  by_cases hs : B.Served w.broker orders symbol
  · refine iff_of_true ?_ hs
    obtain ⟨o, ho, rfl⟩ := List.mem_map.mp hs
    have hpos := hq o ((B.accepted_sublist w.broker orders).subset ho)
    rw [holding_of_served hB hq hn ho, h, zero_add, Order.signedQty]
    split
    · exact hpos.ne'
    · exact neg_ne_zero.mpr hpos.ne'
  · refine iff_of_false ?_ hs
    rw [holding_of_not_served hB hq hs, h]
    exact not_not.mpr rfl

end Distinct

/-! ### A broker that fills -/

structure ShareBook where
  account : Account
  shares : Dict String ℚ
  nonzero : ∀ p ∈ shares.toList, p.2 ≠ 0

namespace ShareBook

def fill (b : ShareBook) (symbol : String) (signedQty : ℚ) : ShareBook :=
  let qty := Dict.getD b.shares symbol 0 + signedQty
  if h : qty = 0 then
    { b with
      shares := b.shares.erase symbol
      nonzero := fun p hp ↦ b.nonzero p (List.mem_of_mem_filter hp) }
  else
    { b with
      shares := Dict.set b.shares symbol qty
      nonzero := fun p hp ↦ (Keyed.mem_insert.mp hp).elim (fun he ↦ he ▸ h) fun hp ↦
        b.nonzero p hp.1 }

theorem getD_fill (b : ShareBook) (symbol symbol' : String) (signedQty : ℚ) :
    Dict.getD (b.fill symbol signedQty).shares symbol' 0 =
      Dict.getD b.shares symbol' 0 + if symbol = symbol' then signedQty else 0 := by
  unfold fill
  dsimp only
  split
  · next h =>
    simp only [Dict.getD, Dict.get?, Keyed.find?_erase] at h ⊢
    split
    · next hs =>
      subst hs
      exact h.symm
    · simp
  · simp only [Dict.getD, Dict.get?_set]
    split
    · next hs =>
      subst hs
      rfl
    · simp

end ShareBook

def fillBroker : Broker ShareBook where
  getAccount := ShareBook.account
  getPositions b := b.shares.toList.map (fun p ↦ ⟨p.1, p.2, 0⟩)
  getOpenOrders _ := []
  submitOrder b o :=
    (.ok { o with status := .filled, filledQty := o.qty }, b.fill o.symbol o.signedQty)
  cancelOrder b _ := b

theorem fillsOrRejects_fillBroker : FillsOrRejects fillBroker where
  noneOpen _ := rfl
  nonzero b p hp := by
    obtain ⟨a, ha, rfl⟩ := List.mem_map.mp hp
    exact b.nonzero a ha
  fill b o answer b' _ h symbol := by
    have hh : ∀ b : ShareBook, fillBroker.holding b symbol = Dict.getD b.shares symbol 0 := by
      intro b
      simp [Broker.holding, fillBroker, Function.comp_def]
    cases h
    rw [hh, hh, ShareBook.getD_fill]
  reject b o reason b' h := by cases h

/-! ### The orders of a rebalance -/

variable {e : ExecutionEngine} {target prices : Dict String ℚ} {asOf : Datetime} {o : Order}

theorem mem_sentOrders (h : o ∈ sentOrders B e b target prices asOf) :
    o.symbol ∈ target.keys ∧ 0 < o.qty := by
  unfold sentOrders at h
  split at h
  · cases h
  · obtain ⟨p, hp, rfl⟩ := List.mem_map.mp (List.mem_of_mem_take h)
    obtain ⟨hp, -⟩ := List.mem_filter.mp hp
    obtain ⟨t, ht, ho⟩ := mem_plan.mp hp
    obtain ⟨-, hpos, -, hd, he⟩ := planOrder_eq_some.mp ho
    rw [he]
    exact ⟨List.mem_map_of_mem ht, pos_of_mul_pos_left (lt_of_lt_of_le one_pos hd) hpos.le⟩

theorem sentOrders_nodup : ((sentOrders B e b target prices asOf).map Order.symbol).Nodup := by
  unfold sentOrders
  split
  · exact List.nodup_nil
  · unfold bookOrders plan
    refine List.Nodup.sublist ((List.take_sublist _ _).map _) ?_
    rw [List.map_map]
    refine List.Nodup.sublist (List.filter_sublist.map _) ?_
    refine ((sortBy_perm _ _).map _).nodup_iff.mpr (Dict.nodup_filterMap (fun t p ho ↦ ?_) target)
    obtain ⟨-, -, -, -, he⟩ := planOrder_eq_some.mp ho
    rw [Function.comp_apply, he]
    rfl

theorem not_served_of_not_mem_keys (h : symbol ∉ target.keys) :
    ¬B.Served b (sentOrders B e b target prices asOf) symbol := by
  intro hs
  obtain ⟨o, ho, rfl⟩ := List.mem_map.mp hs
  exact h (mem_sentOrders ((B.accepted_sublist b _).subset ho)).1

theorem served_of_soldOut (h : B.SoldOut b orders symbol) : B.Served b orders symbol := by
  obtain ⟨o, ho, rfl, -⟩ := h
  exact List.mem_map_of_mem ho

end MarketTrader.Execution
