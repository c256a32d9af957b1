import MarketTrader.Execution.Broker
import MarketTrader.Library.Run
import MarketTrader.Library.Stake
import Mathlib.Tactic.LinearCombination

namespace MarketTrader.Execution

open Library

/-- A positive whole number of shares. -/
def Whole (q : ℚ) : Prop := ∃ n : ℕ, 0 < n ∧ q = n

inductive PaperCall
  | submit (order : Order)
  | cancel (clientOrderId : String)
  | setPrice (symbol : String) (price : ℚ)

namespace PaperCall

/-- The client's id of the order that the call is about. -/
def orderId : PaperCall → Option String
  | submit order => some order.clientOrderId
  | cancel clientOrderId => some clientOrderId
  | setPrice .. => none

end PaperCall

namespace Order

/-- The order has a price of its own to fill at. -/
def hasLimit (o : Order) : Bool := o.orderType = .limit ∧ o.limitPrice.isSome

def isClosed (o : Order) : Bool := o.status ∈ [.filled, .rejected, .cancelled]

def fillPrice (o : Order) : ℚ := o.filledAvgPrice.getD 0

def fill (o : Order) : Fill ℚ := ⟨o.signedQty, o.fillPrice⟩

end Order

def Position.stake (p : Position) : Stake ℚ := ⟨p.qty, p.avgPrice⟩

namespace PaperBroker

def step (b : PaperBroker) : PaperCall → PaperBroker
  | .submit order => (b.submitOrder order).2
  | .cancel clientOrderId => b.cancelOrder clientOrderId
  | .setPrice symbol price => b.setPrice symbol price

/-- The orders that were filled, in the order of their submission. -/
def filled (b : PaperBroker) : List Order := b.orders.toList.filter (·.status = .filled)

def fillsOf (b : PaperBroker) (symbol : String) : List (Fill ℚ) :=
  (b.filled.filter (·.symbol = symbol)).map Order.fill

/-- The call moved cash or a position. -/
def Moves (b : PaperBroker) (c : PaperCall) : Prop :=
  (b.step c).cash ≠ b.cash ∨ (b.step c).positions ≠ b.positions

variable {b : PaperBroker} {o : Order} {c : PaperCall} {id symbol : String} {price : ℚ}

/-! ### What a call can do -/

/-- An order that comes again is answered from the table. A new one is put there, unfilled, or is
filled at a price, which is that of the market where the order has none of its own. -/
theorem submitOrder_cases (b : PaperBroker) (o : Order) :
    (o.clientOrderId ∈ b.orders.keys ∧ (b.submitOrder o).2 = b) ∨
    (o.clientOrderId ∉ b.orders.keys ∧ ∃ o', o'.clientOrderId = o.clientOrderId ∧
      o'.status ≠ .filled ∧ (b.submitOrder o).2 = b.record o') ∨
    (o.clientOrderId ∉ b.orders.keys ∧ ∃ price,
      (o.hasLimit = false → Dict.get? b.prices o.symbol = some price) ∧
      (b.submitOrder o).2 = (b.fillAt o price).2) := by
  unfold submitOrder
  cases hf : b.orders.find? o.clientOrderId with
  | some stored => exact .inl ⟨Keyed.mem_keys_iff_find?.mpr ⟨stored, hf⟩, rfl⟩
  | none =>
    have hnew : o.clientOrderId ∉ b.orders.keys := Keyed.find?_eq_none.mp hf
    right
    cases hp : (Dict.get? b.prices o.symbol).filter (0 < ·) with
    | none =>
      exact .inl ⟨hnew, { o with status := .rejected, reason := some "no market price" }, rfl,
        by simp, rfl⟩
    | some price =>
      have hprice : Dict.get? b.prices o.symbol = some price :=
        (Option.filter_eq_some_iff.mp hp).1
      dsimp only
      split
      · next limit ht hl =>
        split
        · exact .inr ⟨hnew, limit, by simp [Order.hasLimit, ht, hl], rfl⟩
        · exact .inl ⟨hnew, { o with status := .accepted }, rfl, by simp, rfl⟩
      · exact .inr ⟨hnew, price, fun _ ↦ hprice, rfl⟩

theorem cancelOrder_cases (b : PaperBroker) (id : String) : b.cancelOrder id = b ∨
    ∃ o ∈ b.orders.toList, o.isClosed = false ∧
      b.cancelOrder id = b.record { o with status := .cancelled } := by
  unfold cancelOrder
  cases hf : b.orders.find? id with
  | none => exact .inl rfl
  | some o =>
    dsimp only
    split
    · next hs =>
      refine .inr ⟨o, (Keyed.mem_of_find? hf).1, ?_, rfl⟩
      simp only [List.mem_cons, List.not_mem_nil, or_false] at hs
      rcases hs with hs | hs | hs <;> simp [Order.isClosed, hs]
    · exact .inl rfl

/-! ### Orders -/

/-- An order that is closed stays as it is. -/
theorem find?_step_of_closed (h : b.orders.find? id = some o) (hc : o.isClosed) :
    (b.step c).orders.find? id = some o := by
  obtain ⟨hm, rfl⟩ := Keyed.mem_of_find? h
  have hkey : o.clientOrderId ∈ b.orders.keys := Keyed.mem_keys_iff_find?.mpr ⟨o, h⟩
  have hrecord : ∀ o' : Order, o'.clientOrderId ≠ o.clientOrderId →
      (b.orders.insert o').find? o.clientOrderId = some o := by
    intro o' hne
    rw [Keyed.find?_insert, if_neg hne, h]
  cases c with
  | setPrice symbol price => exact h
  | submit o' =>
    rcases b.submitOrder_cases o' with ⟨-, he⟩ | ⟨hnew, o'', hid, -, he⟩ | ⟨hnew, price, -, he⟩
    · rw [step, he]
      exact h
    · rw [step, he]
      refine hrecord o'' ?_
      rintro hid'
      exact hnew (hid ▸ hid' ▸ hkey)
    · rw [step, he]
      refine hrecord _ ?_
      rintro hid'
      exact hnew (hid' ▸ hkey)
  | cancel id =>
    rcases b.cancelOrder_cases id with he | ⟨o', hm', ho', he⟩
    · rw [step, he]
      exact h
    · rw [step, he]
      refine hrecord _ ?_
      rintro hid'
      rw [Keyed.eq_of_mem hm' hm hid'] at ho'
      exact Bool.false_ne_true (ho'.symm.trans hc)

theorem find?_run_of_closed (h : b.orders.find? id = some o) (hc : o.isClosed)
    (calls : List PaperCall) : (run step b calls).orders.find? id = some o := by
  induction calls generalizing b with
  | nil => exact h
  | cons c calls ih => exact ih (find?_step_of_closed h hc)

theorem mem_keys_step (h : id ∈ b.orders.keys) : id ∈ (b.step c).orders.keys := by
  have hrecord : ∀ o : Order, id ∈ (b.record o).orders.keys := fun o ↦
    Keyed.mem_keys_insert.mpr (.inr h)
  cases c with
  | setPrice symbol price => exact h
  | submit o =>
    rcases b.submitOrder_cases o with ⟨-, he⟩ | ⟨-, o', -, -, he⟩ | ⟨-, price, -, he⟩
    · rw [step, he]
      exact h
    · rw [step, he]
      exact hrecord o'
    · rw [step, he]
      exact hrecord _
  | cancel id' =>
    rcases b.cancelOrder_cases id' with he | ⟨o, -, -, he⟩
    · rw [step, he]
      exact h
    · rw [step, he]
      exact hrecord _

theorem mem_keys_run (h : id ∈ b.orders.keys) (calls : List PaperCall) :
    id ∈ (run step b calls).orders.keys := by
  induction calls generalizing b with
  | nil => exact h
  | cons c calls ih => exact ih (mem_keys_step h)

/-- Only an order that is not in the table yet moves cash or a position, and is there from then
on. -/
theorem Moves.submit (h : b.Moves c) : ∃ o, c = .submit o ∧ o.clientOrderId ∉ b.orders.keys ∧
    o.clientOrderId ∈ (b.step c).orders.keys := by
  cases c with
  | setPrice symbol price => exact absurd h (by simp [Moves, step, PaperBroker.setPrice])
  | cancel id =>
    rcases b.cancelOrder_cases id with he | ⟨o, -, -, he⟩
    · exact absurd h (by simp [Moves, step, he])
    · exact absurd h (by simp [Moves, step, he, record])
  | submit o =>
    rcases b.submitOrder_cases o with ⟨-, he⟩ | ⟨-, o', -, -, he⟩ | ⟨hnew, price, -, he⟩
    · exact absurd h (by simp [Moves, step, he])
    · exact absurd h (by simp [Moves, step, he, record])
    · refine ⟨o, rfl, hnew, ?_⟩
      rw [step, he]
      exact Keyed.mem_keys_insert.mpr (.inl rfl)

theorem not_moves_again {c' : PaperCall} (calls : List PaperCall) (hid : c.orderId = c'.orderId)
    (h : b.Moves c) : ¬(run step (b.step c) calls).Moves c' := by
  intro h'
  obtain ⟨o, rfl, -, hin⟩ := h.submit
  obtain ⟨o', rfl, hnew, -⟩ := h'.submit
  exact hnew (Option.some.inj hid ▸ mem_keys_run hin calls)

/-! ### Cash and positions -/

theorem toList_record_of_not_mem (h : o.clientOrderId ∉ b.orders.keys) :
    (b.record o).orders.toList = b.orders.toList ++ [o] := upsert_of_not_mem h

theorem filled_record_of_not_mem (h : o.clientOrderId ∉ b.orders.keys) :
    (b.record o).filled = b.filled ++ if o.status = .filled then [o] else [] := by
  rw [filled, toList_record_of_not_mem h, List.filter_append, filled]
  by_cases ho : o.status = .filled <;> simp [ho]

theorem filled_cancel (ho : o ∈ b.orders.toList) (hc : o.isClosed = false) :
    (b.record { o with status := .cancelled }).filled = b.filled := by
  have hopen : o.status ≠ .filled := by
    intro h
    simp [Order.isClosed, h] at hc
  have hf : ∀ o' ∈ b.orders.toList, o'.clientOrderId = o.clientOrderId →
      decide (o'.status = .filled) = decide (OrderStatus.cancelled = .filled) := by
    intro o' ho' hid
    rw [Keyed.eq_of_mem ho' ho hid]
    simp [hopen]
  exact filter_upsert_of_key Order.clientOrderId (a := { o with status := .cancelled }) hf

theorem symbol_applyFill {pos : Option Position} {p : Position} {q : ℚ}
    (h : applyFill pos symbol q price = some p) : p.symbol = symbol := by
  cases pos with
  | none =>
    cases h
    rfl
  | some pos =>
    simp only [applyFill] at h
    split at h
    · cases h
    · split at h <;> cases h <;> rfl

theorem find?_fill (q : ℚ) (symbol' : String) :
    (b.fill symbol q price).positions.find? symbol' =
      if symbol = symbol' then applyFill (b.positions.find? symbol) symbol q price
      else b.positions.find? symbol' := by
  simp only [PaperBroker.fill]
  cases h : applyFill (b.positions.find? symbol) symbol q price with
  | none => rw [Keyed.find?_erase]
  | some p => rw [Keyed.find?_insert, symbol_applyFill h]

theorem sum_fill (b : PaperBroker) (symbol : String) (price q : ℚ) (f : Position → ℚ) :
    ((b.fill symbol q price).positions.toList.map f).sum +
        ((b.positions.find? symbol).map f).getD 0 =
      (b.positions.toList.map f).sum +
        ((applyFill (b.positions.find? symbol) symbol q price).map f).getD 0 := by
  simp only [PaperBroker.fill]
  cases h : applyFill (b.positions.find? symbol) symbol q price with
  | none =>
    rw [Keyed.sum_map_erase]
    exact (add_zero _).symm
  | some p =>
    have hs := Keyed.sum_map_insert b.positions p f
    rwa [symbol_applyFill h] at hs

theorem abs_intCast_lt (n : ℤ) : |(n : ℚ)| < 1 / 10 ^ 12 ↔ (n : ℚ) = 0 := by
  constructor
  · intro h
    have hone : |(n : ℚ)| < 1 := h.trans (by norm_num)
    have hn : |n| < 1 := by exact_mod_cast hone
    exact_mod_cast Int.abs_lt_one_iff.mp hn
  · intro h
    rw [h, abs_zero]
    norm_num

/-- In whole shares a fill does to a position what it does to a stake. -/
theorem stake_applyFill {pos : Option Position} {n : ℤ} (hn : (n : ℚ) ≠ 0)
    (hpos : ∃ m : ℤ, ((pos.map Position.stake).map Stake.qty).getD 0 = m) :
    (applyFill pos symbol n price).map Position.stake =
      Stake.absorb (pos.map Position.stake) ⟨n, price⟩ := by
  cases pos with
  | none => simp [applyFill, Stake.absorb, hn, Position.stake]
  | some p =>
    obtain ⟨m, hm⟩ := hpos
    have hqty : p.qty = m := hm
    have hflat : |p.qty + n| < 1 / 10 ^ 12 ↔ p.qty + n = 0 := by
      rw [hqty, ← Int.cast_add]
      exact abs_intCast_lt (m + n)
    simp only [applyFill, Option.map_some, Stake.absorb, Position.stake, hflat]
    split
    · rfl
    · split <;> rfl

/-- The books say what the filled orders did. -/
structure Kept (cash : ℚ) (b : PaperBroker) : Prop where
  cash : b.cash = cash - (b.filled.map (fun o ↦ o.signedQty * o.fillPrice)).sum
  whole : ∀ o ∈ b.filled, Whole o.qty
  stakes : ∀ symbol, (b.positions.find? symbol).map Position.stake =
    Stake.ofFills (b.fillsOf symbol)

theorem exists_int_signedQty (h : Whole o.qty) :
    ∃ n : ℤ, o.signedQty = n ∧ (n : ℚ) ≠ 0 := by
  obtain ⟨n, hpos, hn⟩ := h
  have hne : (n : ℚ) ≠ 0 := by exact_mod_cast hpos.ne'
  rw [Order.signedQty, hn]
  split
  · exact ⟨n, by simp, by simpa using hne⟩
  · exact ⟨-n, by simp, by simpa using hne⟩

theorem exists_int_total {orders : List Order} (h : ∀ o ∈ orders, Whole o.qty) :
    ∃ n : ℤ, total (orders.map Order.fill) = n := by
  induction orders with
  | nil => exact ⟨0, by simp [total]⟩
  | cons o orders ih =>
    obtain ⟨m, hm⟩ := ih fun o' ho' ↦ h o' (List.mem_cons_of_mem _ ho')
    obtain ⟨n, hn, -⟩ := exists_int_signedQty (h o List.mem_cons_self)
    refine ⟨n + m, ?_⟩
    have hsum : total ((o :: orders).map Order.fill) =
        o.signedQty + total (orders.map Order.fill) := List.sum_cons
    rw [hsum, hn, hm, Int.cast_add]

namespace Kept

variable {cash : ℚ}

theorem exists_int_qty (h : Kept cash b) (symbol : String) :
    ∃ m : ℤ, (((b.positions.find? symbol).map Position.stake).map Stake.qty).getD 0 = m := by
  rw [h.stakes, Stake.qty_ofFills]
  exact exists_int_total fun o ho ↦ h.whole o (List.mem_of_mem_filter ho)

theorem of_filled_eq {b' : PaperBroker} (h : Kept cash b) (hf : b'.filled = b.filled)
    (hc : b'.cash = b.cash) (hp : b'.positions = b.positions) : Kept cash b' where
  cash := by rw [hc, hf, h.cash]
  whole := by
    rw [hf]
    exact h.whole
  stakes symbol := by
    have he : b'.fillsOf symbol = b.fillsOf symbol := by rw [fillsOf, hf, fillsOf]
    rw [hp, he, h.stakes]

theorem fillAt (h : Kept cash b) (hw : Whole o.qty) (hnew : o.clientOrderId ∉ b.orders.keys)
    (price : ℚ) : Kept cash (b.fillAt o price).2 := by
  set o' : Order :=
    { o with status := .filled, filledQty := o.qty, filledAvgPrice := some price } with ho'
  have hb : (b.fillAt o price).2 = (b.fill o.symbol o.signedQty price).record o' := rfl
  have hfilled : (b.fillAt o price).2.filled = b.filled ++ [o'] := by
    rw [hb]
    exact filled_record_of_not_mem (b := b.fill o.symbol o.signedQty price) (o := o') hnew
  constructor
  · have hcash : (b.fillAt o price).2.cash = b.cash - o.signedQty * price := rfl
    have hcost : o'.signedQty * o'.fillPrice = o.signedQty * price := rfl
    rw [hcash, h.cash, hfilled, List.map_append, List.sum_append, List.map_singleton,
      List.sum_singleton, hcost]
    ring
  · intro o'' ho''
    rw [hfilled, List.mem_append, List.mem_singleton] at ho''
    rcases ho'' with ho'' | rfl
    · exact h.whole o'' ho''
    · exact hw
  · intro symbol
    have hfills : (b.fillAt o price).2.fillsOf symbol =
        b.fillsOf symbol ++ if o.symbol = symbol then [⟨o.signedQty, price⟩] else [] := by
      rw [fillsOf, hfilled, List.filter_append, List.map_append, fillsOf]
      by_cases hs : o.symbol = symbol
      · simp [ho', hs, Order.fill, Order.fillPrice, Order.signedQty]
      · simp [ho', hs]
    have hpos : (b.fillAt o price).2.positions.find? symbol =
        (b.fill o.symbol o.signedQty price).positions.find? symbol := rfl
    rw [hpos, find?_fill, hfills]
    split
    · next hs =>
      subst hs
      obtain ⟨n, hn, hne⟩ := exists_int_signedQty hw
      rw [Stake.ofFills_append_singleton, ← h.stakes, hn]
      exact stake_applyFill hne (h.exists_int_qty o.symbol)
    · rw [List.append_nil]
      exact h.stakes symbol

theorem step (h : Kept cash b) (hc : ∀ o, c = .submit o → Whole o.qty) : Kept cash (b.step c) := by
  cases c with
  | setPrice symbol price => exact ⟨h.cash, h.whole, h.stakes⟩
  | cancel id =>
    rcases b.cancelOrder_cases id with he | ⟨o, hm, ho, he⟩
    · rw [PaperBroker.step, he]
      exact h
    · rw [PaperBroker.step, he]
      exact h.of_filled_eq (filled_cancel hm ho) rfl rfl
  | submit o =>
    rcases b.submitOrder_cases o with ⟨-, he⟩ | ⟨hnew, o', hid, hs, he⟩ | ⟨hnew, price, -, he⟩
    · rw [PaperBroker.step, he]
      exact h
    · rw [PaperBroker.step, he]
      refine h.of_filled_eq ?_ rfl rfl
      rw [filled_record_of_not_mem (hid ▸ hnew), if_neg hs, List.append_nil]
    · rw [PaperBroker.step, he]
      exact h.fillAt (hc o rfl) hnew price

theorem run (h : Kept cash b) {calls : List PaperCall}
    (hc : ∀ o, PaperCall.submit o ∈ calls → Whole o.qty) :
    Kept cash (Library.run PaperBroker.step b calls) := by
  induction calls generalizing b with
  | nil => exact h
  | cons c calls ih =>
    refine ih (h.step fun o ho ↦ hc o (ho ▸ List.mem_cons_self)) fun o ho ↦ ?_
    exact hc o (List.mem_cons_of_mem _ ho)

/-- An order that fills at the price of the market, or not at all, leaves the equity as it is. -/
theorem equity_submitOrder (h : Kept cash b) (hw : Whole o.qty) (hl : o.hasLimit = false) :
    (b.submitOrder o).2.getAccount.equity = b.getAccount.equity := by
  rcases b.submitOrder_cases o with ⟨-, he⟩ | ⟨-, o', -, -, he⟩ | ⟨-, price, hp, he⟩
  · rw [he]
  · rw [he]
    rfl
  · rw [he]
    have hprice := hp hl
    obtain ⟨n, hn, hne⟩ := exists_int_signedQty hw
    let value (p : Position) : ℚ := p.qty * Dict.getD b.prices p.symbol p.avgPrice
    have hvalue : ∀ pos : Option Position, (∀ p ∈ pos, p.symbol = o.symbol) →
        (pos.map value).getD 0 = ((pos.map Position.stake).map Stake.qty).getD 0 * price := by
      intro pos hpos
      cases pos with
      | none => simp
      | some p =>
        have hs := hpos p rfl
        simp [value, hs, Dict.getD, hprice, Position.stake]
    have hold := hvalue (b.positions.find? o.symbol) fun p hp ↦ (Keyed.mem_of_find? hp).2
    have hnew := hvalue (applyFill (b.positions.find? o.symbol) o.symbol o.signedQty price)
      fun p hp ↦ symbol_applyFill hp
    have hqty : ((applyFill (b.positions.find? o.symbol) o.symbol o.signedQty price).map
        Position.stake |>.map Stake.qty).getD 0 =
          (((b.positions.find? o.symbol).map Position.stake).map Stake.qty).getD 0 +
            o.signedQty := by
      rw [hn, stake_applyFill hne (h.exists_int_qty o.symbol), Stake.qty_absorb]
    have hsum := sum_fill b o.symbol price o.signedQty value
    rw [hold, hnew, hqty] at hsum
    have hequity : (b.fillAt o price).2.getAccount.equity = b.cash - o.signedQty * price +
        ((b.fill o.symbol o.signedQty price).positions.toList.map value).sum := rfl
    have hbefore : b.getAccount.equity = b.cash + (b.positions.toList.map value).sum := rfl
    rw [hequity, hbefore]
    linear_combination hsum

end Kept

/-- A broker as it is made, before any order. -/
def init (prices : Dict String ℚ) (cash : ℚ) : PaperBroker := { prices := prices, cash := cash }

theorem kept_init (prices : Dict String ℚ) (cash : ℚ) : Kept cash (init prices cash) where
  cash := by simp [init, filled]
  whole o ho := by simp [init, filled] at ho
  stakes symbol := rfl

end PaperBroker

/-- The paper broker keeps its books. -/
theorem paper_broker_books (prices : Dict String ℚ) (cash : ℚ) (calls : List PaperCall)
    (hc : ∀ o, PaperCall.submit o ∈ calls → Whole o.qty) :
    let start := PaperBroker.init prices cash
    let b := run PaperBroker.step start calls
    b.cash = cash - (b.filled.map (fun o ↦ o.signedQty * o.fillPrice)).sum ∧
    (∀ symbol, (symbol ∉ b.positions.keys ↔ total (b.fillsOf symbol) = 0) ∧
      ∀ p, b.positions.find? symbol = some p → p.qty = total (b.fillsOf symbol) ∧
        (∃ f ∈ sinceFlat (b.fillsOf symbol), f.price ≤ p.avgPrice) ∧
        ∃ f ∈ sinceFlat (b.fillsOf symbol), p.avgPrice ≤ f.price) ∧
    (∀ before c between c' after, calls = before ++ c :: (between ++ c' :: after) →
      c.orderId = c'.orderId → (run PaperBroker.step start before).Moves c →
        ¬(run PaperBroker.step start (before ++ c :: between)).Moves c') ∧
    (∀ before after, calls = before ++ after → ∀ id o,
      (run PaperBroker.step start before).orders.find? id = some o → o.isClosed →
        b.orders.find? id = some o) ∧
    ∀ before o after, calls = before ++ .submit o :: after → o.hasLimit = false →
      (run PaperBroker.step start (before ++ [.submit o])).getAccount.equity =
        (run PaperBroker.step start before).getAccount.equity := by
  intro start b
  have hk : PaperBroker.Kept cash b := (PaperBroker.kept_init prices cash).run hc
  refine ⟨hk.cash, fun symbol ↦ ⟨?_, fun p hp ↦ ?_⟩, ?_, ?_, ?_⟩
  · rw [← Stake.ofFills_eq_none, ← hk.stakes, Option.map_eq_none_iff, Keyed.find?_eq_none]
  · have hstake : Stake.ofFills (b.fillsOf symbol) = some p.stake := by rw [← hk.stakes, hp]; rfl
    refine ⟨?_, Stake.avgPrice_ofFills hstake⟩
    rw [← Stake.qty_ofFills, hstake]
    rfl
  · rintro before c between c' after - hid hm
    rw [run_append, run_cons]
    exact PaperBroker.not_moves_again between hid hm
  · rintro before after hcalls id o ho hclosed
    have hb : b = run PaperBroker.step (run PaperBroker.step start before) after := by
      rw [← run_append, ← hcalls]
    rw [hb]
    exact PaperBroker.find?_run_of_closed ho hclosed after
  · rintro before o after hcalls hl
    have hkb : PaperBroker.Kept cash (run PaperBroker.step start before) :=
      (PaperBroker.kept_init prices cash).run fun o' ho' ↦
        hc o' (hcalls ▸ List.mem_append_left _ ho')
    rw [run_append]
    exact hkb.equity_submitOrder (hc o (by simp [hcalls])) hl

/-- Three shares bought at 10 and five sold at 12: the short that is left is carried at 12. -/
theorem paper_broker_books_flip :
    let order (id : String) (side : OrderSide) (qty : ℚ) : Order :=
      { clientOrderId := id, symbol := "A", side := side, qty := qty }
    let b := run PaperBroker.step (.init (.ofList [("A", 10)]) 1000)
      [.submit (order "1" .buy 3), .setPrice "A" 12, .submit (order "2" .sell 5)]
    b.cash = 1000 - (b.filled.map (fun o ↦ o.signedQty * o.fillPrice)).sum ∧
      b.positions.find? "A" = some ⟨"A", -2, 12⟩ := by
  intro order b
  refine ⟨(paper_broker_books (.ofList [("A", 10)]) 1000
    [.submit (order "1" .buy 3), .setPrice "A" 12, .submit (order "2" .sell 5)] ?_).1, ?_⟩
  · intro o ho
    simp only [List.mem_cons, PaperCall.submit.injEq, reduceCtorEq, List.not_mem_nil, or_false,
      false_or] at ho
    rcases ho with rfl | rfl
    · exact ⟨3, by decide, rfl⟩
    · exact ⟨5, by decide, rfl⟩
  · decide +kernel

end MarketTrader.Execution
