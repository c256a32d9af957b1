import MarketTrader.Library.Keyed
import Mathlib.Algebra.Order.Field.Rat
import Mathlib.Algebra.BigOperators.Group.List.Basic

namespace MarketTrader.Execution

open Library

inductive OrderSide
  | buy
  | sell
deriving DecidableEq

inductive OrderType
  | market
  | limit
deriving DecidableEq

inductive OrderStatus
  | new
  | submitted
  | accepted
  | partiallyFilled
  | filled
  | rejected
  | cancelled
  | expired
deriving DecidableEq

def OrderSide.value : OrderSide → String
  | buy => "buy"
  | sell => "sell"

def OrderStatus.value : OrderStatus → String
  | new => "new"
  | submitted => "submitted"
  | accepted => "accepted"
  | partiallyFilled => "partially_filled"
  | filled => "filled"
  | rejected => "rejected"
  | cancelled => "cancelled"
  | expired => "expired"

structure Order where
  /-- Generated by the client, so that submission is idempotent. -/
  clientOrderId : String
  symbol : String
  side : OrderSide
  qty : ℚ
  orderType : OrderType := .market
  limitPrice : Option ℚ := none
  status : OrderStatus := .new
  filledQty : ℚ := 0
  filledAvgPrice : Option ℚ := none
  reason : Option String := none
deriving DecidableEq

/-- The change of the holding that the order asks for. -/
def Order.signedQty (o : Order) : ℚ := if o.side = .buy then o.qty else -o.qty

structure Position where
  symbol : String
  qty : ℚ
  avgPrice : ℚ
deriving DecidableEq

structure Account where
  equity : ℚ
  cash : ℚ
  buyingPower : ℚ
  /-- Equity at the previous close. -/
  lastEquity : ℚ := 0

/-- The broker interface over its own states `β`. An order is answered, or refused with a
`BrokerError` that carries a text. -/
structure Broker (β : Type) where
  getAccount : β → Account
  getPositions : β → List Position
  getOpenOrders : β → List Order
  submitOrder : β → Order → Except String Order × β
  cancelOrder : β → String → β

/-! ### The paper broker -/

structure PaperBroker where
  prices : Dict String ℚ
  cash : ℚ := 100000
  positions : Keyed Position.symbol := .empty
  orders : Keyed Order.clientOrderId := .empty

namespace PaperBroker

def setPrice (b : PaperBroker) (symbol : String) (price : ℚ) : PaperBroker :=
  { b with prices := Dict.set b.prices symbol price }

/-- The position after a fill, or none when nothing is left of it. -/
def applyFill (pos : Option Position) (symbol : String) (signedQty price : ℚ) : Option Position :=
  match pos with
  | none => some { symbol := symbol, qty := signedQty, avgPrice := price }
  | some pos =>
    let newQty := pos.qty + signedQty
    if |newQty| < 1 / 10 ^ 12 then none
    else if (0 < pos.qty) ↔ (0 < signedQty) then
      some { symbol := symbol, qty := newQty
             avgPrice := (pos.avgPrice * pos.qty + price * signedQty) / newQty }
    else
      some { symbol := symbol, qty := newQty
             avgPrice := if (0 < newQty) ↔ (0 < pos.qty) then pos.avgPrice else price }

def fill (b : PaperBroker) (symbol : String) (signedQty price : ℚ) : PaperBroker :=
  { b with
    cash := b.cash - signedQty * price
    positions :=
      match applyFill (b.positions.find? symbol) symbol signedQty price with
      | none => b.positions.erase symbol
      | some pos => b.positions.insert pos }

def record (b : PaperBroker) (order : Order) : PaperBroker :=
  { b with orders := b.orders.insert order }

def marketable (order : Order) (limit price : ℚ) : Bool :=
  (order.side = .buy && price ≤ limit) || (order.side = .sell && limit ≤ price)

def fillAt (b : PaperBroker) (order : Order) (price : ℚ) : Order × PaperBroker :=
  let order' := { order with
    status := .filled, filledQty := order.qty, filledAvgPrice := some price }
  (order', (b.fill order.symbol order.signedQty price).record order')

def submitOrder (b : PaperBroker) (order : Order) : Except String Order × PaperBroker :=
  match b.orders.find? order.clientOrderId with
  | some stored => (.ok stored, b)
  | none =>
    match (Dict.get? b.prices order.symbol).filter (0 < ·) with
    | none =>
      let order' := { order with status := .rejected, reason := some "no market price" }
      (.ok order', b.record order')
    | some price =>
      match order.orderType, order.limitPrice with
      | .limit, some limit =>
        if marketable order limit price then
          let (order', b') := b.fillAt order limit
          (.ok order', b')
        else
          let order' := { order with status := .accepted }
          (.ok order', b.record order')
      | _, _ =>
        let (order', b') := b.fillAt order price
        (.ok order', b')

def cancelOrder (b : PaperBroker) (clientOrderId : String) : PaperBroker :=
  match b.orders.find? clientOrderId with
  | none => b
  | some order =>
    if order.status ∈ [.new, .submitted, .accepted] then
      b.record { order with status := .cancelled }
    else b

def getOpenOrders (b : PaperBroker) : List Order :=
  b.orders.toList.filter (·.status ∈ [.new, .submitted, .accepted, .partiallyFilled])

def getAccount (b : PaperBroker) : Account :=
  let marketValue :=
    (b.positions.toList.map (fun p ↦ p.qty * Dict.getD b.prices p.symbol p.avgPrice)).sum
  { equity := b.cash + marketValue, cash := b.cash, buyingPower := max b.cash 0 }

end PaperBroker

def paperBroker : Broker PaperBroker where
  getAccount := PaperBroker.getAccount
  getPositions b := b.positions.toList
  getOpenOrders := PaperBroker.getOpenOrders
  submitOrder := PaperBroker.submitOrder
  cancelOrder := PaperBroker.cancelOrder

/-- A broker that is only its account: it holds nothing and fills every order it is sent. -/
def accountBroker : Broker Account where
  getAccount := id
  getPositions _ := []
  getOpenOrders _ := []
  submitOrder account order :=
    (.ok { order with status := .filled, filledQty := order.qty }, account)
  cancelOrder account _ := account

end MarketTrader.Execution
