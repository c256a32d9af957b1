import MarketTrader.Execution.Broker

namespace MarketTrader.Execution

inductive OrderSanityError
  | nonPositiveQuantity
  | absurdQuantity (qty : ℚ)
  | farFromMarket
deriving DecidableEq

def OrderSanityError.text : OrderSanityError → String
  | nonPositiveQuantity => "non-positive quantity"
  | absurdQuantity qty => "absurd quantity " ++ toString qty
  | farFromMarket => "limit price far from market"

def maxQty : ℚ := 10 ^ 7

def maxPriceDeviation : ℚ := 1 / 5

def sanityCheckOrder (order : Order) (refPrice : Option ℚ) : Option OrderSanityError :=
  if order.qty ≤ 0 then some .nonPositiveQuantity
  else if maxQty < order.qty then some (.absurdQuantity order.qty)
  else
    match order.orderType, order.limitPrice, refPrice with
    | .limit, some limit, some ref =>
      if 0 < ref ∧ maxPriceDeviation < |limit - ref| / ref then some .farFromMarket else none
    | _, _, _ => none

/-- A market order is sane exactly when its quantity is positive and not absurd. -/
theorem sanityCheckOrder_market {order : Order} (h : order.orderType = .market)
    (refPrice : Option ℚ) :
    sanityCheckOrder order refPrice = none ↔ 0 < order.qty ∧ order.qty ≤ maxQty := by
  unfold sanityCheckOrder
  rw [h]
  split
  · next hq => simp [hq]
  · split
    · next hq => simp [not_le.mpr hq]
    · next hq hm => simp [not_le.mp hq, not_lt.mp hm]

structure KillSwitch where
  reason : Option String := none
  engaged : Bool := false
deriving DecidableEq

namespace KillSwitch

def engage (_ : KillSwitch) (reason : String) : KillSwitch :=
  { reason := some reason, engaged := true }

def reset (_ : KillSwitch) : KillSwitch := { reason := none, engaged := false }

end KillSwitch

structure OrderRateLimiter where
  maxOrders : ℤ
  count : ℤ := 0
deriving DecidableEq

namespace OrderRateLimiter

def allow (r : OrderRateLimiter) : Option OrderRateLimiter :=
  if r.maxOrders ≤ r.count then none else some { r with count := r.count + 1 }

def reset (r : OrderRateLimiter) : OrderRateLimiter := { r with count := 0 }

end OrderRateLimiter

end MarketTrader.Execution
