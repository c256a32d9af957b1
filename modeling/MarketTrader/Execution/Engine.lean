import MarketTrader.Config.Settings
import MarketTrader.Execution.Audit
import MarketTrader.Execution.Guardrails
import MarketTrader.Library.Rounding
import MarketTrader.Portfolio.Risk

namespace MarketTrader.Execution

open Library MarketTrader.Core Storage InMemoryBitemporalStore Config Portfolio

inductive Halt
  | engaged (reason : String)
  | drawdown
  | dailyLoss (dayReturn : ℚ)

inductive TradingError
  | liveDisabled
  | killSwitchEngaged (halt : Halt)
  | riskLimitBreach (breach : RiskLimitBreach)
  | brokerError (reason : String)
  | keyError (key : String)
  | valueError (text : String)

/-- The broker and the store that all components share, and the orders that have been handed to
`submit_order` so far. -/
structure World (β : Type) where
  broker : β
  store : InMemoryBitemporalStore
  submitted : List Order

def drawdownStateDataset : String := "risk.drawdown_state"

def drawdownRow (D : Digests) (asOf : Datetime) (peak : ℚ) (tripped : Bool) : Observation :=
  withDeterministicId D
    { source := "execution"
      dataset := drawdownStateDataset
      entityType := "portfolio"
      entityId := "PORTFOLIO"
      ref := some "drawdown"
      eventTime := asOf
      knowledgeTime := asOf
      value := .ofList [("peak", .num peak), ("tripped", .bool tripped)] }

def loadDrawdownState (store : InMemoryBitemporalStore) (now : Datetime) : Option ℚ × Bool :=
  match firstMax Observation.eventTime
      (store.asOf now { dataset := some drawdownStateDataset }) with
  | none => (none, false)
  | some latest =>
    ((latest.get? "peak").filter (·.truthy) |>.bind (·.float?),
      ((latest.get? "tripped").getD (.bool false)).truthy)

/-- The engine's own state. It writes to the shared store only when it was given it to audit. -/
structure ExecutionEngine where
  settings : Settings
  limits : RiskLimits
  audited : Bool
  killSwitch : KillSwitch
  breaker : DrawdownCircuitBreaker
  rateLimiter : OrderRateLimiter

namespace ExecutionEngine

/-- Constructs an engine. Its own breaker, if it may read the store, takes up the persisted
high-water mark. -/
def init (settings : Settings) (limits : Option RiskLimits) (audited : Bool)
    (killSwitch : Option KillSwitch) (breaker : Option DrawdownCircuitBreaker)
    (rateLimiter : Option OrderRateLimiter) (store : InMemoryBitemporalStore) (now : Datetime) :
    ExecutionEngine where
  settings := settings
  limits := limits.getD {}
  audited := audited
  killSwitch := killSwitch.getD {}
  breaker :=
    match breaker with
    | some b => b
    | none =>
      let own : DrawdownCircuitBreaker := { maxDrawdown := settings.maxDrawdownHalt }
      if audited then
        match loadDrawdownState store now with
        | (some peak, wasTripped) => own.seed (some peak) wasTripped
        | (none, _) => own
      else own
  rateLimiter := rateLimiter.getD { maxOrders := settings.maxOrdersPerInterval }

def fresh (settings : Settings) (limits : RiskLimits) (audited : Bool)
    (store : InMemoryBitemporalStore) (now : Datetime) : ExecutionEngine :=
  init settings (some limits) audited none none none store now

def audit (D : Digests) (e : ExecutionEngine) (store : InMemoryBitemporalStore) (asOf : Datetime)
    (symbol event : String) (detail : List (String × Value)) : InMemoryBitemporalStore :=
  if e.audited then logExecutionEvent D store asOf symbol event (.ofList detail) else store

def saveDrawdownState (D : Digests) (e : ExecutionEngine) (store : InMemoryBitemporalStore)
    (asOf : Datetime) : InMemoryBitemporalStore :=
  match e.breaker.peak with
  | none => store
  | some peak =>
    if e.audited then upsertMany store [drawdownRow D asOf peak e.breaker.tripped] else store

end ExecutionEngine

/-! ### Planning -/

def effectivePositions (positions : List Position) (openOrders : List Order) : Dict String ℚ :=
  openOrders.foldl
    (fun d o ↦
      let remaining := o.qty - o.filledQty
      let signed := if o.side = .buy then remaining else -remaining
      Dict.set d o.symbol (Dict.getD d o.symbol 0 + signed))
    (.ofList (positions.map (fun p ↦ (p.symbol, p.qty))))

def deployable (settings : Settings) (account : Account) : ℚ :=
  min account.equity settings.capitalCeiling

def inBand (settings : Settings) (currentQty targetQty : ℚ) : Bool :=
  0 < settings.rebalanceBand ∧ currentQty ≠ 0 ∧ targetQty ≠ 0 ∧
    |targetQty - currentQty| < settings.rebalanceBand * |targetQty|

def orderQty (settings : Settings) (delta : ℚ) : ℚ :=
  if settings.fractionalShares then |delta| else truncate |delta|

def planOrder (settings : Settings) (capital : ℚ) (prices positions : Dict String ℚ)
    (asOf : Datetime) (symbol : String) (weight : ℚ) : Option (Order × ℚ) :=
  match (Dict.get? prices symbol).filter (0 < ·) with
  | none => none
  | some price =>
    let targetQty := weight * capital / price
    let currentQty := Dict.getD positions symbol 0
    let delta := targetQty - currentQty
    if inBand settings currentQty targetQty then none
    else if orderQty settings delta * price < 1 then none
    else
      some
        ({ clientOrderId := asOf.compact ++ "-" ++ symbol
           symbol := symbol
           side := if 0 < delta then .buy else .sell
           qty := orderQty settings delta }, price)

def plan (settings : Settings) (capital : ℚ) (target prices positions : Dict String ℚ)
    (asOf : Datetime) : List (Order × ℚ) :=
  sortBy (fun p ↦ decide (p.1.side ≠ .sell))
    (target.toList.filterMap
      (fun p ↦ planOrder settings capital prices positions asOf p.1 p.2))

def overLimit (target : Weights) (limits : RiskLimits) : Option RiskLimitBreach :=
  target.toList.findSome? (fun p ↦ checkOrder p.1 p.2 (target.erase p.1) limits)

/-! ### Submission -/

structure Submission (β : Type) where
  world : World β
  rateLimiter : OrderRateLimiter
  orders : List Order := []
  skipped : ℕ := 0

variable {β : Type}

def World.submit (B : Broker β) (w : World β) (order : Order) : Except String Order × World β :=
  let (answer, broker) := B.submitOrder w.broker order
  (answer, { w with broker := broker, submitted := w.submitted ++ [order] })

def World.audit (D : Digests) (e : ExecutionEngine) (w : World β) (asOf : Datetime)
    (symbol event : String) (detail : List (String × Value)) : World β :=
  { w with store := e.audit D w.store asOf symbol event detail }

/-- Sends the planned orders one by one. A malformed or a rejected one is skipped; the rate cap
ends the loop. -/
def submitAll (D : Digests) (B : Broker β) (e : ExecutionEngine) (asOf : Datetime) :
    List (Order × ℚ) → Submission β → Submission β
  | [], s => s
  | (order, price) :: rest, s =>
    match sanityCheckOrder order (some price) with
    | some err =>
      submitAll D B e asOf rest
        { s with
          skipped := s.skipped + 1
          world := s.world.audit D e asOf order.symbol "order_skipped"
            [("reason", .str err.text)] }
    | none =>
      match s.rateLimiter.allow with
      | none =>
        { s with
          world := s.world.audit D e asOf "PORTFOLIO" "order_rate_capped"
            [("cap", .num s.rateLimiter.maxOrders)] }
      | some rateLimiter =>
        match s.world.submit B order with
        | (.error reason, world) =>
          submitAll D B e asOf rest
            { s with
              rateLimiter := rateLimiter
              skipped := s.skipped + 1
              world := world.audit D e asOf order.symbol "order_rejected"
                [("side", .str order.side.value), ("qty", .num order.qty),
                  ("reason", .str reason)] }
        | (.ok filled, world) =>
          submitAll D B e asOf rest
            { s with
              rateLimiter := rateLimiter
              orders := s.orders ++ [filled]
              world := world.audit D e asOf order.symbol "order"
                [("client_order_id", .str order.clientOrderId), ("side", .str order.side.value),
                  ("qty", .num order.qty), ("status", .str filled.status.value),
                  ("mode", .str (if e.settings.executionMode = .live then "live" else "paper"))] }

/-! ### Rebalance -/

/-- What a call returns or raises, and what it leaves behind in either case. -/
structure Outcome (β : Type) where
  result : Except TradingError (List Order)
  engine : ExecutionEngine
  world : World β

def dailyLoss (settings : Settings) (account : Account) : Option ℚ :=
  if 0 < settings.maxDailyLoss ∧ 0 < account.lastEquity then
    let dayReturn := account.equity / account.lastEquity - 1
    if dayReturn ≤ -settings.maxDailyLoss then some dayReturn else none
  else none

/-- The gates in front of the book, in their order: live gating, kill switch, drawdown breaker,
daily loss. -/
def passGates (D : Digests) (B : Broker β) (e : ExecutionEngine) (w : World β)
    (asOf : Datetime) : Option TradingError × ExecutionEngine × World β :=
  if e.settings.executionMode = .live ∧ !e.settings.liveAllowed then (some .liveDisabled, e, w)
  else if e.killSwitch.engaged then
    let reason := (e.killSwitch.reason.filter (· ≠ "")).getD "engaged"
    (some (.killSwitchEngaged (.engaged reason)), e, w)
  else
    let account := B.getAccount w.broker
    let e₁ := { e with breaker := e.breaker.update account.equity }
    let w₁ := { w with store := e₁.saveDrawdownState D w.store asOf }
    if e₁.breaker.tripped then
      (some (.killSwitchEngaged .drawdown),
        { e₁ with killSwitch := e₁.killSwitch.engage "drawdown_circuit_breaker" },
        w₁.audit D e₁ asOf "PORTFOLIO" "halt"
          [("reason", .str "drawdown"), ("peak", .num (e₁.breaker.peak.getD 0))])
    else
      match dailyLoss e.settings account with
      | some dayReturn =>
        (some (.killSwitchEngaged (.dailyLoss dayReturn)),
          { e₁ with killSwitch := e₁.killSwitch.engage "daily_loss_limit" },
          w₁.audit D e₁ asOf "PORTFOLIO" "halt"
            [("reason", .str "daily_loss"), ("day_return", .num (roundTo 4 dayReturn))])
      | none => (none, e₁, w₁)

def executePlan (D : Digests) (B : Broker β) (e : ExecutionEngine) (w : World β)
    (target prices : Dict String ℚ) (asOf : Datetime) : Outcome β :=
  let account := B.getAccount w.broker
  let positions := effectivePositions (B.getPositions w.broker) (B.getOpenOrders w.broker)
  let planned := plan e.settings (deployable e.settings account) target prices positions asOf
  let s := submitAll D B e asOf planned { world := w, rateLimiter := e.rateLimiter }
  { result := .ok s.orders
    engine := { e with rateLimiter := s.rateLimiter }
    world :=
      if 0 < s.skipped then
        s.world.audit D e asOf "PORTFOLIO" "rebalance_summary"
          [("placed", .num s.orders.length), ("skipped", .num s.skipped)]
      else s.world }

def rebalance (D : Digests) (B : Broker β) (e : ExecutionEngine) (w : World β)
    (target prices : Dict String ℚ) (asOf : Datetime) : Outcome β :=
  match passGates D B e w asOf with
  | (some err, e', w') => ⟨.error err, e', w'⟩
  | (none, e', w') =>
    match overLimit target e'.limits with
    | some breach => ⟨.error (.riskLimitBreach breach), e', w'⟩
    | none => executePlan D B e' w' target prices asOf

/-- Closes the positions one by one. A refused order ends the loop with the broker's error. -/
def flattenAll (D : Digests) (B : Broker β) (e : ExecutionEngine) (asOf : Datetime) :
    List Position → World β → List Order → Except TradingError (List Order) × World β
  | [], w, orders => (.ok orders, w)
  | pos :: rest, w, orders =>
    let order : Order :=
      { clientOrderId := "flat-" ++ asOf.compact ++ "-" ++ pos.symbol
        symbol := pos.symbol
        side := if 0 < pos.qty then .sell else .buy
        qty := |pos.qty| }
    match w.submit B order with
    | (.error reason, w') => (.error (.brokerError reason), w')
    | (.ok filled, w') =>
      flattenAll D B e asOf rest
        (w'.audit D e asOf pos.symbol "flatten" [("client_order_id", .str order.clientOrderId)])
        (orders ++ [filled])

def haltAndFlatten (D : Digests) (B : Broker β) (e : ExecutionEngine) (w : World β)
    (asOf : Datetime) : Outcome β :=
  let e' := { e with killSwitch := e.killSwitch.engage "manual_kill" }
  let (result, w') := flattenAll D B e' asOf (B.getPositions w.broker) w []
  ⟨result, e', w'⟩

end MarketTrader.Execution
