import MarketTrader.Core.Identity
import MarketTrader.Execution.Engine
import MarketTrader.Storage.Journal

namespace MarketTrader.Runtime

open Library MarketTrader.Core Storage InMemoryBitemporalStore Execution

def sleeveRow (D : Digests) (dataset symbol ref : String) (asOf : Datetime)
    (value : Dict String Value) : Observation :=
  withDeterministicId D
    { source := "sleeve"
      dataset := dataset
      entityType := "equity"
      entityId := symbol
      ref := some ref
      eventTime := asOf
      knowledgeTime := asOf
      value := value }

def latestBySymbol (better : Observation → Observation → Bool) (rows : List Observation) :
    Keyed Observation.entityId := champions Observation.entityId better rows

def isOpen (o : Observation) : Bool := o.get? "status" = some (.str "open")

def readFloat (o : Observation) (field : String) : Except TradingError ℚ :=
  match ((o.get? field).getD (.num 0)).float? with
  | some q => .ok q
  | none => .error (.valueError field)

def readTime (o : Observation) (field : String) : Except TradingError Datetime :=
  match o.get? field with
  | some (.time t) => .ok t
  | some _ => .error (.valueError field)
  | none => .error (.keyError field)

/-- The symbols that a sleeve owns: the latest state of the name is `open`. -/
def activePositions {π : Type} (better : Observation → Observation → Bool)
    (read : Observation → Except TradingError π) (dataset : String)
    (store : InMemoryBitemporalStore) (asOf : Datetime) : Except TradingError (Dict String π) :=
  Dict.collect Observation.entityId
    (fun o ↦ if isOpen o then (read o).map some else .ok none) .empty
    (latestBySymbol better (store.asOf asOf { dataset := some dataset })).toList

def priceDataset : String := "price.ohlcv"

/-- The last close of each wanted symbol. A missing or a zero close is no price. -/
def latestPrices (store : InMemoryBitemporalStore) (asOf : Datetime) (symbols : List String) :
    Except TradingError (Dict String ℚ) :=
  Dict.collect Observation.entityId
    (fun o ↦
      let close := (o.get? "close").getD .null
      if o.entityId ∈ symbols ∧ close.truthy then
        match close.float? with
        | some q => .ok (some q)
        | none => .error (.valueError "close")
      else .ok none) .empty
    (store.asOf asOf { dataset := some priceDataset })

def stopHit (stopLossPct entryPrice : ℚ) : Option ℚ → Bool
  | none => false
  | some px => px ≠ 0 ∧ 0 < entryPrice ∧ 0 < stopLossPct ∧ px / entryPrice - 1 ≤ -stopLossPct

structure SleevePass where
  store : InMemoryBitemporalStore
  target : Dict String ℚ := .empty
  opened : List String := []
  closed : List String := []

/-- Closes a position that is due: the name's target is zero, and the close is recorded. -/
def closeWith {π : Type} (due : String × π → Bool)
    (record : InMemoryBitemporalStore → String × π → InMemoryBitemporalStore) (p : SleevePass)
    (a : String × π) : SleevePass :=
  if due a then
    { p with
      target := Dict.set p.target a.1 0
      store := record p.store a
      closed := p.closed ++ [a.1] }
  else p

structure SleeveResult where
  asOf : Datetime
  opened : List String
  closed : List String
  orders : List Order

/-- The end of a pass: the decisions are on record, and the target goes to the engine. -/
def executePass {β : Type} (D : Digests) (B : Broker β) (engine : ExecutionEngine) (w : World β)
    (p : SleevePass) (prices : Dict String ℚ) (asOf : Datetime) :
    Except TradingError SleeveResult × World β :=
  let w' := { w with store := p.store }
  if p.target.toList = [] then (.ok ⟨asOf, p.opened, p.closed, []⟩, w')
  else
    let out := rebalance D B engine w' p.target prices asOf
    (out.result.map (⟨asOf, p.opened, p.closed, ·⟩), out.world)

end MarketTrader.Runtime
