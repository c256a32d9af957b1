import MarketTrader.Core.Identity
import MarketTrader.Storage.Bitemporal

namespace MarketTrader.Execution

open Library MarketTrader.Core Storage InMemoryBitemporalStore

def executionDataset : String := "execution.audit"

def detailText (detail : Dict String Value) (field : String) : String :=
  match Dict.get? detail field with
  | some (.str s) => s
  | _ => ""

def auditRow (D : Digests) (asOf : Datetime) (symbol event : String)
    (detail : Dict String Value) : Observation :=
  withDeterministicId D
    { source := "execution"
      dataset := executionDataset
      entityType := "equity"
      entityId := symbol
      ref := some (event ++ ":" ++ detailText detail "client_order_id")
      eventTime := asOf
      knowledgeTime := asOf
      value := (Dict.set .empty "event" (.str event)).insertAll detail.toList }

def logExecutionEvent (D : Digests) (store : InMemoryBitemporalStore) (asOf : Datetime)
    (symbol event : String) (detail : Dict String Value) : InMemoryBitemporalStore :=
  upsertMany store [auditRow D asOf symbol event detail]

def loadExecutionAudit (store : InMemoryBitemporalStore) (asOf : Datetime) : List Observation :=
  store.asOf asOf { dataset := some executionDataset }

end MarketTrader.Execution
