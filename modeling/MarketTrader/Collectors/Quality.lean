import MarketTrader.Core.Schema

namespace MarketTrader.Collectors

open Library MarketTrader.Core

def numericValueKeys : List String :=
  ["close", "open", "high", "low", "value", "amount_low", "amount_high"]

/-- Of those, the ones that must be strictly positive. -/
def positiveValueKeys : List String := ["close", "open", "high", "low"]

def disclosureDatasetPrefixes : List String := ["disclosure.", "filing."]

inductive Level
  | error
  | warning
deriving DecidableEq

/-- What a check found. Values are finite here, so the check for NaN finds nothing. -/
inductive QualityIssue
  | positive (dataset key : String) (v : Value) (entityId : String)
  | lag (dataset entityId : String)
  | duplicate (entityId : String)
deriving DecidableEq

namespace QualityIssue

def level : QualityIssue → Level
  | positive .. => .error
  | lag .. => .error
  | duplicate .. => .warning

def check : QualityIssue → String
  | positive .. => "positive"
  | lag .. => "lag"
  | duplicate .. => "duplicate"

def message : QualityIssue → String
  | positive dataset key v _ => dataset ++ ":" ++ key ++ "=" ++ v.text ++ " <= 0"
  | lag dataset _ => dataset ++ ": knowledge precedes event"
  | duplicate entityId => "duplicate identity for " ++ entityId

def entityId : QualityIssue → String
  | positive _ _ _ entityId => entityId
  | lag _ entityId => entityId
  | duplicate entityId => entityId

end QualityIssue

structure QualityReport where
  issues : List QualityIssue := []
  nChecked : ℕ := 0
deriving DecidableEq

namespace QualityReport

def ok (r : QualityReport) : Bool := !r.issues.any (·.level = .error)

def errors (r : QualityReport) : List QualityIssue := r.issues.filter (·.level = .error)

end QualityReport

def valueIssue (o : Observation) (key : String) : Option QualityIssue :=
  match o.get? key with
  | none => none
  | some v =>
    match v.float? with
    | none => none
    | some q =>
      if key ∈ positiveValueKeys ∧ q ≤ 0 then some (.positive o.dataset key v o.entityId) else none

def isDisclosure (o : Observation) : Bool :=
  disclosureDatasetPrefixes.any (fun pre ↦ pre.toList.isPrefixOf o.dataset.toList)

def lagIssue (o : Observation) : Option QualityIssue :=
  if isDisclosure o ∧ o.knowledgeTime < o.eventTime then some (.lag o.dataset o.entityId) else none

abbrev Identity := String × String × String × Datetime × Datetime × ℤ

def identityOf (o : Observation) : Identity :=
  (o.source, o.dataset, o.entityId, o.eventTime, o.knowledgeTime, o.revision)

def issuesOf : List Identity → List Observation → List QualityIssue
  | _, [] => []
  | seen, o :: rest =>
    numericValueKeys.filterMap (valueIssue o) ++ (lagIssue o).toList ++
      (if identityOf o ∈ seen then [.duplicate o.entityId] else []) ++
      issuesOf (identityOf o :: seen) rest

def validateObservations (observations : List Observation) : QualityReport where
  issues := issuesOf [] observations
  nChecked := observations.length

end MarketTrader.Collectors
