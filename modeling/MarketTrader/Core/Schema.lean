import MarketTrader.Core.Time
import MarketTrader.Library.Keyed
import Mathlib.Data.Rat.Defs

namespace MarketTrader.Core

open Library

/-- A JSON value as the store holds it. A `time` is the ISO text of an aware datetime, which
`isoformat` writes and `fromisoformat` reads back; `nums` is a mapping of names to numbers. -/
inductive Value
  | null
  | bool (b : Bool)
  | num (q : ℚ)
  | str (s : String)
  | time (t : Datetime)
  | nums (d : List (String × ℚ))
deriving DecidableEq

namespace Value

def truthy : Value → Bool
  | null => false
  | bool b => b
  | num q => q ≠ 0
  | str s => s ≠ ""
  | time _ => true
  | nums d => d ≠ []

def float? : Value → Option ℚ
  | num q => some q
  | bool b => some (if b then 1 else 0)
  | _ => none

def text : Value → String
  | null => "None"
  | bool b => if b then "True" else "False"
  | num q => toString q
  | str s => s
  | time t => t.isoformat
  | nums d => toString d

@[simp] theorem truthy_num (q : ℚ) : (num q).truthy = decide (q ≠ 0) := rfl

@[simp] theorem truthy_bool (b : Bool) : (bool b).truthy = b := rfl

@[simp] theorem truthy_null : null.truthy = false := rfl

@[simp] theorem float?_num (q : ℚ) : (num q).float? = some q := rfl

end Value

abbrev UUID := ℕ

abbrev LogicalKey := String × String × String × Datetime × Option String

/-- One normalised, point-in-time fact. -/
structure Observation where
  source : String
  dataset : String
  entityType : String
  entityId : String
  ref : Option String := none
  eventTime : Datetime
  knowledgeTime : Datetime
  value : Dict String Value := .empty
  metadata : Dict String Value := .empty
  revision : ℤ := 0
  observationId : UUID := 0
deriving DecidableEq

namespace Observation

def logicalKey (o : Observation) : LogicalKey :=
  (o.source, o.dataset, o.entityId, o.eventTime, o.ref)

def get? (o : Observation) (field : String) : Option Value := Dict.get? o.value field

end Observation

end MarketTrader.Core
