import MarketTrader.Collectors.Feeds
import MarketTrader.Reasoning.Extraction

namespace MarketTrader.Collectors

open Library MarketTrader.Core Reasoning

/-- The exceptions of a fetch. Only a transport raises the other ones. -/
inductive FetchError
  | massive (message : String)
  | python (e : PyError)
  | attributeError
  | validationError
  | csvError
  | other (name : String)
deriving DecidableEq

def FetchError.isMassive : FetchError → Bool
  | massive _ => true
  | _ => false

def raisePython {α : Type} : Except PyError α → Except FetchError α
  | .ok a => .ok a
  | .error e => .error (.python e)

/-- What a model makes of a value for a field that may be absent, where it accepts the value. -/
structure Pydantic where
  number : Json → Option (Option Double)
  text : Json → Option (Option String)

/-- The value as it stands: nothing is converted to a text or a number. -/
def pydanticPlain : Pydantic where
  number
    | .null => some none
    | .num n => some (some (.ofRat n.value))
    | _ => none
  text
    | .null => some none
    | .str s => some (some s)
    | _ => none

def validated {α : Type} : Option α → Except FetchError α
  | some a => .ok a
  | none => .error .validationError

/-- `get` of a value, which only an object has. -/
def getMember (v : Json) (name : String) : Except FetchError (Option Json) :=
  match v with
  | .obj members => .ok (Json.member? members name)
  | _ => .error .attributeError

/-- What a loop over a value runs through. -/
def elements : Json → Except FetchError (List Json)
  | .arr l => .ok l
  | .str s => .ok (s.toList.map fun c ↦ .str (String.ofList [c]))
  | .obj members => .ok ((members.map Prod.fst).eraseDups.map .str)
  | .null | .bool _ | .num _ | .const _ => .error (.python .typeError)

def truthy : Json → Bool
  | .null => false
  | .bool b => b
  | .const _ => true
  | .num n => n.value ≠ 0
  | .str s => s ≠ ""
  | .arr l => l ≠ []
  | .obj members => members ≠ []

structure PriceBar where
  date : Date
  symbol : String
  close : Double
  «open» : Option Double
  high : Option Double
  low : Option Double
  volume : Option Double
  adjClose : Option Double := none
deriving DecidableEq

end MarketTrader.Collectors
