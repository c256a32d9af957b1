import MarketTrader.Collectors.Edgar
import MarketTrader.Collectors.Payload
import MarketTrader.Library.Attempts

namespace MarketTrader.Collectors

open Library MarketTrader.Core Reasoning

variable {σ : Type}

/-! ### Lines and records -/

/-- What ends a line. -/
def isLineBreak (c : Char) : Bool := c.toNat ∈ [10, 11, 12, 13, 28, 29, 30, 133, 8232, 8233]

def splitLines : List Char → List (List Char)
  | [] => []
  | '\r' :: '\n' :: s => [] :: splitLines s
  | c :: s =>
    if isLineBreak c then [] :: splitLines s
    else
      match splitLines s with
      | [] => [[c]]
      | line :: lines => (c :: line) :: lines

inductive CsvState
  | startField
  | inField
  | inQuotedField
  | quoteInQuotedField

/-- A record as far as it is read. -/
structure CsvReader where
  state : CsvState := .startField
  fields : List String := []
  field : List Char := []

namespace CsvReader

def saveField (r : CsvReader) : CsvReader where
  state := .startField
  fields := r.fields ++ [String.ofList r.field]

/-- A field has a limited size. -/
def addChar (r : CsvReader) (state : CsvState) (c : Char) : Except FetchError CsvReader :=
  if 131072 ≤ r.field.length then .error .csvError
  else .ok { r with state := state, field := r.field ++ [c] }

/-- One character of a line, in which a quote stands for itself where it is doubled. -/
def processChar (r : CsvReader) (c : Char) : Except FetchError CsvReader :=
  match r.state with
  | .startField =>
    if c = '"' then .ok { r with state := .inQuotedField }
    else if c = ',' then .ok r.saveField
    else r.addChar .inField c
  | .inField => if c = ',' then .ok r.saveField else r.addChar .inField c
  | .inQuotedField =>
    if c = '"' then .ok { r with state := .quoteInQuotedField } else r.addChar .inQuotedField c
  | .quoteInQuotedField =>
    if c = '"' then r.addChar .inQuotedField c
    else if c = ',' then .ok r.saveField
    else r.addChar .inField c

/-- The records of the lines. An open quote carries a record on to the next line. -/
def records : Option CsvReader → List (List Char) → Except FetchError (List (List String))
  | none, [] => .ok []
  | some r, [] => .ok [r.saveField.fields]
  | none, [] :: lines => (records none lines).map ([] :: ·)
  | start, line :: lines => do
    let r ← line.foldlM processChar (start.getD {})
    match r.state with
    | .inQuotedField => records (some r) lines
    | .startField | .inField | .quoteInQuotedField =>
      return r.saveField.fields :: (← records none lines)

end CsvReader

/-- The cell of a record under a name. Of several columns with that name the last one counts. -/
def cell (header row : List String) (name : String) : Option String :=
  (((header.zip (row.map some ++ List.replicate header.length none)).filter
    (·.1 = name)).getLast?).bind Prod.snd

/-! ### Bars -/

/-- The provider writes `N/D` for a gap. -/
def optFloat (I : Interpreter) (raw : Option String) : Option Double :=
  match raw.map I.strip with
  | none => none
  | some s => if s = "" ∨ upper s = "N/D" then none else I.floatOfText s

/-- `strptime` of a whole text with the format `%Y-%m-%d`. -/
def strptimeDate (s : String) : Option CalendarDate :=
  if 10 < s.toList.length then none else parseDate s

/-- A record without a date or a close is no bar. -/
def csvBar (I : Interpreter) (symbol : String) (header row : List String) : Option PriceBar := do
  let close ← optFloat I (cell header row "Close")
  let day ← strptimeDate (I.strip ((cell header row "Date").getD ""))
  return { date := day.1, symbol := symbol, close := close
           «open» := optFloat I (cell header row "Open")
           high := optFloat I (cell header row "High")
           low := optFloat I (cell header row "Low")
           volume := optFloat I (cell header row "Volume") }

/-- The first record is the header, and an empty one is passed over. -/
def parseCsv (I : Interpreter) (symbol body : String) : Except FetchError (List PriceBar) :=
  (CsvReader.records none (splitLines body.toList)).map fun
    | [] => []
    | header :: rows => (rows.filter (· ≠ [])).filterMap (csvBar I symbol header)

example : parseCsv cpython "A" "Date,Close\nN/D,1\n2024-01-02,\"1\"\n" =
    .ok [⟨⟨2024, 1, 2⟩, "A", .fin 1, none, none, none, none, none⟩] := by decide +kernel

/-! ### The client -/

def csvUrl (ticker : String) (start stop : CalendarDate) : String :=
  "https://stooq.com/q/d/l/?s=" ++ String.ofList (ticker.toList.map Char.toLower) ++
    ".us&i=d&d1=" ++ String.ofList start.1.compactChars ++ "&d2=" ++
    String.ofList stop.1.compactChars

structure StooqClient (σ : Type) where
  interpreter : Interpreter
  get : String → Attempt σ FetchError String
  budget : ℚ := 120

namespace StooqClient

variable (c : StooqClient σ)

def fetchSymbol (start stop : CalendarDate) (symbol : String) :
    Attempt σ FetchError (List PriceBar) := fun s ↦
  match c.get (csvUrl symbol start stop) s with
  | (.error e, s) => (.error e, s)
  | (.ok body, s) => (parseCsv c.interpreter symbol body, s)

def fetchDailyBars (elapsed : ℕ → ℚ) (symbols : List String) (start stop : CalendarDate) :
    Attempt σ FetchError (List PriceBar) :=
  bestEffort (fun i ↦ c.budget < elapsed i) (fun _ ↦ true)
    (fun symbol ↦ some (c.fetchSymbol start stop symbol)) 0 symbols []

end StooqClient

end MarketTrader.Collectors
