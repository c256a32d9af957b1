import MarketTrader.Collectors.Edgar
import MarketTrader.Collectors.Payload
import MarketTrader.Library.Attempts

namespace MarketTrader.Collectors

open Library MarketTrader.Core Storage Reasoning

variable {σ : Type}

/-! ### Integers and dates of a payload -/

/-- `int` of a text: blanks around it do not count, and the digits of any script are digits. -/
def intOfText (I : Interpreter) (s : String) : Option ℤ :=
  let (sign, t) :=
    match I.stripChars s.toList with
    | '-' :: t => ((-1 : ℤ), t)
    | '+' :: t => (1, t)
    | t => (1, t)
  let ascii := t.map fun c ↦ ((I.decimal c).map fun d ↦ Char.ofNat (48 + d)).getD c
  let digits := ascii.filter (· ≠ '_')
  if Double.underscored ascii ∧ digits ≠ [] ∧ digits.all Char.isDigit ∧
      digits.length ≤ I.maxDigits then some (sign * natOf digits)
  else none

def intOf (I : Interpreter) : Json → Except PyError ℤ
  | .bool b => .ok (if b then 1 else 0)
  | .num n =>
    if n.frac = [] ∧ n.exp = [] ∨ |n.value| < Double.bound then
      .ok (if n.value < 0 then n.value.ceil else n.value.floor)
    else .error .overflow
  | .const .nan => .error .valueError
  | .const .infinity | .const .negInfinity => .error .overflow
  | .str s =>
    match intOfText I s with
    | some n => .ok n
    | none => .error .valueError
  | .null | .arr _ | .obj _ => .error .typeError

example : intOf cpython (.str " 00_320193 ") = .ok 320193 := by decide +kernel

def isText : Json → String → Bool
  | .str s, t => s = t
  | .null, _ | .bool _, _ | .const _, _ | .num _, _ | .arr _, _ | .obj _, _ => false

/-- A value that is empty, or whose text is no date, has no date. -/
def payloadDate (I : Interpreter) (v : Json) : Except FetchError (Option CalendarDate) :=
  if truthy v then (raisePython (I.str v)).map parseDate else .ok none

/-- What a subscript with a text finds. -/
def subscript (v : Json) (name : String) : Except FetchError Json :=
  match v with
  | .obj members =>
    match Json.member? members name with
    | some v => .ok v
    | none => .error (.python .keyError)
  | .null | .bool _ | .const _ | .num _ | .str _ | .arr _ => .error (.python .typeError)

/-- The values of an object, in the order of its names. -/
def memberValues : Json → Except FetchError (List Json)
  | .obj members =>
    .ok ((members.map Prod.fst).eraseDups.filterMap fun name ↦ Json.member? members name)
  | .null | .bool _ | .const _ | .num _ | .str _ | .arr _ => .error .attributeError

/-! ### The client -/

/-- The client as it meets a transport that may raise, and answer a request differently each
time. The reader of documents is the interpreter's own. -/
structure EdgarSession (σ : Type) where
  interpreter : Interpreter
  fromstring : String → Option Element
  get : String → Attempt σ FetchError String
  budget : ℚ := 90
  maxFilings : ℕ := 250
  known : Option (Dict String ℤ) := none

namespace EdgarSession

/-- A number in ten characters. -/
def cikDigits (cik : ℤ) : String :=
  let digits := Nat.toDigits 10 cik.natAbs
  let sign := if cik < 0 then ['-'] else []
  String.ofList (sign ++ List.replicate (10 - sign.length - digits.length) '0' ++ digits)

def submissionsUrl (cik : ℤ) : String :=
  "https://data.sec.gov/submissions/CIK" ++ cikDigits cik ++ ".json"

def documentUrl (cik : ℤ) (accession primaryDocument : String) : String :=
  let name := String.ofList ((primaryDocument.toList.splitOn '/').getLastD [])
  let acc := String.ofList (accession.toList.filter (· ≠ '-'))
  "https://www.sec.gov/Archives/edgar/data/" ++ toString cik ++ "/" ++ acc ++ "/" ++ name

variable (c : EdgarSession σ)

def load (text : String) : Except FetchError Json :=
  raisePython (c.interpreter.jsonLoads text.toList)

def cikRow (row : Json) : Except FetchError (String × ℤ) := do
  let ticker ← raisePython (c.interpreter.str (← subscript row "ticker"))
  let cik ← raisePython (intOf c.interpreter (← subscript row "cik_str"))
  return (upper ticker, cik)

def readCiks (text : String) : Except FetchError (Dict String ℤ) := do
  let rows ← memberValues (← c.load text)
  return .ofList (← rows.mapM c.cikRow)

/-- The numbers of the filers, which the client asks for once. There are none where that fails. -/
def cikMap (s : σ) : Dict String ℤ × σ :=
  match c.known with
  | some ciks => (ciks, s)
  | none =>
    match c.get secTickersUrl s with
    | (.error _, s) => (.empty, s)
    | (.ok text, s) =>
      match c.readCiks text with
      | .error _ => (.empty, s)
      | .ok ciks => (ciks, s)

/-- The records of one document. One that cannot be had is skipped. -/
def document (cik : ℤ) (ticker : String) (acc doc : Json) (filingDate : CalendarDate) (s : σ) :
    List Form4Record × σ :=
  match c.interpreter.str acc, c.interpreter.str doc with
  | .ok acc, .ok doc =>
    match c.get (documentUrl cik acc doc) s with
    | (.error _, s) => ([], s)
    | (.ok xml, s) => (parseForm4Xml filingDate ticker (c.fromstring xml), s)
  | _, _ => ([], s)

/-- The loop over the filings of a block: the filings taken, or the exception, and the records by
then. -/
def processRows (cik : ℤ) (ticker : String) (cutoff : ℤ) :
    List (Json × Json × Json × Json) → List Form4Record → ℕ → σ →
      (Except FetchError ℕ × List Form4Record) × σ
  | [], out, seen, s => ((.ok seen, out), s)
  | (form, acc, fdate, doc) :: rows, out, seen, s =>
    if !isText form "4" then processRows cik ticker cutoff rows out seen s
    else
      match payloadDate c.interpreter fdate with
      | .error e => ((.error e, out), s)
      | .ok none => processRows cik ticker cutoff rows out seen s
      | .ok (some fd) =>
        if fd.1.toOrdinal < cutoff then processRows cik ticker cutoff rows out seen s
        else if c.maxFilings ≤ seen then ((.ok seen, out), s)
        else
          let (records, s) := c.document cik ticker acc doc fd s
          processRows cik ticker cutoff rows (out ++ records) (seen + 1) s

def column (block : Json) (name : String) : Except FetchError (List Json) := do
  elements ((← getMember block name).getD (.arr []))

def blockRows (block : Json) : Except FetchError (List (Json × Json × Json × Json)) := do
  let form ← column block "form"
  let acc ← column block "accessionNumber"
  let fdate ← column block "filingDate"
  let doc ← column block "primaryDocument"
  return form.zip (acc.zip (fdate.zip doc))

def processBlock (cik : ℤ) (ticker : String) (cutoff : ℤ) (block : Json) (out : List Form4Record)
    (seen : ℕ) (s : σ) : (Except FetchError ℕ × List Form4Record) × σ :=
  match blockRows block with
  | .error e => ((.error e, out), s)
  | .ok rows => c.processRows cik ticker cutoff rows out seen s

/-- The name of a shard whose filings reach into the lookback. -/
def reachingName (cutoff : ℤ) (shard : Json) : Except FetchError (Option Json) := do
  let last ← payloadDate c.interpreter ((← getMember shard "filingTo").getD .null)
  let name ← getMember shard "name"
  match last with
  | none => return none
  | some last => return if last.1.toOrdinal < cutoff then none else name.filter truthy

def shardBlock (name : Json) : Attempt σ FetchError Json := fun s ↦
  match c.interpreter.str name with
  | .error e => (.error (.python e), s)
  | .ok name =>
    match c.get (secSubmissionsFileUrl name) s with
    | (.error e, s) => (.error e, s)
    | (.ok text, s) => (c.load text, s)

/-- The loop over the shards. One that cannot be read leaves what it has appended, and is not
counted. -/
def processShards (cik : ℤ) (ticker : String) (cutoff : ℤ) :
    List Json → List Form4Record → ℕ → Attempt σ FetchError (List Form4Record)
  | [], out, _, s => (.ok out, s)
  | shard :: shards, out, seen, s =>
    if c.maxFilings ≤ seen then (.ok out, s)
    else
      match c.reachingName cutoff shard with
      | .error e => (.error e, s)
      | .ok none => processShards cik ticker cutoff shards out seen s
      | .ok (some name) =>
        match c.shardBlock name s with
        | (.error _, s) => processShards cik ticker cutoff shards out seen s
        | (.ok block, s) =>
          match c.processBlock cik ticker cutoff block out seen s with
          | ((.error _, out), s) => processShards cik ticker cutoff shards out seen s
          | ((.ok seen, out), s) => processShards cik ticker cutoff shards out seen s

/-- The recent block and the shards of a company's submissions. -/
def filings (text : String) : Except FetchError (Json × Json) := do
  let filings := (← getMember (← c.load text) "filings").getD (.obj [])
  return ((← getMember filings "recent").getD (.obj []), filings)

def fetchSymbol (cutoff : ℤ) (ticker : String) (cik : ℤ) :
    Attempt σ FetchError (List Form4Record) := fun s ↦
  match c.get (submissionsUrl cik) s with
  | (.error e, s) => (.error e, s)
  | (.ok text, s) =>
    match c.filings text with
    | .error e => (.error e, s)
    | .ok (recent, filings) =>
      match c.processBlock cik ticker cutoff recent [] 0 s with
      | ((.error e, _), s) => (.error e, s)
      | ((.ok seen, out), s) =>
        match column filings "files" with
        | .error e => (.error e, s)
        | .ok shards => c.processShards cik ticker cutoff shards out seen s

/-- The fetch of a symbol that has a number. -/
def filer (ciks : Dict String ℤ) (cutoff : ℤ) (symbol : String) :
    Option (Attempt σ FetchError (List Form4Record)) :=
  (Dict.get? ciks (upper symbol)).map (c.fetchSymbol cutoff symbol)

/-- There is no day before the first date and none after the last one. -/
def Dated (cutoff : ℤ) : Prop :=
  1 ≤ (Date.ofOrdinal cutoff).year ∧ (Date.ofOrdinal cutoff).year ≤ 9999

instance (cutoff : ℤ) : Decidable (Dated cutoff) := inferInstanceAs (Decidable (_ ∧ _))

def fetchForSymbols (elapsed : ℕ → ℚ) (today : CalendarDate) (symbols : List String)
    (lookbackDays : ℤ := 400) : Attempt σ FetchError (List Form4Record) := fun s ↦
  let (ciks, s) := c.cikMap s
  let cutoff := today.1.toOrdinal - lookbackDays
  if Dated cutoff then
    bestEffort (fun i ↦ c.budget < elapsed i) (fun _ ↦ true) (c.filer ciks cutoff) 0 symbols [] s
  else (.error (.python .overflow), s)

end EdgarSession

end MarketTrader.Collectors
