import MarketTrader.Library.Double
import MarketTrader.Library.JsonCorrect

namespace MarketTrader.Reasoning

open Library

/-- What is the interpreter's own: its limits on the digits of an integer and on recursion, its
database of characters, and the text of a value that is neither a word nor a string, which a value
nested too deep has not. -/
structure Interpreter where
  maxDigits : ℕ
  maxDepth : ℕ
  space : Char → Bool
  decimal : Char → Option ℕ
  repr : Json → Option String
  space_brace : space '{' = false ∧ space '}' = false

/-- An interpreter with the usual limits. -/
def cpython : Interpreter where
  maxDigits := 4300
  maxDepth := 990
  space := Char.isWhitespace
  decimal _ := none
  repr _ := none
  space_brace := by decide

inductive PyError
  | jsonDecode
  | keyError
  | typeError
  | valueError
  | overflow
  | recursion
deriving DecidableEq

structure ExtractedSignal where
  symbol : String
  score : ℚ
  confidence : ℚ
  rationale : String
deriving DecidableEq

namespace Interpreter

variable (I : Interpreter)

def stripChars (s : List Char) : List Char :=
  ((s.dropWhile I.space).reverse.dropWhile I.space).reverse

def strip (s : String) : String := String.ofList (I.stripChars s.toList)

/-- `float` of a text: blanks around it do not count, and the digits of any script are digits. -/
def floatOfText (s : String) : Option Double :=
  let ascii (c : Char) : Char :=
    if c.toNat < 127 then c
    else if I.space c then ' '
    else
      match I.decimal c with
      | some d => Char.ofNat (48 + d)
      | none => '?'
  let blank (c : Char) : Bool := isSpace c ∨ c.toNat = 11 ∨ c.toNat = 12
  Double.ofChars (((s.toList.map ascii).dropWhile blank).reverse.dropWhile blank).reverse

def float : Json → Except PyError Double
  | .bool b => .ok (.fin (if b then 1 else 0))
  | .num n =>
    if n.frac = [] ∧ n.exp = [] then
      if |n.value| < Double.bound then .ok (.fin n.value) else .error .overflow
    else .ok (.ofRat n.value)
  | .const .nan => .ok .nan
  | .const .infinity => .ok (.inf false)
  | .const .negInfinity => .ok (.inf true)
  | .str s =>
    match I.floatOfText s with
    | some x => .ok x
    | none => .error .valueError
  | .null | .arr _ | .obj _ => .error .typeError

def str : Json → Except PyError String
  | .str s => .ok s
  | .null => .ok "None"
  | .bool b => .ok (if b then "True" else "False")
  | v =>
    match I.repr v with
    | some s => .ok s
    | none => .error .recursion

def jsonLoads (s : List Char) : Except PyError Json :=
  match loads I.maxDigits I.maxDepth s with
  | .ok v => .ok v
  | .error .malformed => .error .jsonDecode
  | .error .digits => .error .valueError
  | .error .depth => .error .recursion

end Interpreter

/-- What stands from the first opening brace to the last closing one behind it. -/
def block (s : List Char) : Option (List Char) :=
  let cut := ((s.dropWhile (· ≠ '{')).reverse.dropWhile (· ≠ '}')).reverse
  if cut = [] then none else some cut

structure Fields where
  members : List (String × Json)
  score : ℚ
  confidence : ℚ

/-- The confidence of an object that has none is one half. -/
def confidenceOf (I : Interpreter) (members : List (String × Json)) : Except PyError Double :=
  match Json.member? members "confidence" with
  | none => .ok (.fin (1 / 2))
  | some confidence => I.float confidence

def fieldsOf (I : Interpreter) (members : List (String × Json)) : Except PyError Fields :=
  match Json.member? members "score" with
  | none => .error .keyError
  | some score => do
    let score ← I.float score
    let confidence ← confidenceOf I members
    return ⟨members, score.clip (-1) 1, confidence.clip 0 1⟩

def readFields (I : Interpreter) (s : List Char) : Except PyError Fields := do
  match ← I.jsonLoads s with
  | .obj members => fieldsOf I members
  | _ => .error .typeError

def PyError.caught : PyError → Bool
  | jsonDecode | keyError | typeError | valueError => true
  | overflow | recursion => false

def parseChars (I : Interpreter) (symbol : String) (text : List Char) :
    Except PyError (Option ExtractedSignal) :=
  match block (I.stripChars text) with
  | none => .ok none
  | some s =>
    match readFields I s with
    | .error e => if e.caught then .ok none else .error e
    | .ok fields =>
      (I.str ((Json.member? fields.members "rationale").getD (.str ""))).map fun rationale ↦
        some ⟨symbol, fields.score, fields.confidence, String.ofList (rationale.toList.take 300)⟩

def parseSignal (I : Interpreter) (symbol text : String) :
    Except PyError (Option ExtractedSignal) := parseChars I symbol text.toList

/-! ### The provider -/

structure Request where
  system : String
  prompt : String
  maxTokens : ℕ
deriving DecidableEq

inductive ProviderError
  | budgetExceeded
  | other (message : String)
deriving DecidableEq

/-- A provider answers a request, or raises, and may remember it. -/
abbrev Provider (σ : Type) := σ → Request → Except ProviderError String × σ

/-- What a caller of the provider raises. -/
inductive CallError
  | budgetExceeded
  | raised (e : PyError)
deriving DecidableEq

def newsSignalSystem : String :=
  "You are a careful equity analyst extracting ONE bounded sentiment signal from news " ++
  "headlines about a single company. Use ONLY the provided headlines. Do not use outside " ++
  "knowledge, and never reason about what happened after these headlines. Judge " ++
  "materiality: ignore routine or promotional items. Respond with STRICT JSON only, no " ++
  "prose: \x7b\"score\": <float -1..1>, \"confidence\": <float 0..1>, \"rationale\": <short " ++
  "string>\x7d. score: -1 strongly bearish, 0 neutral/immaterial, +1 strongly bullish. If " ++
  "the headlines are immaterial or absent, return score 0 with low confidence."

/-- The texts of a list that are not blank. -/
def Interpreter.cleaned (I : Interpreter) (texts : List String) : List String :=
  (texts.filter fun h ↦ h ≠ "" ∧ I.strip h ≠ "").map I.strip

/-- What is made of an answer: only a spent budget, and what the parser raises, get through. -/
def signalOf (I : Interpreter) (symbol : String) :
    Except ProviderError String → Except CallError (Option ExtractedSignal)
  | .error .budgetExceeded => .error .budgetExceeded
  | .error (.other _) => .ok none
  | .ok text =>
    match parseSignal I symbol text with
    | .error e => .error (.raised e)
    | .ok signal => .ok signal

def newsRequest (symbol : String) (clean : List String) : Request :=
  { system := newsSignalSystem
    prompt := "Company ticker: " ++ symbol ++ "\nRecent headlines:\n" ++
      "\n".intercalate (clean.map ("- " ++ ·))
    maxTokens := 300 }

def extractNewsSignal {σ : Type} (I : Interpreter) (P : Provider σ) (symbol : String)
    (headlines : List String) (s : σ) : Except CallError (Option ExtractedSignal) × σ :=
  let clean := (I.cleaned headlines).take 20
  if clean = [] then (.ok none, s)
  else
    let answer := P s (newsRequest symbol clean)
    (signalOf I symbol answer.1, answer.2)

end MarketTrader.Reasoning
