import MarketTrader.Collectors.Payload
import MarketTrader.Library.Attempts

namespace MarketTrader.Collectors

open Library MarketTrader.Core Reasoning

variable {σ : Type}

/-! ### Queries -/

def percentByte (b : UInt8) : List Char :=
  ['%', (Nat.digitChar (b.toNat / 16)).toUpper, (Nat.digitChar (b.toNat % 16)).toUpper]

def quotePlus (s : String) : String :=
  String.ofList (s.toList.flatMap fun c ↦
    if c.isAlphanum ∨ c ∈ ['_', '.', '-', '~'] then [c]
    else if c = ' ' then ['+']
    else (String.utf8EncodeChar c).flatMap percentByte)

example : quotePlus "A&B é" = "A%26B+%C3%A9" := by decide +kernel

/-! ### The client -/

/-- An article with the tone as it is read, which may be any number of the floating-point type. -/
structure FetchedArticle where
  seendate : Date
  title : String
  url : Option String
  sourceName : Option String
  tone : Option Double
  symbol : Option String
deriving DecidableEq

structure GdeltClient (σ : Type) where
  interpreter : Interpreter
  models : Pydantic
  base : String := "https://api.gdeltproject.org/api/v2/doc/doc"
  get : String → Attempt σ FetchError Json
  maxRecords : ℤ := 50
  budget : ℚ := 45
  today : Date

namespace GdeltClient

variable (c : GdeltClient σ)

def queryUrl (query timespan : String) : String :=
  c.base ++ "?query=" ++ quotePlus query ++ "&mode=ArtList&format=json&maxrecords=" ++
    toString c.maxRecords ++ "&timespan=" ++ quotePlus timespan ++ "&sort=DateDesc"

def seenOn (raw : Json) : Except FetchError Date := do
  let s ← raisePython (c.interpreter.str raw)
  match parseSeendate c.today s with
  | .ok d => return d
  | .error _ => throw (.python .valueError)

def article (symbol : Option String) (a : Json) : Except FetchError FetchedArticle := do
  let seendate ← c.seenOn ((← getMember a "seendate").getD .null)
  let title ← raisePython (c.interpreter.str ((← getMember a "title").getD (.str "")))
  let url ← validated (c.models.text ((← getMember a "url").getD .null))
  let domain ← validated (c.models.text ((← getMember a "domain").getD .null))
  let tone ← validated (c.models.number ((← getMember a "tone").getD .null))
  return ⟨seendate, title, url, domain, tone, symbol⟩

def articles (symbol : Option String) (payload : Json) :
    Except FetchError (List FetchedArticle) := do
  let found ← getMember payload "articles"
  let records ← elements ((found.filter truthy).getD (.arr []))
  records.mapM (c.article symbol)

def fetchArticles (query : String) (symbol : Option String) (timespan : String := "3d") :
    Attempt σ FetchError (List FetchedArticle) := fun s ↦
  match c.get (c.queryUrl query timespan) s with
  | (.error e, s) => (.error e, s)
  | (.ok payload, s) => (c.articles symbol payload, s)

def fetchForSymbols (elapsed : ℕ → ℚ) (symbols : List String) (timespan : String := "3d") :
    Attempt σ FetchError (List FetchedArticle) :=
  bestEffort (fun i ↦ c.budget < elapsed i) (fun _ ↦ true)
    (fun s ↦ some (c.fetchArticles s (some s) timespan)) 0 symbols []

end GdeltClient

end MarketTrader.Collectors
