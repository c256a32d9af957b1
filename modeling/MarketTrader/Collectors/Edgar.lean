import MarketTrader.Collectors.Disclosures

namespace MarketTrader.Collectors

open Library MarketTrader.Core Storage

/-! ### Answers of the venue -/

/-- An element of an ownership document. -/
inductive Element
  | node (tag : String) (text : Option String) (children : List Element)

namespace Element

def tag : Element → String
  | node tag _ _ => tag

def text : Element → Option String
  | node _ text _ => text

def children : Element → List Element
  | node _ _ children => children

/-- The elements at the end of a path, in document order. -/
def findall : List String → Element → List Element
  | [], e => [e]
  | tag :: path, e => (e.children.filter (·.tag = tag)).flatMap (findall path)

def find (path : List String) (e : Element) : Option Element := (e.findall path).head?

end Element

/-- The parallel arrays of a submissions block. -/
structure FilingBlock where
  form : List String := []
  accessionNumber : List String := []
  filingDate : List String := []
  primaryDocument : List String := []

structure Shard where
  filingTo : Option String := none
  name : Option String := none

/-- The `filings` of a company: the recent ones, and the shards that hold the older ones. -/
structure Submissions where
  recent : FilingBlock := {}
  files : List Shard := []

/-- A response body as its reader decodes it. A document that is no XML has no root. -/
inductive Body
  | tickers (rows : List (String × ℕ))
  | submissions (subs : Submissions)
  | block (b : FilingBlock)
  | document (root : Option Element)

namespace Body

def tickers? : Body → Option (List (String × ℕ))
  | tickers rows => some rows
  | _ => none

def submissions? : Body → Option Submissions
  | submissions subs => some subs
  | _ => none

def block? : Body → Option FilingBlock
  | block b => some b
  | _ => none

def root? : Body → Option Element
  | document root => root
  | _ => none

end Body

/-- What a request answers, if it does not fail. -/
abbrev EdgarTransport := String → Option Body

/-! ### Addresses -/

def secTickersUrl : String := "https://www.sec.gov/files/company_tickers.json"

/-- A number in ten digits. -/
def cikText (cik : ℕ) : String :=
  let digits := Nat.toDigits 10 cik
  String.ofList (List.replicate (10 - digits.length) '0' ++ digits)

def secSubmissionsUrl (cik : ℕ) : String :=
  "https://data.sec.gov/submissions/CIK" ++ cikText cik ++ ".json"

def secSubmissionsFileUrl (name : String) : String := "https://data.sec.gov/submissions/" ++ name

/-- The raw document has the name of the rendered one, without its directory. -/
def docUrl (cik : ℕ) (accession primaryDocument : String) : String :=
  let name := String.ofList ((primaryDocument.toList.splitOn '/').getLastD [])
  let acc := String.ofList (accession.toList.filter (· ≠ '-'))
  "https://www.sec.gov/Archives/edgar/data/" ++ toString cik ++ "/" ++ acc ++ "/" ++ name

/-! ### Texts -/

def CalendarDate.ofFields (year month day : ℤ) : Option CalendarDate :=
  if h : Date.Valid ⟨year, month, day⟩ then some ⟨⟨year, month, day⟩, h⟩ else none

/-- `strptime` of the first ten characters with the format `%Y-%m-%d`, in which a month or a day
may lack its zero, and a day may have a blank for it. -/
def parseDate (s : String) : Option CalendarDate :=
  match (s.toList.take 10).splitOn '-' with
  | [y, m, d] =>
    if y.length = 4 ∧ m.length ≤ 2 ∧ d.length ≤ 2 then do
      let day := if d.length = 2 ∧ d.head? = some ' ' then d.tail else d
      CalendarDate.ofFields (← number? y) (← number? m) (← number? day)
    else none
  | _ => none

example : (parseDate "2024-01-5").map (·.1) = some ⟨2024, 1, 5⟩ := by decide

def signed? : List Char → Option ℤ
  | '-' :: cs => (number? cs).map (- ·)
  | '+' :: cs => number? cs
  | cs => number? cs

/-- `float` of a decimal text. -/
def toFloat (s : String) : Option ℚ := do
  let (sign, cs) :=
    match s.toList with
    | '-' :: cs => ((-1 : ℚ), cs)
    | '+' :: cs => (1, cs)
    | cs => (1, cs)
  let mantissa := cs.takeWhile (fun c ↦ c ≠ 'e' ∧ c ≠ 'E')
  let whole := mantissa.takeWhile (· ≠ '.')
  let fraction := (mantissa.drop whole.length).tail
  let exponent ←
    match cs.drop mantissa.length with
    | [] => some 0
    | _ :: power => signed? power
  return sign * (← number? (whole ++ fraction)) * 10 ^ (exponent - fraction.length)

example : toFloat "-12.50" = some (-25 / 2) := by decide +kernel

def strip (s : String) : String :=
  let front := s.toList.dropWhile Char.isWhitespace
  String.ofList (front.reverse.dropWhile Char.isWhitespace).reverse

def textAt (node : Element) (path : List String) : Option String :=
  (((node.find path).bind Element.text).filter (· ≠ "")).map strip

/-! ### The client -/

def parseTransaction (ticker owner : String) (title : Option String) (filingDate : CalendarDate)
    (txn : Element) : Option Form4Record :=
  match (textAt txn ["transactionCoding", "transactionCode"]).filter (· ≠ ""),
    (textAt txn ["transactionDate", "value"]).bind parseDate with
  | some code, some date =>
    some
      { issuerTicker := upper ticker
        insiderName := owner
        transactionCode := code
        transactionDate := date
        filingDate := filingDate
        insiderTitle := title
        shares := (textAt txn ["transactionAmounts", "transactionShares", "value"]).bind toFloat
        pricePerShare :=
          (textAt txn ["transactionAmounts", "transactionPricePerShare", "value"]).bind toFloat }
  | _, _ => none

/-- One record for each transaction of the non-derivative table. -/
def parseForm4Xml (filingDate : CalendarDate) (fallbackTicker : String) :
    Option Element → List Form4Record
  | none => []
  | some root =>
    let ticker :=
      ((textAt root ["issuer", "issuerTradingSymbol"]).filter (· ≠ "")).getD fallbackTicker
    let owner :=
      ((textAt root ["reportingOwner", "reportingOwnerId", "rptOwnerName"]).filter (· ≠ "")).getD
        "unknown"
    let title := textAt root ["reportingOwner", "reportingOwnerRelationship", "officerTitle"]
    if ticker = "" then []
    else
      (root.findall ["nonDerivativeTable", "nonDerivativeTransaction"]).filterMap
        (parseTransaction ticker owner title filingDate)

structure EdgarClient where
  get : EdgarTransport
  budget : ℚ := 90
  maxFilings : ℕ := 250

namespace EdgarClient

def cikMap (c : EdgarClient) : Dict String ℕ :=
  match (c.get secTickersUrl).bind Body.tickers? with
  | some rows => .ofList (rows.map (fun row ↦ (upper row.1, row.2)))
  | none => .empty

/-- The records of one document. One that is not answered is skipped. -/
def document (c : EdgarClient) (cik : ℕ) (ticker acc doc : String) (filingDate : CalendarDate) :
    List Form4Record :=
  match c.get (docUrl cik acc doc) with
  | some body => parseForm4Xml filingDate ticker body.root?
  | none => []

/-- What a symbol's blocks have yielded so far, and how many filings they took. -/
structure Progress where
  out : List Form4Record := []
  seen : ℕ := 0

/-- The first filing over the limit ends the block. -/
def processRows (c : EdgarClient) (cik : ℕ) (ticker : String) (cutoff : ℤ) :
    List (String × String × String × String) → Progress → Progress
  | [], p => p
  | (form, acc, fdate, doc) :: rows, p =>
    if form ≠ "4" then c.processRows cik ticker cutoff rows p
    else
      match parseDate fdate with
      | none => c.processRows cik ticker cutoff rows p
      | some fd =>
        if fd.1.toOrdinal < cutoff then c.processRows cik ticker cutoff rows p
        else if c.maxFilings ≤ p.seen then p
        else
          c.processRows cik ticker cutoff rows
            { out := p.out ++ c.document cik ticker acc doc fd, seen := p.seen + 1 }

end EdgarClient

def FilingBlock.rows (b : FilingBlock) : List (String × String × String × String) :=
  b.form.zip (b.accessionNumber.zip (b.filingDate.zip b.primaryDocument))

/-- The name of a shard whose filings reach into the lookback. -/
def Shard.reaching (cutoff : ℤ) (shard : Shard) : Option String :=
  match shard.filingTo.bind parseDate, shard.name.filter (· ≠ "") with
  | some last, some name => if last.1.toOrdinal < cutoff then none else some name
  | _, _ => none

namespace EdgarClient

def processBlock (c : EdgarClient) (cik : ℕ) (ticker : String) (cutoff : ℤ) (b : FilingBlock)
    (p : Progress) : Progress :=
  c.processRows cik ticker cutoff b.rows p

def processShards (c : EdgarClient) (cik : ℕ) (ticker : String) (cutoff : ℤ) :
    List Shard → Progress → Progress
  | [], p => p
  | shard :: rest, p =>
    if c.maxFilings ≤ p.seen then p
    else
      match shard.reaching cutoff with
      | none => c.processShards cik ticker cutoff rest p
      | some name =>
        match (c.get (secSubmissionsFileUrl name)).bind Body.block? with
        | none => c.processShards cik ticker cutoff rest p
        | some b =>
          c.processShards cik ticker cutoff rest (c.processBlock cik ticker cutoff b p)

/-- No value where the submissions cannot be read: the exception leaves the method. -/
def fetchSymbol (c : EdgarClient) (ticker : String) (cik : ℕ) (cutoff : ℤ) :
    Option (List Form4Record) :=
  ((c.get (secSubmissionsUrl cik)).bind Body.submissions?).map (fun filings ↦
    (c.processShards cik ticker cutoff filings.files
      (c.processBlock cik ticker cutoff filings.recent {})).out)

/-- The loop over the symbols, from the `i`-th on. Each iteration first reads the clock. -/
def fetchEach (c : EdgarClient) (ciks : Dict String ℕ) (cutoff : ℤ) (elapsed : ℕ → ℚ) :
    ℕ → List String → List Form4Record
  | _, [] => []
  | i, sym :: rest =>
    if c.budget < elapsed i then []
    else
      ((Dict.get? ciks (upper sym)).bind (fun cik ↦ c.fetchSymbol sym cik cutoff)).getD [] ++
        c.fetchEach ciks cutoff elapsed (i + 1) rest

/-- The records found within the budget. There is no value where the lookback starts on no date. -/
def fetchForSymbols (c : EdgarClient) (today : CalendarDate) (elapsed : ℕ → ℚ)
    (symbols : List String) (lookbackDays : ℤ := 400) : Option (List Form4Record) :=
  let cutoff := today.1.toOrdinal - lookbackDays
  if 1 ≤ (Date.ofOrdinal cutoff).year ∧ (Date.ofOrdinal cutoff).year ≤ 9999 then
    some (c.fetchEach c.cikMap cutoff elapsed 0 symbols)
  else none

end EdgarClient

/-! ### What a fetch yields -/

structure Filing where
  accession : String
  filingDate : CalendarDate
  primaryDocument : String

/-- The Form 4 of a row, if it was filed in the lookback. -/
def filing? (cutoff : ℤ) : String × String × String × String → Option Filing
  | (form, acc, fdate, doc) =>
    if form = "4" then
      ((parseDate fdate).filter (fun fd ↦ cutoff ≤ fd.1.toOrdinal)).map (fun fd ↦ ⟨acc, fd, doc⟩)
    else none

def FilingBlock.filings (cutoff : ℤ) (b : FilingBlock) : List Filing :=
  b.rows.filterMap (filing? cutoff)

namespace EdgarClient

variable (c : EdgarClient) {cik : ℕ} {ticker : String} {cutoff : ℤ} {p : Progress}

def records (cik : ℕ) (ticker : String) (f : Filing) : List Form4Record :=
  c.document cik ticker f.accession f.primaryDocument f.filingDate

/-- The filings in the shards that are answered. -/
def shardFilings (cutoff : ℤ) (files : List Shard) : List Filing :=
  files.flatMap (fun shard ↦ ((shard.reaching cutoff).bind (fun name ↦
    (c.get (secSubmissionsFileUrl name)).bind Body.block?)).elim [] (·.filings cutoff))

/-- All filings of a company in the lookback that the answers list. -/
def listing (cutoff : ℤ) (subs : Submissions) : List Filing :=
  subs.recent.filings cutoff ++ c.shardFilings cutoff subs.files

/-- The progress after further filings, up to the limit. -/
def Progress.read (cik : ℕ) (ticker : String) (p : Progress) (l : List Filing) : Progress :=
  let taken := l.take (c.maxFilings - p.seen)
  { out := p.out ++ taken.flatMap (c.records cik ticker), seen := p.seen + taken.length }

theorem Progress.read_nil (p : Progress) : p.read c cik ticker [] = p := by
  simp [read]

theorem Progress.read_full (h : c.maxFilings ≤ p.seen) (l : List Filing) :
    p.read c cik ticker l = p := by
  simp [read, Nat.sub_eq_zero_of_le h]

theorem Progress.read_append (p : Progress) (l l' : List Filing) :
    p.read c cik ticker (l ++ l') = (p.read c cik ticker l).read c cik ticker l' := by
  have hk : c.maxFilings - p.seen - l.length =
      c.maxFilings - (p.seen + (l.take (c.maxFilings - p.seen)).length) := by
    rw [List.length_take]
    omega
  simp only [read, List.take_append, List.flatMap_append, List.length_append, hk, List.append_assoc,
    Nat.add_assoc]

theorem Progress.read_cons (h : ¬c.maxFilings ≤ p.seen) (f : Filing) (l : List Filing) :
    p.read c cik ticker (f :: l) =
      Progress.read c cik ticker
        { out := p.out ++ c.records cik ticker f, seen := p.seen + 1 } l := by
  have hk : c.maxFilings - p.seen = c.maxFilings - (p.seen + 1) + 1 := by omega
  simp only [read, hk, List.take_succ_cons, List.flatMap_cons, List.length_cons, List.append_assoc]
  congr 1
  omega

theorem processRows_eq (rows : List (String × String × String × String)) (p : Progress) :
    c.processRows cik ticker cutoff rows p =
      p.read c cik ticker (rows.filterMap (filing? cutoff)) := by
  induction rows generalizing p with
  | nil => exact (Progress.read_nil c p).symm
  | cons row rows ih =>
    obtain ⟨form, acc, fdate, doc⟩ := row
    rw [processRows, List.filterMap_cons]
    by_cases hform : form = "4"
    · rw [if_neg (not_not.mpr hform)]
      cases hd : parseDate fdate with
      | none => simp only [filing?, hform, hd, if_true, Option.filter_none, Option.map_none, ih]
      | some fd =>
        by_cases hc : fd.1.toOrdinal < cutoff
        · simp only [filing?, hform, hd, if_true, Option.filter_some, not_le.mpr hc, decide_false,
            Bool.false_eq_true, if_false, Option.map_none, hc, ih]
        · by_cases hm : c.maxFilings ≤ p.seen
          · rw [Progress.read_full c hm]
            simp only [hc, hm, if_false, if_true]
          · simp only [filing?, hform, hd, if_true, Option.filter_some, not_lt.mp hc, decide_true,
              Option.map_some, hc, hm, if_false]
            rw [Progress.read_cons c hm, ih]
            rfl
    · rw [if_pos hform, ih]
      simp only [filing?, hform, if_false]

theorem processShards_eq (files : List Shard) (p : Progress) :
    c.processShards cik ticker cutoff files p =
      p.read c cik ticker (c.shardFilings cutoff files) := by
  induction files generalizing p with
  | nil => exact (Progress.read_nil c p).symm
  | cons shard files ih =>
    rw [processShards, shardFilings, List.flatMap_cons]
    by_cases hm : c.maxFilings ≤ p.seen
    · rw [if_pos hm, Progress.read_full c hm]
    rw [if_neg hm]
    cases hr : shard.reaching cutoff with
    | none => exact ih p
    | some name =>
      dsimp only
      rw [Option.bind_some]
      cases hb : (c.get (secSubmissionsFileUrl name)).bind Body.block? with
      | none => exact ih p
      | some b =>
        have hblock : c.processBlock cik ticker cutoff b p =
            p.read c cik ticker (b.filings cutoff) := processRows_eq c b.rows p
        rw [Progress.read_append, Option.elim_some, ← hblock]
        exact ih _

/-- A fetch reads the first filings listed, as many as the limit allows. -/
theorem fetchSymbol_eq (ticker : String) (cik : ℕ) (cutoff : ℤ) :
    c.fetchSymbol ticker cik cutoff =
      ((c.get (secSubmissionsUrl cik)).bind Body.submissions?).map (fun subs ↦
        ((c.listing cutoff subs).take c.maxFilings).flatMap (c.records cik ticker)) := by
  rw [fetchSymbol]
  congr 1
  funext subs
  rw [processShards_eq, processBlock, processRows_eq, ← Progress.read_append]
  rfl

/-- The answers have the record for the symbol in the lookback and under the limit. -/
def Serves (cutoff : ℤ) (sym : String) (r : Form4Record) : Prop :=
  ∃ cik subs f, Dict.get? c.cikMap (upper sym) = some cik ∧
    (c.get (secSubmissionsUrl cik)).bind Body.submissions? = some subs ∧
      f ∈ (c.listing cutoff subs).take c.maxFilings ∧ r ∈ c.records cik sym f

theorem serves_iff {sym : String} {r : Form4Record} : c.Serves cutoff sym r ↔
    r ∈ ((Dict.get? c.cikMap (upper sym)).bind (fun cik ↦ c.fetchSymbol sym cik cutoff)).getD [] := by
  simp only [Serves, fetchSymbol_eq]
  cases hcik : Dict.get? c.cikMap (upper sym) with
  | none => simp
  | some cik =>
    rw [Option.bind_some]
    cases hsubs : (c.get (secSubmissionsUrl cik)).bind Body.submissions? with
    | none => simp [hsubs]
    | some subs => simp [hsubs]

theorem mem_fetchEach {elapsed : ℕ → ℚ} {i : ℕ} {symbols : List String} {r : Form4Record} :
    r ∈ c.fetchEach c.cikMap cutoff elapsed i symbols ↔
      ∃ j sym, symbols[j]? = some sym ∧ (∀ k ≤ j, elapsed (i + k) ≤ c.budget) ∧
        c.Serves cutoff sym r := by
  induction symbols generalizing i with
  | nil => simp [fetchEach]
  | cons sym rest ih =>
    rw [fetchEach]
    by_cases hb : c.budget < elapsed i
    · rw [if_pos hb]
      constructor
      · intro h
        cases h
      · rintro ⟨j, s, -, hk, -⟩
        exact absurd (hk 0 (Nat.zero_le j)) (not_le.mpr hb)
    rw [if_neg hb, List.mem_append, ← serves_iff, ih]
    constructor
    · rintro (h | ⟨j, s, hs, hk, h⟩)
      · refine ⟨0, sym, rfl, fun k hk ↦ ?_, h⟩
        rw [Nat.le_zero.mp hk]
        exact not_lt.mp hb
      · refine ⟨j + 1, s, hs, fun k hkj ↦ ?_, h⟩
        cases k with
        | zero => exact not_lt.mp hb
        | succ k =>
          rw [Nat.add_comm k 1, ← Nat.add_assoc]
          exact hk k (Nat.le_of_succ_le_succ hkj)
    · rintro ⟨j, s, hs, hk, h⟩
      cases j with
      | zero =>
        cases hs
        exact .inl h
      | succ j =>
        refine .inr ⟨j, s, hs, fun k hkj ↦ ?_, h⟩
        rw [Nat.add_assoc, Nat.add_comm 1 k]
        exact hk (k + 1) (Nat.succ_le_succ hkj)

end EdgarClient

end MarketTrader.Collectors
