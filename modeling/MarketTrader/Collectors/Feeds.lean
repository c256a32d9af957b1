import MarketTrader.Collectors.Gateway
import MarketTrader.Core.Calendar

namespace MarketTrader.Collectors

open Library MarketTrader.Core Storage InMemoryBitemporalStore

inductive CollectorError
  | keyError (field : String)
  | valueError (field : String)
deriving DecidableEq

def upper (s : String) : String := String.ofList (s.toList.map Char.toUpper)

/-! ### News -/

def newsDataset : String := "news.article"

structure NewsArticle where
  seendate : Date
  title : String
  url : Option String
  sourceName : Option String
  tone : Option ℚ
  symbol : Option String
deriving DecidableEq

/-- An article as the feed has it. -/
structure ArticleRecord where
  seendate : String
  title : String := ""
  url : Option String := none
  domain : Option String := none
  tone : Option ℚ := none

def textOr : Option String → Value
  | some s => .str s
  | none => .null

def numOr : Option ℚ → Value
  | some q => .num q
  | none => .null

def NewsArticle.observation (a : NewsArticle) : Observation :=
  let seen := dayClose a.seendate
  let linked := a.symbol.filter (fun s ↦ !s.toList.all Char.isWhitespace)
  { source := "gdelt"
    dataset := newsDataset
    entityType := if linked.isSome then "equity" else "news_global"
    entityId := (linked.map upper).getD "GLOBAL"
    ref := some ((a.url.filter (· ≠ "")).getD a.title)
    eventTime := seen
    knowledgeTime := seen
    value := .ofList [("title", .str a.title), ("url", textOr a.url),
      ("source", textOr a.sourceName), ("tone", numOr a.tone)]
    metadata := .ofList [("parser_version", .num 1)] }

def normalizeNews (articles : List NewsArticle) : List Observation :=
  articles.map NewsArticle.observation

/-- The date in front of the text. One that does not start with eight digits is seen today. -/
def parseSeendate (today : Date) (s : String) : Except CollectorError Date :=
  let head := s.toList.take 8
  if 8 ≤ s.toList.length ∧ head.all Char.isDigit then
    match Date.ofCompact head with
    | some d => .ok d
    | none => .error (.valueError "seendate")
  else .ok today

def ArticleRecord.article (today : Date) (symbol : Option String) (a : ArticleRecord) :
    Except CollectorError NewsArticle :=
  (parseSeendate today a.seendate).map (fun d ↦
    { seendate := d, title := a.title, url := a.url, sourceName := a.domain, tone := a.tone
      symbol := symbol })

def fetchArticles (today : Date) (symbol : Option String) :
    List ArticleRecord → Except CollectorError (List NewsArticle)
  | [] => .ok []
  | a :: rest =>
    match a.article today symbol with
    | .error e => .error e
    | .ok article => (fetchArticles today symbol rest).map (article :: ·)

/-! ### Minute bars -/

def priceIntradayDataset : String := "price.ohlcv.intraday"

def optionalFields : List String := ["open", "high", "low", "volume"]

def barNumber (r : Dict String Value) (field : String) : Except CollectorError (Option ℚ) :=
  match Dict.get? r field with
  | none | some .null => .ok none
  | some v =>
    match v.float? with
    | some q => .ok (some q)
    | none => .error (.valueError field)

def optionalValues (r : Dict String Value) :
    List String → Except CollectorError (List (String × Value))
  | [] => .ok []
  | field :: rest => do
    let q ← barNumber r field
    let others ← optionalValues r rest
    return (q.map (fun q ↦ (field, Value.num q))).toList ++ others

def barTime (r : Dict String Value) : Except CollectorError Datetime :=
  match Dict.get? r "timestamp" with
  | none => .error (.keyError "timestamp")
  | some raw =>
    match Datetime.parseTs raw.text with
    | some ts => .ok ts
    | none => .error (.valueError "timestamp")

/-- A record without a close is no bar. -/
def intradayBar (source : String) (r : Dict String Value) :
    Except CollectorError (Option Observation) :=
  match Dict.get? r "close" with
  | none | some .null => .ok none
  | some close => do
    let ts ← barTime r
    let price ← (close.float?.map Except.ok).getD (.error (.valueError "close"))
    let others ← optionalValues r optionalFields
    match Dict.get? r "symbol" with
    | none => .error (.keyError "symbol")
    | some symbol =>
      return some
        { source := source
          dataset := priceIntradayDataset
          entityType := "equity"
          entityId := upper symbol.text
          eventTime := ts
          knowledgeTime := ts
          value := .ofList (("close", .num price) :: others)
          metadata := .ofList [("timeframe", .str "intraday")] }

def intradayBarsToObservations (source : String) :
    List (Dict String Value) → Except CollectorError (List Observation)
  | [] => .ok []
  | r :: rest =>
    match intradayBar source r with
    | .error e => .error e
    | .ok o => (intradayBarsToObservations source rest).map (o.toList ++ ·)

/-! ### What is knowable when -/

variable {D : Digests} {today : Date} {symbol : Option String} {records : List ArticleRecord}
  {articles : List NewsArticle} {a : ArticleRecord} {t : Datetime} {i : ℕ}

/-- The text has the instant `t`, to the second. -/
structure FullTimestamp (s : String) (t : Datetime) : Prop where
  text : s = Datetime.compact t ++ "Z"
  whole : Datetime.microsecond t = 0
  year : 1 ≤ (Datetime.date t).year ∧ (Datetime.date t).year ≤ 9999

theorem parseSeendate_of_fullTimestamp (today : Date) {s : String} (h : FullTimestamp s t) :
    parseSeendate today s = .ok (Datetime.date t) := by
  have hv : (Datetime.date t).Valid := Date.valid_ofOrdinal h.year
  have hs : ∃ rest, s.toList = (Datetime.date t).compactChars ++ rest := by
    refine ⟨'T' :: (twoDigits (Datetime.hour t) ++ (twoDigits (Datetime.minute t) ++
      twoDigits (Datetime.second t))) ++ ['Z'], ?_⟩
    simp [h.text, Datetime.compact, Date.compactChars]
  obtain ⟨rest, hs⟩ := hs
  have hhead : s.toList.take 8 = (Datetime.date t).compactChars := by
    rw [hs, ← hv.compactChars_length, List.take_left]
  have hlen : 8 ≤ s.toList.length := by
    rw [hs, List.length_append, hv.compactChars_length]
    omega
  simp only [parseSeendate, hhead, hlen, hv.compactChars_isDigit, and_self, if_true,
    Date.ofCompact_compactChars hv]

theorem getElem?_fetchArticles (h : fetchArticles today symbol records = .ok articles)
    (hi : records[i]? = some a) :
    ∃ article, articles[i]? = some article ∧ a.article today symbol = .ok article := by
  induction records generalizing articles i with
  | nil => cases hi
  | cons b rest ih =>
    rw [fetchArticles] at h
    split at h
    · cases h
    next first hb =>
      cases hrest : fetchArticles today symbol rest with
      | error e =>
        rw [hrest] at h
        cases h
      | ok later =>
        rw [hrest] at h
        have hl : articles = first :: later := (Except.ok.inj h).symm
        subst hl
        cases i with
        | zero =>
          cases hi
          exact ⟨first, rfl, hb⟩
        | succ i =>
          obtain ⟨article, hget, ha⟩ := ih hrest hi
          exact ⟨article, hget, ha⟩

/-- An article is known at the close of the day of its timestamp. -/
theorem knowledgeTime_normalizeNews (h : fetchArticles today symbol records = .ok articles)
    (hi : records[i]? = some a) (ht : FullTimestamp a.seendate t) :
    ∃ o, (normalizeNews articles)[i]? = some o ∧
      o.knowledgeTime = t - Datetime.timeOfDay t + 21 * 3600000000 := by
  obtain ⟨article, hget, ha⟩ := getElem?_fetchArticles h hi
  rw [ArticleRecord.article, parseSeendate_of_fullTimestamp today ht] at ha
  obtain rfl := Except.ok.inj ha
  exact ⟨_, by rw [normalizeNews, List.getElem?_map, hget]; rfl, dayClose_date t⟩

/-- A bar is known from the instant that its record is stamped with. -/
theorem times_of_intradayBar {source : String} {r : Dict String Value} {o : Observation}
    (h : intradayBar source r = .ok (some o)) :
    o.knowledgeTime = o.eventTime ∧ barTime r = .ok o.eventTime := by
  unfold intradayBar at h
  split at h
  · cases h
  · cases h
  next close _ _ =>
    cases hts : barTime r with
    | error e =>
      rw [hts] at h
      cases h
    | ok ts =>
      cases hprice : (close.float?.map Except.ok).getD
        (Except.error (CollectorError.valueError "close")) with
      | error e =>
        rw [hts, hprice] at h
        cases h
      | ok price =>
        cases hothers : optionalValues r optionalFields with
        | error e =>
          rw [hts, hprice, hothers] at h
          cases h
        | ok others =>
          rw [hts, hprice, hothers] at h
          simp only [bind, Except.bind] at h
          split at h
          · cases h
          · cases h
            exact ⟨rfl, rfl⟩

theorem times_of_intradayBars {source : String} {bars : List (Dict String Value)}
    {obs : List Observation} (h : intradayBarsToObservations source bars = .ok obs)
    {o : Observation} (ho : o ∈ obs) :
    o.knowledgeTime = o.eventTime ∧ ∃ r ∈ bars, barTime r = .ok o.eventTime := by
  induction bars generalizing obs with
  | nil =>
    cases h
    cases ho
  | cons r rest ih =>
    rw [intradayBarsToObservations] at h
    split at h
    · cases h
    next first hr =>
      cases hrest : intradayBarsToObservations source rest with
      | error e =>
        rw [hrest] at h
        cases h
      | ok later =>
        rw [hrest] at h
        have hl : obs = first.toList ++ later := (Except.ok.inj h).symm
        rw [hl, List.mem_append, Option.mem_toList] at ho
        rcases ho with ho | ho
        · rw [ho] at hr
          obtain ⟨hk, ht⟩ := times_of_intradayBar hr
          exact ⟨hk, r, List.mem_cons_self, ht⟩
        · obtain ⟨hk, r', hr', ht⟩ := ih hrest ho
          exact ⟨hk, r', List.mem_cons_of_mem r hr', ht⟩

/-- The row, once ingested, is not read before `t`. -/
def UnknownBefore (D : Digests) (o : Observation) (t : Datetime) : Prop :=
  ∀ k < t, withDeterministicId D o ∉
    (({} : IngestionGateway).ingest D .empty [o]).store.asOf k { dataset := some o.dataset }

theorem not_unknownBefore (D : Digests) {o : Observation} (h : o.knowledgeTime < t) :
    ¬UnknownBefore D o t := by
  intro hu
  have hstore : (({} : IngestionGateway).ingest D .empty [o]).store =
      Keyed.empty.insertAll [withDeterministicId D o] :=
    (ingest_of_admits fun _ hs ↦ by cases hs).1
  apply hu _ h
  rw [hstore]
  refine mem_asOf_of_unique (List.mem_singleton_self _) le_rfl rfl ?_
  intro o' ho' _ _
  exact List.mem_singleton.mp ho'

/-- News is stamped late enough up to nine in the evening; a bar is readable a minute early. -/
theorem not_known_early_iff (D : Digests) (today : Date) (symbol : Option String)
    (records : List ArticleRecord) (articles : List NewsArticle)
    (hf : fetchArticles today symbol records = .ok articles) (i : ℕ) (a : ArticleRecord)
    (hi : records[i]? = some a) (t : Datetime) (ht : FullTimestamp a.seendate t) (source : String)
    (bars : List (Dict String Value)) (obs : List Observation)
    (hb : intradayBarsToObservations source bars = .ok obs) :
    ((∃ o, (normalizeNews articles)[i]? = some o ∧ t ≤ o.knowledgeTime) ↔
      Datetime.timeOfDay t ≤ 21 * 3600000000) ∧
    ∀ o ∈ obs, ¬UnknownBefore D o (o.eventTime + Timedelta.ofMinutes 1) := by
  constructor
  · obtain ⟨o, ho, hk⟩ := knowledgeTime_normalizeNews hf hi ht
    have hle : t ≤ o.knowledgeTime ↔ Datetime.timeOfDay t ≤ 21 * 3600000000 := by
      have hle : ∀ x y : ℤ, x ≤ x - y + 21 * 3600000000 ↔ y ≤ 21 * 3600000000 := by
        intro x y
        omega
      rw [hk]
      exact hle t _
    rw [← hle]
    constructor
    · rintro ⟨o', ho', hk'⟩
      rw [ho, Option.some.injEq] at ho'
      rwa [ho']
    · exact fun hk' ↦ ⟨o, ho, hk'⟩
  · intro o ho
    apply not_unknownBefore
    rw [(times_of_intradayBars hb ho).1]
    exact Int.lt_add_of_pos_right _ (by decide)

/-- An article of nine in the morning. -/
theorem not_known_early_morning :
    let t : Datetime := Timedelta.ofDays 1 + Timedelta.ofMinutes 540
    let article : NewsArticle := ⟨⟨1970, 1, 2⟩, "Cluster buy", none, none, none, some "A"⟩
    ∃ o, (normalizeNews [article])[0]? = some o ∧ t ≤ o.knowledgeTime := by
  intro t article
  have hf : fetchArticles ⟨1970, 1, 3⟩ (some "A")
      [{ seendate := "19700102T090000Z", title := "Cluster buy" }] = .ok [article] := by
    decide +kernel
  have ht : FullTimestamp "19700102T090000Z" t := ⟨by decide +kernel, by decide, by decide⟩
  exact (not_known_early_iff .plain _ _ _ _ hf 0 _ rfl t ht "price" [] [] rfl).1.mpr (by decide)

/-- An article seen at half past ten in the evening is known at nine, and a minute bar is read at
the start of its minute. -/
theorem evening_article_known_early :
    (¬∀ (today : Date) (symbol : Option String) (a : ArticleRecord) (t : Datetime)
      (articles : List NewsArticle), FullTimestamp a.seendate t →
      fetchArticles today symbol [a] = .ok articles →
        ∀ o ∈ normalizeNews articles, t ≤ o.knowledgeTime) ∧
    ¬∀ (D : Digests) (source : String) (r : Dict String Value) (o : Observation),
      intradayBarsToObservations source [r] = .ok [o] →
        UnknownBefore D o (o.eventTime + Timedelta.ofMinutes 1) := by
  constructor
  · intro h
    let t : Datetime := Timedelta.ofDays 1 + Timedelta.ofMinutes 1350
    let article : NewsArticle := ⟨⟨1970, 1, 2⟩, "Cluster buy", none, none, none, none⟩
    have hf : fetchArticles ⟨1970, 1, 3⟩ none
        [{ seendate := "19700102T223000Z", title := "Cluster buy" }] = .ok [article] := by
      decide +kernel
    have ht : FullTimestamp "19700102T223000Z" t := ⟨by decide +kernel, by decide, by decide⟩
    have hk := h _ _ _ t _ ht hf _ List.mem_cons_self
    revert hk
    decide
  · intro h
    let r : Dict String Value := .ofList [("symbol", .str "a"),
      ("timestamp", .str "1970-01-02T14:30:00Z"), ("close", .num 10)]
    let o : Observation :=
      { source := "price", dataset := priceIntradayDataset, entityType := "equity", entityId := "A"
        eventTime := 138600000000, knowledgeTime := 138600000000
        value := .ofList [("close", .num 10)]
        metadata := .ofList [("timeframe", .str "intraday")] }
    have hb : intradayBarsToObservations "price" [r] = .ok [o] := by decide +kernel
    exact not_unknownBefore .plain (Int.lt_add_of_pos_right _ (by decide)) (h .plain _ r o hb)

end MarketTrader.Collectors
