import MarketTrader.Collectors.EdgarSession
import MarketTrader.Collectors.Gdelt
import MarketTrader.Library.Paging

namespace MarketTrader.Collectors

open Library MarketTrader.Core Reasoning

variable {σ : Type}

/-- The client's own exception, and the ones that come from the values of a payload. -/
inductive DataError
  | alpaca (message : String)
  | fetch (e : FetchError)
deriving DecidableEq

def raising {α : Type} : Except FetchError α → Except DataError α
  | .ok a => .ok a
  | .error e => .error (.fetch e)

abbrev DataTransport (σ : Type) :=
  String → List (String × String) → Attempt σ DataError (ℤ × Json)

structure AlpacaDataClient (σ : Type) where
  interpreter : Interpreter
  keyId : String
  secretKey : String
  base : String := "https://data.alpaca.markets"
  get : DataTransport σ
  keys : keyId ≠ "" ∧ secretKey ≠ ""

/-! ### Queries -/

def urlencode (query : List (String × String)) : String :=
  "&".intercalate (query.map fun p ↦ quotePlus p.1 ++ "=" ++ quotePlus p.2)

/-- The members of an object, a name once. -/
def members : Json → Except FetchError (List (String × Json))
  | .obj l => .ok ((l.map Prod.fst).eraseDups.filterMap fun name ↦
      (Json.member? l name).map fun v ↦ (name, v))
  | .null | .bool _ | .const _ | .num _ | .str _ | .arr _ => .error .attributeError

namespace AlpacaDataClient

variable (c : AlpacaDataClient σ)

def headers : List (String × String) :=
  [("APCA-API-KEY-ID", c.keyId), ("APCA-API-SECRET-KEY", c.secretKey)]

def url (params : List (String × String)) (token : Option Json) : Except DataError String := do
  let page ← match token with
    | none => pure []
    | some v => raising ((raisePython (c.interpreter.str v)).map fun t ↦ [("page_token", t)])
  let base := String.ofList (c.base.toList.reverse.dropWhile (· = '/')).reverse
  return base ++ "/v2/stocks/bars?" ++ urlencode (params ++ page)

/-- The records of one page, in the order of its symbols. -/
def records (record : String → Json → Except FetchError Json) (payload : Json) :
    Except FetchError (List Json) := do
  let bars := (← getMember payload "bars").filter truthy
  let bySymbol ← members (bars.getD (.obj []))
  let rows ← bySymbol.mapM fun p ↦ do (← elements p.2).mapM (record p.1)
  return rows.flatten

def read (record : String → Json → Except FetchError Json) (answer : ℤ × Json) :
    Except DataError (Page Json Json) :=
  if 300 ≤ answer.1 then do
    let text ← raising (raisePython (c.interpreter.str answer.2))
    throw (.alpaca ("HTTP " ++ toString answer.1 ++ ": " ++ text))
  else raising do
    let rows ← records record answer.2
    let next ← getMember answer.2 "next_page_token"
    return ⟨rows, next.filter truthy⟩

def page (record : String → Json → Except FetchError Json) (params : List (String × String))
    (token : Option Json) : Attempt σ DataError (Page Json Json) := fun s ↦
  match c.url params token with
  | .error e => (.error e, s)
  | .ok url =>
    match c.get url c.headers s with
    | (.error e, s) => (.error e, s)
    | (.ok answer, s) => (c.read record answer, s)

/-- The bars of every page, unless it is given up. -/
def iterBars (record : String → Json → Except FetchError Json) (params : List (String × String))
    (fuel : ℕ) (s : σ) : Option (Except DataError (List Json) × σ) :=
  follow (c.page record params) fuel none [] s

def priceFields (symbol : String) (bar : Json) : Except FetchError (List (String × Json)) := do
  let field (name : String) := (getMember bar name).map (·.getD .null)
  return [("symbol", .str symbol), ("open", ← field "o"), ("high", ← field "h"),
    ("low", ← field "l"), ("close", ← field "c"), ("volume", ← field "v")]

def dailyRecord (symbol : String) (bar : Json) : Except FetchError Json := do
  let stamp ← raisePython (c.interpreter.str (← subscript bar "t"))
  let fields ← priceFields symbol bar
  return .obj (("date", .str (String.ofList (stamp.toList.take 10))) :: fields)

def intradayRecord (symbol : String) (bar : Json) : Except FetchError Json := do
  let stamp ← subscript bar "t"
  let fields ← priceFields symbol bar
  return .obj (("timestamp", stamp) :: fields)

def barParams (symbols : List String) (timeframe start stop adjustment feed : String) :
    List (String × String) :=
  [("symbols", ",".intercalate symbols), ("timeframe", timeframe), ("start", start),
    ("end", stop), ("adjustment", adjustment), ("feed", feed), ("limit", "10000")]

def fetchDailyBars (symbols : List String) (start stop : CalendarDate)
    (adjustment : String := "all") (feed : String := "iex") :
    ℕ → σ → Option (Except DataError (List Json) × σ) :=
  c.iterBars c.dailyRecord
    (barParams symbols "1Day" start.1.isoformat stop.1.isoformat adjustment feed)

def fetchIntradayBars (symbols : List String) (start stop : Datetime)
    (timeframe : String := "1Min") (feed : String := "iex") (adjustment : String := "raw") :
    ℕ → σ → Option (Except DataError (List Json) × σ) :=
  c.iterBars intradayRecord
    (barParams symbols timeframe start.isoformat stop.isoformat adjustment feed)

/-! ### A listing and its pages -/

variable {c}
variable {record : String → Json → Except FetchError Json} {params : List (String × String)}
  {symbols : List String}

/-- A result holds the records of every page that was served, up to the last one. -/
theorem iterBars_iff {s s' : σ} {rows : List Json} :
    (∃ fuel, c.iterBars record params fuel s = some (.ok rows, s')) ↔
      ∃ pages, Serves (c.page record params) none s pages s' ∧ rows = pages.flatten :=
  follow_iff

theorem eraseDups_of_nodup {l : List String} (h : l.Nodup) : l.eraseDups = l := by
  induction l with
  | nil => rfl
  | cons a l ih =>
    obtain ⟨ha, hl⟩ := List.nodup_cons.mp h
    have hf : l.filter (fun b ↦ !b == a) = l := by
      rw [List.filter_eq_self]
      intro b hb
      have hne : b ≠ a := fun he ↦ ha (he ▸ hb)
      simpa using hne
    rw [List.eraseDups_cons, hf, ih hl]

theorem member?_of_mem {l : List (String × Json)} (hn : (l.map Prod.fst).Nodup)
    {p : String × Json} (hp : p ∈ l) : Json.member? l p.1 = some p.2 := by
  have hone : l.filter (·.1 = p.1) = [p] := by
    obtain ⟨l₁, l₂, rfl⟩ := List.append_of_mem hp
    rw [List.map_append, List.map_cons, List.nodup_middle, List.nodup_cons, List.mem_append] at hn
    rw [List.filter_append, List.filter_cons_of_pos (by simp), List.filter_eq_nil_iff.mpr,
      List.filter_eq_nil_iff.mpr, List.nil_append]
    · intro a ha he
      exact hn.1 (.inr (of_decide_eq_true he ▸ List.mem_map_of_mem ha))
    · intro a ha he
      exact hn.1 (.inl (of_decide_eq_true he ▸ List.mem_map_of_mem ha))
  rw [Json.member?, hone]
  rfl

theorem members_of_nodup {l : List (String × Json)} (hn : (l.map Prod.fst).Nodup) :
    members (.obj l) = .ok l := by
  rw [members, eraseDups_of_nodup hn, List.filterMap_map]
  have hself : l.filterMap (fun p ↦ (Json.member? l p.1).map fun v ↦ (p.1, v)) = l := by
    refine (List.filterMap_congr fun p hp ↦ ?_).trans (List.filterMap_some (l := l))
    rw [member?_of_mem hn hp]
    rfl
  exact congrArg Except.ok hself

theorem mapM_of_ok {ε α β : Type} {f : α → Except ε β} {g : α → β} {l : List α}
    (h : ∀ a ∈ l, f a = .ok (g a)) : l.mapM f = .ok (l.map g) := by
  induction l with
  | nil => rfl
  | cons a l ih =>
    rw [List.forall_mem_cons] at h
    rw [List.mapM_cons, h.1, ih h.2]
    rfl

/-- A page of a listing: its bars by symbol, and the token of the page after it. -/
def payload (symbols : List String) (bars : List (String × Json)) (next : Option String) : Json :=
  .obj [("bars", .obj ((groupUnder Prod.fst symbols bars).map
      fun g ↦ (g.1, .arr (g.2.map Prod.snd)))),
    ("next_page_token", match next with
      | none => .null
      | some token => .str token)]

variable {row : String → Json → Json}

theorem records_payload {bars : List (String × Json)} (hn : symbols.Nodup)
    (hgroups : symbols.flatMap (fun k ↦ bars.filter (·.1 = k)) = bars)
    (hrow : ∀ b ∈ bars, record b.1 b.2 = .ok (row b.1 b.2)) (next : Option String) :
    records record (payload symbols bars next) = .ok (bars.map fun b ↦ row b.1 b.2) := by
  let groups := groupUnder Prod.fst symbols bars
  let l : List (String × Json) := groups.map fun g ↦ (g.1, .arr (g.2.map Prod.snd))
  have hkeys : (l.map Prod.fst).Nodup := by
    rw [List.map_map]
    exact nodup_groupUnder hn bars
  have hmembers : members ((Option.filter truthy (some (.obj l))).getD (.obj [])) = .ok l := by
    by_cases hl : l = []
    · rw [hl]
      rfl
    · rw [Option.filter_some_pos (by simpa [truthy] using hl), Option.getD_some,
        members_of_nodup hkeys]
  have hgroup : ∀ g ∈ groups, (do (← elements (.arr (g.2.map Prod.snd))).mapM (record g.1)) =
      Except.ok (ε := FetchError) (g.2.map fun b ↦ row b.1 b.2) := by
    intro g hg
    obtain ⟨k, -, rfl⟩ := List.mem_map.mp (List.mem_of_mem_filter hg)
    have hall : ∀ v ∈ (bars.filter (·.1 = k)).map Prod.snd, record k v = .ok (row k v) := by
      intro v hv
      obtain ⟨b, hb, rfl⟩ := List.mem_map.mp hv
      obtain ⟨hb, hbk⟩ := List.mem_filter.mp hb
      have := hrow b hb
      rwa [of_decide_eq_true hbk] at this
    refine (mapM_of_ok hall).trans ?_
    rw [List.map_map]
    congr 1
    apply List.map_congr_left
    intro b hb
    rw [Function.comp_apply, ← of_decide_eq_true (List.mem_filter.mp hb).2]
  have hrows : l.mapM (fun p ↦ do (← elements p.2).mapM (record p.1)) =
      Except.ok (ε := FetchError) (groups.map fun g ↦ g.2.map fun b ↦ row b.1 b.2) := by
    rw [List.mapM_map]
    exact mapM_of_ok hgroup
  have hflat : (groups.map fun g ↦ g.2.map fun b ↦ row b.1 b.2).flatten =
      bars.map fun b ↦ row b.1 b.2 := by
    have hall : groups.flatMap Prod.snd = bars := (flatMap_groupUnder _ _ _).trans hgroups
    conv_rhs => rw [← hall, List.map_flatMap]
    rw [List.flatMap_def]
  have hbars : getMember (payload symbols bars next) "bars" = .ok (some (.obj l)) := rfl
  rw [records, hbars]
  show (do
    let bySymbol ← members ((Option.filter truthy (some (.obj l))).getD (.obj []))
    let rows ← bySymbol.mapM fun p : String × Json ↦ do (← elements p.2).mapM (record p.1)
    return rows.flatten) = _
  rw [hmembers]
  show (do
    let rows ← l.mapM fun p : String × Json ↦ do (← elements p.2).mapM (record p.1)
    return rows.flatten) = _
  rw [hrows]
  exact congrArg Except.ok hflat

theorem read_payload {bars : List (String × Json)} (hn : symbols.Nodup)
    (hgroups : symbols.flatMap (fun k ↦ bars.filter (·.1 = k)) = bars)
    (hrow : ∀ b ∈ bars, record b.1 b.2 = .ok (row b.1 b.2)) (next : Option String)
    (hnext : ∀ t ∈ next, t ≠ "") : c.read record (200, payload symbols bars next) =
      .ok ⟨bars.map fun b ↦ row b.1 b.2, next.map .str⟩ := by
  have hrecords := records_payload hn hgroups hrow next
  have hstatus : ¬(300 : ℤ) ≤ 200 := by decide
  rw [read, if_neg hstatus]
  show raising (do
    let rows ← records record (payload symbols bars next)
    let next ← getMember (payload symbols bars next) "next_page_token"
    return Page.mk rows (next.filter truthy)) = _
  rw [hrecords]
  cases next with
  | none => rfl
  | some t =>
    have ht : (some (Json.str t)).filter truthy = some (.str t) :=
      Option.filter_some_pos (by simpa [truthy] using hnext t rfl)
    exact congrArg (fun next ↦ Except.ok (Page.mk (bars.map fun b ↦ row b.1 b.2) next)) ht

/-- However a listing is cut into pages, and whatever the tokens are, the client collects every bar
of it once, in order, with one request for each page. -/
theorem paging_invisible (c : AlpacaDataClient σ)
    {record : String → Json → Except FetchError Json} {row : String → Json → Json}
    {params : List (String × String)} {book : List (String × List Json)}
    (hn : (book.map Prod.fst).Nodup)
    (hrow : ∀ p ∈ book, ∀ bar ∈ p.2, record p.1 bar = .ok (row p.1 bar))
    (cut : List (List (String × Json))) (hne : cut ≠ [])
    (hcut : cut.flatten = book.flatMap (fun p ↦ p.2.map fun bar ↦ (p.1, bar)))
    (tokens : ℕ → String) (ht : ∀ k, tokens k ≠ "")
    (hget : ∀ k (hk : k < cut.length) (s : σ), ∃ url s',
      c.url params (if k = 0 then none else some (.str (tokens k))) = .ok url ∧
        c.get url c.headers s = (.ok (200, payload (book.map Prod.fst) cut[k]
          (if k + 1 < cut.length then some (tokens (k + 1)) else none)), s'))
    (s : σ) :
    ∃ s', ∀ fuel, cut.length ≤ fuel → c.iterBars record params fuel s =
      some (.ok (book.flatMap fun p ↦ p.2.map (row p.1)), s') := by
  let groups := book.map fun p ↦ (p.1, p.2.map fun bar ↦ (p.1, bar))
  have hkeys : groups.map Prod.fst = book.map Prod.fst := by
    rw [List.map_map]
    rfl
  have hgroups : ∀ bars ∈ cut,
      (book.map Prod.fst).flatMap (fun k ↦ bars.filter (·.1 = k)) = bars := by
    intro bars hb
    rw [← hkeys]
    refine flatMap_filter_of_sublist (by rwa [hkeys]) (fun g hg a ha ↦ ?_) ?_
    · obtain ⟨p, -, rfl⟩ := List.mem_map.mp hg
      obtain ⟨bar, -, rfl⟩ := List.mem_map.mp ha
      rfl
    · rw [List.flatMap_map, ← hcut]
      exact List.sublist_flatten_of_mem hb
  have hbars : ∀ bars ∈ cut, ∀ b ∈ bars, record b.1 b.2 = .ok (row b.1 b.2) := by
    intro bars hb b hm
    have hall : b ∈ cut.flatten := List.mem_flatten.mpr ⟨bars, hb, hm⟩
    rw [hcut] at hall
    obtain ⟨p, hp, hm⟩ := List.mem_flatMap.mp hall
    obtain ⟨bar, hbar, rfl⟩ := List.mem_map.mp hm
    exact hrow p hp bar hbar
  have hpage : ∀ k (hk : k < cut.length) (s : σ), ∃ s',
      c.page record params (if k = 0 then none else some (.str (tokens k))) s =
        (.ok ⟨cut[k].map fun b ↦ row b.1 b.2,
          (if k + 1 < cut.length then some (tokens (k + 1)) else none).map .str⟩, s') := by
    intro k hk s
    obtain ⟨url, s', hurl, hanswer⟩ := hget k hk s
    have hread := c.read_payload hn (hgroups _ (List.getElem_mem hk))
      (hbars _ (List.getElem_mem hk))
      (if k + 1 < cut.length then some (tokens (k + 1)) else none) (by
        intro t hm
        split at hm
        · cases hm
          exact ht _
        · cases hm)
    exact ⟨s', by rw [page, hurl]; dsimp only; rw [hanswer]; dsimp only; rw [hread]⟩
  -- from any page on, the rest of the listing is served
  have hserves : ∀ n k, k + (n + 1) = cut.length → ∀ s, ∃ s',
      Serves (c.page record params) (if k = 0 then none else some (.str (tokens k))) s
        ((cut.drop k).map fun bars ↦ bars.map fun b ↦ row b.1 b.2) s' := by
    intro n
    induction n with
    | zero =>
      intro k hk s
      have hlt : k < cut.length := by omega
      obtain ⟨s', hs⟩ := hpage k hlt s
      have hnext : (if k + 1 < cut.length then some (tokens (k + 1)) else none) = none :=
        if_neg (by omega)
      rw [hnext] at hs
      have hdrop : cut.drop k = [cut[k]] := by
        rw [List.drop_eq_getElem_cons hlt, List.drop_eq_nil_of_le (by omega)]
      rw [hdrop]
      exact ⟨s', .last hs⟩
    | succ n ih =>
      intro k hk s
      have hlt : k < cut.length := by omega
      obtain ⟨s₁, hs₁⟩ := hpage k hlt s
      obtain ⟨s', hs'⟩ := ih (k + 1) (by omega) s₁
      have hnext : (if k + 1 < cut.length then some (tokens (k + 1)) else none) =
          some (tokens (k + 1)) := if_pos (by omega)
      have htoken : (if k + 1 = 0 then none else some (Json.str (tokens (k + 1)))) =
          some (.str (tokens (k + 1))) := if_neg (by omega)
      rw [hnext] at hs₁
      rw [htoken] at hs'
      rw [List.drop_eq_getElem_cons hlt, List.map_cons]
      exact ⟨s', .more hs₁ hs'⟩
  obtain ⟨s', hs⟩ := hserves (cut.length - 1) 0 (by
    have := List.length_pos_of_ne_nil hne
    omega) s
  refine ⟨s', fun fuel hf ↦ ?_⟩
  have hfollow := follow_of_serves hs [] (show _ ≤ fuel by simpa using hf)
  have hflat : ((cut.drop 0).map fun bars ↦ bars.map fun b ↦ row b.1 b.2).flatten =
      book.flatMap fun p ↦ p.2.map (row p.1) := by
    rw [List.drop_zero, ← List.map_flatten, hcut, List.map_flatMap]
    simp only [List.map_map, Function.comp_def]
  rw [hflat, List.nil_append] at hfollow
  exact hfollow

def barAt (stamp : String) : Json := .obj [("t", .str stamp), ("c", .bool true)]

def twoNames : List (String × List Json) :=
  [("A", [barAt "2024-06-03", barAt "2024-06-04"]), ("B", [barAt "2024-06-03"])]

/-- Three bars on two pages: the first page ends within a symbol. -/
def twoPages : List (List (String × Json)) :=
  [[("A", barAt "2024-06-03")], [("A", barAt "2024-06-04"), ("B", barAt "2024-06-03")]]

def pagedParams : List (String × String) :=
  barParams ["A", "B"] "1Day" "2024-06-03" "2024-06-04" "all" "iex"

def firstUrl : String := "https://data.alpaca.markets/v2/stocks/bars?" ++ urlencode pagedParams

/-- A server that answers every other request by the second page. -/
def pagedClient : AlpacaDataClient ℕ where
  interpreter := cpython
  keyId := "k"
  secretKey := "s"
  get url _ requests :=
    (.ok (200, if url = firstUrl then payload ["A", "B"] (twoPages[0]?.getD []) (some "t")
      else payload ["A", "B"] (twoPages[1]?.getD []) none), requests + 1)
  keys := by decide

def dailyRow (symbol : String) (bar : Json) : Json :=
  (pagedClient.dailyRecord symbol bar).toOption.getD .null

theorem paging_invisible_two_pages : ∃ s', ∀ fuel, 2 ≤ fuel →
    pagedClient.iterBars pagedClient.dailyRecord pagedParams fuel 0 =
      some (.ok (twoNames.flatMap fun p ↦ p.2.map (dailyRow p.1)), s') := by
  have hfirst : pagedClient.url pagedParams none = .ok firstUrl := by decide +kernel
  have hsecond : ∃ url, pagedClient.url pagedParams (some (.str "t")) = .ok url ∧
      url ≠ firstUrl := ⟨firstUrl ++ "&page_token=t", by decide +kernel, by decide +kernel⟩
  refine paging_invisible pagedClient (by decide) ?_ twoPages (by decide) rfl (fun _ ↦ "t")
    (fun _ ↦ by decide) ?_ 0
  · intro p hp bar hbar
    simp only [twoNames, List.mem_cons, List.not_mem_nil, or_false] at hp
    rcases hp with rfl | rfl <;> simp only [List.mem_cons, List.not_mem_nil, or_false] at hbar
    · rcases hbar with rfl | rfl <;> rfl
    · rw [hbar]
      rfl
  · intro k hk s
    have hk : k = 0 ∨ k = 1 := by
      have : k < 2 := hk
      omega
    rcases hk with rfl | rfl
    · refine ⟨firstUrl, s + 1, hfirst, ?_⟩
      exact congrArg (fun v ↦ (Except.ok (200, v), s + 1)) (if_pos rfl)
    · obtain ⟨url, hurl, hne⟩ := hsecond
      refine ⟨url, s + 1, hurl, ?_⟩
      exact congrArg (fun v ↦ (Except.ok (200, v), s + 1)) (if_neg hne)

end AlpacaDataClient

end MarketTrader.Collectors
