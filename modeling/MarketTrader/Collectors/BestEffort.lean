import MarketTrader.Collectors.EdgarSession
import MarketTrader.Collectors.Gdelt
import MarketTrader.Collectors.Massive
import MarketTrader.Collectors.Stooq

namespace MarketTrader.Collectors

open Library MarketTrader.Core Reasoning

variable {σ α : Type}

/-- The clock, as it is read before each unit, stays within the budget. -/
def WithinBudget (budget : ℚ) (elapsed : ℕ → ℚ) (units : ℕ) : Prop :=
  ∀ i < units, elapsed i ≤ budget

/-- Nothing is raised, and what is returned is what the units yield whose own fetch succeeds. -/
def LosesOnlyFailures {ι : Type} (result : Except FetchError (List α))
    (fetch : ι → Option (Attempt σ FetchError (List α))) (units : List ι) (s : σ) : Prop :=
  result = .ok (succeeded (outcomes fetch units s))

/-- A sweep that catches every exception, as long as its budget lasts. -/
theorem losesOnlyFailures_of_catching {ι : Type} {budget : ℚ} {elapsed : ℕ → ℚ} {units : List ι}
    (h : WithinBudget budget elapsed units.length)
    (fetch : ι → Option (Attempt σ FetchError (List α))) (s : σ) :
    LosesOnlyFailures
      (bestEffort (fun i ↦ budget < elapsed i) (fun _ ↦ true) fetch 0 units [] s).1 fetch units s :=
  bestEffort_catching (fun _ ↦ rfl) (fun i hi ↦ by simpa using h i hi) s

theorem EdgarSession.fetchForSymbols_iff (c : EdgarSession σ) {elapsed : ℕ → ℚ}
    {today : CalendarDate} {symbols : List String} {lookbackDays : ℤ}
    (h : WithinBudget c.budget elapsed symbols.length) (s : σ) :
    LosesOnlyFailures (c.fetchForSymbols elapsed today symbols lookbackDays s).1
        (c.filer (c.cikMap s).1 (today.1.toOrdinal - lookbackDays)) symbols (c.cikMap s).2 ↔
      Dated (today.1.toOrdinal - lookbackDays) := by
  rw [fetchForSymbols]
  rcases c.cikMap s with ⟨ciks, s₁⟩
  dsimp only
  constructor
  · intro hl
    by_contra hd
    rw [LosesOnlyFailures, if_neg hd] at hl
    cases hl
  · intro hd
    rw [if_pos hd]
    exact losesOnlyFailures_of_catching h _ _

/-- The sweeps that catch every exception lose only what failed, one of them as long as its lookback
starts on a date. The sweep over the days does just if each failure is of the client's own class,
each answer can be read, and no day is the last one there is. -/
theorem loses_only_failures_iff (massive : MassiveClient σ) (stooq : StooqClient σ)
    (gdelt : GdeltClient σ) (edgar : EdgarSession σ) (elapsed : ℕ → ℚ) (symbols : List String)
    (start stop today : CalendarDate) (timespan : String) (lookbackDays : ℤ) (s : σ) :
    (WithinBudget massive.budget elapsed (daysBetween start stop).length →
      (LosesOnlyFailures (massive.fetchDailyBars elapsed symbols start stop s).1
          (massive.session (symbols.map upper)) (daysBetween start stop) s ↔
        (∀ a ∈ massive.answers (daysBetween start stop) s,
          massive.Harmless (symbols.map upper) a) ∧ lastDay ∉ daysBetween start stop)) ∧
    (WithinBudget stooq.budget elapsed symbols.length →
      LosesOnlyFailures (stooq.fetchDailyBars elapsed symbols start stop s).1
        (fun symbol ↦ some (stooq.fetchSymbol start stop symbol)) symbols s) ∧
    (WithinBudget gdelt.budget elapsed symbols.length →
      LosesOnlyFailures (gdelt.fetchForSymbols elapsed symbols timespan s).1
        (fun symbol ↦ some (gdelt.fetchArticles symbol (some symbol) timespan)) symbols s) ∧
    (WithinBudget edgar.budget elapsed symbols.length →
      (LosesOnlyFailures (edgar.fetchForSymbols elapsed today symbols lookbackDays s).1
          (edgar.filer (edgar.cikMap s).1 (today.1.toOrdinal - lookbackDays)) symbols
          (edgar.cikMap s).2 ↔
        EdgarSession.Dated (today.1.toOrdinal - lookbackDays))) :=
  ⟨fun h ↦ massive.fetchDailyBars_iff h s, fun h ↦ losesOnlyFailures_of_catching h _ s,
    fun h ↦ losesOnlyFailures_of_catching h _ s, fun h ↦ edgar.fetchForSymbols_iff h s⟩

/-! ### Two days, of which one fails -/

def june (day : ℤ) (h : Date.Valid ⟨2024, 6, day⟩ := by decide +kernel) : CalendarDate :=
  ⟨⟨2024, 6, day⟩, h⟩

def mondayRecord : Json := .obj [("T", .str "a"), ("c", .bool true)]

/-- A transport that raises an exception on the third of June, and has a bar on other days. -/
def mondayClient (σ : Type) (e : FetchError) : MassiveClient σ where
  interpreter := cpython
  models := pydanticPlain
  key := "k"
  get url _ s :=
    (if url = "https://api.massive.com/v2/aggs/grouped/locale/us/market/stocks/2024-06-03" then
      .error e
    else .ok (200, .obj [("results", .arr [mondayRecord])]), s)

def tuesdayBar : PriceBar :=
  { date := ⟨2024, 6, 4⟩, symbol := "A", close := .fin 1, «open» := none, high := none
    low := none, volume := none }

theorem mondayRecord_readable (e : FetchError) (wanted : List String) :
    (mondayClient σ e).Readable wanted mondayRecord := by
  refine ⟨_, "a", rfl, rfl, fun _ close hclose _ ↦ ?_⟩
  cases hclose
  refine ⟨⟨.fin 1, rfl⟩, ?_⟩
  change ∀ name ∈ ["o", "h", "l", "v"], (pydanticPlain.number
    ((Json.member? [("T", .str "a"), ("c", .bool true)] name).getD .null)).isSome
  decide +kernel

/-- The sweeps over a failed status, a raising request and a payload that is no object each lose
only that unit. -/
theorem loses_only_failures_two :
    let stooq : StooqClient ℕ :=
      { interpreter := cpython
        get := fun url s ↦
          (if url = csvUrl "a" (june 3) (june 4) then .error (.other "URLError")
          else .ok "Date,Close\n2024-06-04,1\n", s) }
    let gdelt : GdeltClient ℕ :=
      { interpreter := cpython, models := pydanticPlain, today := ⟨2024, 6, 5⟩
        get := fun _ s ↦ (.ok (if s = 0 then .arr [] else
          .obj [("articles", .arr [.obj [("seendate", .str "20240604T090000Z")]])]), s + 1) }
    let edgar : EdgarSession ℕ :=
      { interpreter := cpython, fromstring := fun _ ↦ none, get := fun _ s ↦ (.ok "[]", s) }
    ((mondayClient ℕ (.massive "HTTP 429")).fetchDailyBars (fun _ ↦ 0) ["a", "b"] (june 3) (june 4)
      0).1 = .ok [tuesdayBar] ∧
    (stooq.fetchDailyBars (fun _ ↦ 0) ["a", "b"] (june 3) (june 4) 0).1 =
      .ok [{ tuesdayBar with symbol := "b" }] ∧
    (gdelt.fetchForSymbols (fun _ ↦ 0) ["a", "b"] "3d" 0).1 =
      .ok [⟨⟨2024, 6, 4⟩, "", none, none, none, some "b"⟩] ∧
    (edgar.fetchForSymbols (fun _ ↦ 0) (june 5) ["a", "b"] 400 0).1 = .ok [] := by
  intro stooq gdelt edgar
  have hbudget (b : ℚ) (hb : 0 ≤ b) (n : ℕ) : WithinBudget b (fun _ ↦ 0) n := fun _ _ ↦ hb
  let massive := mondayClient ℕ (.massive "HTTP 429")
  have hanswers : ∀ a ∈ massive.answers (daysBetween (june 3) (june 4)) 0,
      massive.Harmless ["A", "B"] a := by
    have he : massive.answers (daysBetween (june 3) (june 4)) 0 =
      [.error (.massive "HTTP 429"), .ok (200, .obj [("results", .arr [mondayRecord])])] := rfl
    rw [he]
    intro a ha
    obtain rfl | ha := List.mem_cons.mp ha
    · rfl
    · obtain rfl := List.mem_singleton.mp ha
      refine .inr ⟨_, rfl, fun r hr ↦ ?_⟩
      obtain rfl := List.mem_singleton.mp hr
      exact mondayRecord_readable _ _
  have hlast : lastDay ∉ daysBetween (june 3) (june 4) := by decide +kernel
  obtain ⟨hm, hs, hg, hd⟩ := loses_only_failures_iff massive stooq gdelt edgar (fun _ ↦ 0)
    ["a", "b"] (june 3) (june 4) (june 5) "3d" 400 0
  refine ⟨?_, ?_, ?_, ?_⟩
  · exact (hm (hbudget _ (by decide +kernel) _)).mpr ⟨hanswers, hlast⟩
  · refine (hs (hbudget _ (by decide +kernel) _)).trans ?_
    decide +kernel
  · refine (hg (hbudget _ (by decide +kernel) _)).trans ?_
    decide +kernel
  · exact (hd (hbudget _ (by decide +kernel) _)).mpr (by decide +kernel)

/-- A request that raises another exception takes the bars of the next day with it. -/
theorem raising_day_loses_all :
    ¬∀ (c : MassiveClient Unit) (elapsed : ℕ → ℚ) (symbols : List String)
      (start stop : CalendarDate), WithinBudget c.budget elapsed (daysBetween start stop).length →
      LosesOnlyFailures (c.fetchDailyBars elapsed symbols start stop ()).1
        (c.session (symbols.map upper)) (daysBetween start stop) () := by
  intro h
  have hall := h (mondayClient Unit (.other "HTTPError")) (fun _ ↦ 0) ["a"] (june 3) (june 4)
    fun _ _ ↦ (by decide +kernel : (0 : ℚ) ≤ 600)
  have hraise : ((mondayClient Unit (.other "HTTPError")).fetchDailyBars (fun _ ↦ 0) ["a"] (june 3)
      (june 4) ()).1 = .error (.other "HTTPError") := rfl
  rw [LosesOnlyFailures, hraise] at hall
  cases hall

end MarketTrader.Collectors
