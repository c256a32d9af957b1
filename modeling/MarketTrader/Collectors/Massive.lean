import MarketTrader.Collectors.Payload
import MarketTrader.Library.Attempts

namespace MarketTrader.Collectors

open Library MarketTrader.Core Reasoning

variable {σ : Type}

/-- A status and the payload that is read from the body. -/
abbrev MassiveAnswer := Except FetchError (ℤ × Json)

abbrev MassiveTransport (σ : Type) :=
  String → List (String × String) → Attempt σ FetchError (ℤ × Json)

def groupedDailyPath (day : String) : String :=
  "/v2/aggs/grouped/locale/us/market/stocks/" ++ day

/-- The client, with the interpreter that it runs on and the models that it fills. -/
structure MassiveClient (σ : Type) where
  interpreter : Interpreter
  models : Pydantic
  key : String
  base : String := "https://api.massive.com"
  grouped : String → String := groupedDailyPath
  get : MassiveTransport σ
  budget : ℚ := 600

/-- The days are counted from a Thursday. -/
def weekday (day : ℤ) : ℤ := (day + 3) % 7

/-- The last date there is, which no day is added to. -/
def lastDay : ℤ := Date.toOrdinal ⟨9999, 12, 31⟩

def daysBetween (start stop : CalendarDate) : List ℤ :=
  (List.range (stop.1.toOrdinal + 1 - start.1.toOrdinal).toNat).map (start.1.toOrdinal + ·)

namespace MassiveClient

variable (c : MassiveClient σ)

def request (day : ℤ) : Attempt σ FetchError (ℤ × Json) :=
  c.get (c.base ++ c.grouped (Date.ofOrdinal day).isoformat) [("x-api-key", c.key)]

/-- Results that are no list hold no record. -/
def listed : Option Json → List Json
  | some (.arr rows) => rows
  | _ => []

def results (day : ℤ) : MassiveAnswer → Except FetchError (List Json)
  | .error e => .error e
  | .ok (status, payload) =>
    if status ≠ 200 then
      .error (.massive ("grouped-daily " ++ (Date.ofOrdinal day).isoformat ++ " -> HTTP " ++
        toString status))
    else
      (getMember payload "results").map listed

def groupedDaily (day : ℤ) : Attempt σ FetchError (List Json) := fun s ↦
  (results day (c.request day s).1, (c.request day s).2)

def optionalField (r : Json) (name : String) : Except FetchError (Option Double) := do
  validated (c.models.number ((← getMember r name).getD .null))

def pricedBar (day : ℤ) (ticker : String) (r close : Json) : Except FetchError PriceBar := do
  let price ← raisePython (c.interpreter.float close)
  let first ← c.optionalField r "o"
  let high ← c.optionalField r "h"
  let low ← c.optionalField r "l"
  let volume ← c.optionalField r "v"
  return { date := Date.ofOrdinal day, symbol := ticker, close := price
           «open» := first, high := high, low := low, volume := volume }

/-- The bar of a record, if its ticker is wanted and it has a close. -/
def bar (wanted : List String) (day : ℤ) (r : Json) : Except FetchError (Option PriceBar) := do
  let name ← getMember r "T"
  let ticker ← raisePython (c.interpreter.str (name.getD (.str "")))
  if upper ticker ∉ wanted then return none
  else
    match ← getMember r "c" with
    | none | some .null => return none
    | some close => return some (← c.pricedBar day (upper ticker) r close)

/-- The loop over the records of a day: how it ends, and what the bars are by then. -/
def appendBars (wanted : List String) (day : ℤ) :
    List Json → List PriceBar → Except FetchError Unit × List PriceBar
  | [], out => (.ok (), out)
  | r :: rows, out =>
    match c.bar wanted day r with
    | .error e => (.error e, out)
    | .ok b => appendBars wanted day rows (out ++ b.toList)

def collectDay (wanted : List String) (day : ℤ) (out : List PriceBar) (s : σ) :
    (Except FetchError Unit × List PriceBar) × σ :=
  match c.groupedDaily day s with
  | (.error e, s) => ((.error e, out), s)
  | (.ok rows, s) => (c.appendBars wanted day rows out, s)

/-- A day that fails with the client's own exception keeps what it has appended. -/
def tryDay (wanted : List String) (day : ℤ) (out : List PriceBar) :
    Attempt σ FetchError (List PriceBar) := fun s ↦
  match c.collectDay wanted day out s with
  | ((.ok (), out), s) => (.ok out, s)
  | ((.error e, out), s) => (if e.isMassive then .ok out else .error e, s)

/-- The loop over the days, from the `i`-th on. Each iteration first reads the clock, and last adds
a day to the date. -/
def collectDays (elapsed : ℕ → ℚ) (wanted : List String) :
    ℕ → List ℤ → List PriceBar → σ → Except FetchError (List PriceBar) × σ
  | _, [], out, s => (.ok out, s)
  | i, day :: days, out, s =>
    if c.budget < elapsed i then (.ok out, s)
    else
      match if weekday day < 5 then c.tryDay wanted day out s else (.ok out, s) with
      | (.error e, s) => (.error e, s)
      | (.ok out, s) =>
        if day = lastDay then (.error (.python .overflow), s)
        else collectDays elapsed wanted (i + 1) days out s

def fetchDailyBars (elapsed : ℕ → ℚ) (symbols : List String) (start stop : CalendarDate) :
    Attempt σ FetchError (List PriceBar) :=
  c.collectDays elapsed (symbols.map upper) 0 (daysBetween start stop) []

/-! ### A day by itself -/

/-- What a day yields to a caller that asks for it alone. -/
def dayBars (wanted : List String) (day : ℤ) : Attempt σ FetchError (List PriceBar) := fun s ↦
  match c.collectDay wanted day [] s with
  | ((.ok (), out), s) => (.ok out, s)
  | ((.error e, _), s) => (.error e, s)

/-- A weekend has no session to fetch. -/
def session (wanted : List String) (day : ℤ) : Option (Attempt σ FetchError (List PriceBar)) :=
  if weekday day < 5 then some (c.dayBars wanted day) else none

/-- What the transport answers to the requests of the sessions, if each of them is made. -/
def answers : List ℤ → σ → List MassiveAnswer
  | [], _ => []
  | day :: days, s =>
    if weekday day < 5 then (c.request day s).1 :: answers days (c.request day s).2
    else answers days s

/-! ### Answers that a day survives -/

/-- A record with a ticker, whose prices are numbers if the ticker is wanted and there is a
close. -/
def Readable (wanted : List String) (r : Json) : Prop :=
  ∃ members ticker, r = .obj members ∧
    c.interpreter.str ((Json.member? members "T").getD (.str "")) = .ok ticker ∧
      (upper ticker ∈ wanted → ∀ close, Json.member? members "c" = some close → close ≠ .null →
        (∃ x, c.interpreter.float close = .ok x) ∧
          ∀ name ∈ ["o", "h", "l", "v"],
            (c.models.number ((Json.member? members name).getD .null)).isSome)

/-- The exception is the client's own, or the status is another one than 200, or the payload is an
object with readable results. -/
def Harmless (wanted : List String) : MassiveAnswer → Prop
  | .error e => e.isMassive
  | .ok (status, payload) =>
    status ≠ 200 ∨ ∃ members, payload = .obj members ∧
      ∀ r ∈ listed (Json.member? members "results"), c.Readable wanted r

variable {c} {wanted : List String} {day : ℤ} {days : List ℤ} {out : List PriceBar}

/-- No step of a computation raises the client's own exception. -/
def Foreign {α : Type} (x : Except FetchError α) : Prop := ∀ e, x = .error e → e.isMassive = false

theorem Foreign.ok {α : Type} (a : α) : Foreign (.ok a : Except FetchError α) := by
  intro e he
  cases he

theorem Foreign.bind {α β : Type} {x : Except FetchError α} {f : α → Except FetchError β}
    (hx : Foreign x) (hf : ∀ a, Foreign (f a)) : Foreign (x >>= f) := by
  cases x with
  | error e =>
    intro e' he
    cases he
    exact hx e rfl
  | ok a => exact hf a

/-- Such a computation that raises nothing but the client's own exception raises nothing. -/
theorem Foreign.map_iff {α : Type} {x : Except FetchError Unit} (hx : Foreign x) (f : Unit → α) :
    (∀ e, x.map f = .error e → e.isMassive = true) ↔ x = .ok () := by
  cases x with
  | error e =>
    constructor
    · intro h
      exact absurd (h e rfl) (by rw [hx e rfl]; decide)
    · exact nofun
  | ok a => exact ⟨fun _ ↦ rfl, fun _ e he ↦ nomatch he⟩

theorem foreign_getMember (v : Json) (name : String) : Foreign (getMember v name) := by
  intro e he
  cases v with
  | obj members => cases he
  | null | bool _ | const _ | num _ | str _ | arr _ =>
    cases he
    rfl

theorem foreign_raisePython {α : Type} (x : Except PyError α) : Foreign (raisePython x) := by
  intro e he
  cases x with
  | ok a => cases he
  | error e' =>
    cases he
    rfl

theorem foreign_validated {α : Type} (x : Option α) : Foreign (validated x) := by
  intro e he
  cases x with
  | some a => cases he
  | none =>
    cases he
    rfl

theorem foreign_pricedBar (ticker : String) (r close : Json) :
    Foreign (c.pricedBar day ticker r close) := by
  have hfield (name : String) : Foreign (c.optionalField r name) :=
    (foreign_getMember r name).bind fun _ ↦ foreign_validated _
  exact (foreign_raisePython _).bind fun _ ↦ (hfield "o").bind fun _ ↦ (hfield "h").bind fun _ ↦
    (hfield "l").bind fun _ ↦ (hfield "v").bind fun _ ↦ .ok _

theorem foreign_bar (r : Json) : Foreign (c.bar wanted day r) := by
  refine (foreign_getMember r "T").bind fun name ↦ (foreign_raisePython _).bind fun ticker ↦ ?_
  split
  · exact .ok none
  · refine (foreign_getMember r "c").bind fun close ↦ ?_
    split
    · exact .ok none
    · exact .ok none
    · exact (foreign_pricedBar _ r _).bind fun _ ↦ .ok _

theorem exists_bind_ok {α β : Type} {x : Except FetchError α} {f : α → Except FetchError β} :
    (∃ b, (x >>= f) = .ok b) ↔ ∃ a, x = .ok a ∧ ∃ b, f a = .ok b := by
  cases x with
  | error e =>
    constructor
    · rintro ⟨b, hb⟩
      cases hb
    · rintro ⟨a, ha, -⟩
      cases ha
  | ok a =>
    constructor
    · exact fun hb ↦ ⟨a, rfl, hb⟩
    · rintro ⟨a', ha, hb⟩
      cases ha
      exact hb

theorem raisePython_eq_ok {α : Type} {x : Except PyError α} {a : α} :
    raisePython x = .ok a ↔ x = .ok a := by
  cases x with
  | error e => constructor <;> exact nofun
  | ok b => simp [raisePython]

theorem validated_eq_ok {α : Type} {x : Option α} {a : α} : validated x = .ok a ↔ x = some a := by
  cases x with
  | none => constructor <;> exact nofun
  | some b => simp [validated]

theorem getMember_obj (members : List (String × Json)) (name : String) :
    getMember (.obj members) name = .ok (Json.member? members name) := rfl

theorem optionalField_ok_iff {members : List (String × Json)} {name : String} :
    (∃ x, c.optionalField (.obj members) name = .ok x) ↔
      (c.models.number ((Json.member? members name).getD .null)).isSome := by
  simp only [optionalField, exists_bind_ok, getMember_obj, Except.ok.injEq, exists_eq_left',
    validated_eq_ok, Option.isSome_iff_exists]

theorem pricedBar_ok_iff {ticker : String} {members : List (String × Json)} {close : Json} :
    (∃ b, c.pricedBar day ticker (.obj members) close = .ok b) ↔
      (∃ x, c.interpreter.float close = .ok x) ∧ ∀ name ∈ ["o", "h", "l", "v"],
        (c.models.number ((Json.member? members name).getD .null)).isSome := by
  simp only [pricedBar, exists_bind_ok, raisePython_eq_ok, List.forall_mem_cons,
    ← optionalField_ok_iff]
  constructor
  · rintro ⟨x, hx, o, ho, h, hh, l, hl, v, hv, -⟩
    exact ⟨⟨x, hx⟩, ⟨o, ho⟩, ⟨h, hh⟩, ⟨l, hl⟩, ⟨v, hv⟩, fun name hn ↦ nomatch hn⟩
  · rintro ⟨⟨x, hx⟩, ⟨o, ho⟩, ⟨h, hh⟩, ⟨l, hl⟩, ⟨v, hv⟩, -⟩
    exact ⟨x, hx, o, ho, h, hh, l, hl, v, hv, _, rfl⟩

/-- A bar is built just from a readable record. -/
theorem bar_ok_iff {r : Json} : (∃ b, c.bar wanted day r = .ok b) ↔ c.Readable wanted r := by
  unfold bar Readable
  cases r with
  | obj members =>
    simp only [exists_bind_ok, raisePython_eq_ok, getMember_obj, Except.ok.injEq, exists_eq_left']
    constructor
    · rintro ⟨ticker, hticker, hrest⟩
      refine ⟨members, ticker, rfl, hticker, fun hw close hclose hne ↦ ?_⟩
      rw [if_neg (not_not.mpr hw), exists_bind_ok] at hrest
      obtain ⟨found, hfound, hrest⟩ := hrest
      obtain rfl : found = some close := (Except.ok.inj hfound).symm.trans hclose
      split at hrest
      · contradiction
      · next hnull => exact absurd (Option.some.inj hnull) hne
      · next close' hsome =>
        cases hsome
        rw [exists_bind_ok] at hrest
        obtain ⟨b, hb, -⟩ := hrest
        exact pricedBar_ok_iff.mp ⟨b, hb⟩
    · rintro ⟨members', ticker, hm, hticker, hread⟩
      cases hm
      refine ⟨ticker, hticker, ?_⟩
      by_cases hw : upper ticker ∈ wanted
      · rw [if_neg (not_not.mpr hw), exists_bind_ok]
        refine ⟨_, rfl, ?_⟩
        split
        · exact ⟨none, rfl⟩
        · exact ⟨none, rfl⟩
        · next close hnull hclose =>
          rw [exists_bind_ok]
          obtain ⟨b, hb⟩ := pricedBar_ok_iff.mpr (hread hw close hclose hnull)
          exact ⟨b, hb, some b, rfl⟩
      · exact ⟨none, if_pos hw⟩
  | null | bool _ | const _ | num _ | str _ | arr _ =>
    constructor
    · rintro ⟨b, hb⟩
      cases hb
    · rintro ⟨members, ticker, hr, -⟩
      cases hr

/-! ### What a day does to the bars before it -/

/-- The loop appends to what it is given. -/
theorem appendBars_eq (rows : List Json) (out : List PriceBar) :
    c.appendBars wanted day rows out = ((c.appendBars wanted day rows []).1,
      out ++ (c.appendBars wanted day rows []).2) := by
  induction rows generalizing out with
  | nil => simp [appendBars]
  | cons r rows ih =>
    rw [appendBars, appendBars]
    cases c.bar wanted day r with
    | error e => simp
    | ok b =>
      dsimp only
      rw [ih (out ++ b.toList), ih ([] ++ b.toList), List.nil_append, List.append_assoc]

theorem foreign_appendBars (rows : List Json) (out : List PriceBar) :
    Foreign (c.appendBars wanted day rows out).1 := by
  induction rows generalizing out with
  | nil => exact .ok ()
  | cons r rows ih =>
    rw [appendBars]
    have hr : Foreign (c.bar wanted day r) := foreign_bar r
    cases hb : c.bar wanted day r with
    | error e =>
      intro e' he
      cases he
      exact hr e hb
    | ok b => exact ih (out ++ b.toList)

theorem appendBars_ok_iff (rows : List Json) (out : List PriceBar) :
    (c.appendBars wanted day rows out).1 = .ok () ↔ ∀ r ∈ rows, c.Readable wanted r := by
  induction rows generalizing out with
  | nil => simp [appendBars]
  | cons r rows ih =>
    have hr : (∃ b, c.bar wanted day r = .ok b) ↔ c.Readable wanted r := bar_ok_iff
    rw [appendBars, List.forall_mem_cons, ← hr]
    cases hb : c.bar wanted day r with
    | error e =>
      constructor
      · exact nofun
      · rintro ⟨⟨b, hb'⟩, -⟩
        cases hb'
    | ok b =>
      dsimp only
      rw [ih]
      exact ⟨fun h ↦ ⟨⟨b, rfl⟩, h⟩, fun h ↦ h.2⟩

/-- Only a day that succeeds leaves bars: the client's own exception comes before the first one. -/
theorem tryDay_eq (s : σ) : c.tryDay wanted day out s =
    match c.dayBars wanted day s with
    | (.ok l, s) => (.ok (out ++ l), s)
    | (.error e, s) => (if e.isMassive then .ok out else .error e, s) := by
  unfold tryDay dayBars collectDay
  rcases c.groupedDaily day s with ⟨_ | rows, s₁⟩
  · rfl
  · dsimp only
    have hforeign : Foreign (c.appendBars wanted day rows []).1 := foreign_appendBars rows []
    rw [appendBars_eq rows out]
    rcases ha : c.appendBars wanted day rows [] with ⟨_ | _, l⟩
    · next e =>
      dsimp only
      rw [hforeign e (by rw [ha])]
      rfl
    · rfl

theorem dayBars_eq (s : σ) : c.dayBars wanted day s =
    ((results day (c.request day s).1).bind fun rows ↦
      (c.appendBars wanted day rows []).1.map fun _ ↦ (c.appendBars wanted day rows []).2,
    (c.request day s).2) := by
  unfold dayBars collectDay groupedDaily
  cases results day (c.request day s).1 with
  | error e => rfl
  | ok rows =>
    dsimp only [Except.bind]
    rcases c.appendBars wanted day rows [] with ⟨_ | _, l⟩
    · rfl
    · rfl

/-- A day meets no exception but the client's own just if the answer is harmless. -/
theorem dayBars_iff (s : σ) : (∀ e, (c.dayBars wanted day s).1 = .error e → e.isMassive = true) ↔
    c.Harmless wanted (c.request day s).1 := by
  rw [dayBars_eq]
  cases (c.request day s).1 with
  | error e => simp [results, Harmless, Except.bind]
  | ok answer =>
    obtain ⟨status, payload⟩ := answer
    by_cases hs : status = 200
    · subst hs
      rw [results, if_neg (by decide), Harmless]
      cases payload with
      | obj members =>
        rw [getMember_obj]
        refine ((foreign_appendBars _ []).map_iff _).trans ?_
        rw [appendBars_ok_iff]
        constructor
        · exact fun h ↦ .inr ⟨members, rfl, h⟩
        · rintro (h | ⟨members', hm, h⟩)
          · exact absurd rfl h
          · cases hm
            exact h
      | null | bool _ | const _ | num _ | str _ | arr _ =>
        constructor
        · exact fun h ↦ absurd (h _ rfl) (by decide)
        · rintro (h | ⟨members, hm, -⟩)
          · exact absurd rfl h
          · cases hm
    · simp only [results, Harmless, ne_eq, hs, not_false_eq_true, if_true, true_or, iff_true]
      intro e he
      cases he
      rfl

/-! ### The sweep -/

variable {elapsed : ℕ → ℚ} {i : ℕ}

theorem harmless_answers_iff (days : List ℤ) (s : σ) :
    (∀ e, .error e ∈ outcomes (c.session wanted) days s → e.isMassive = true) ↔
      ∀ a ∈ c.answers days s, c.Harmless wanted a := by
  induction days generalizing s with
  | nil => simp [outcomes, answers]
  | cons day days ih =>
    by_cases hd : weekday day < 5
    · have hf : c.session wanted day = some (c.dayBars wanted day) := if_pos hd
      have hnext : (c.dayBars wanted day s).2 = (c.request day s).2 := by rw [dayBars_eq]
      rw [answers, if_pos hd, outcomes_some hf, List.forall_mem_cons, ← dayBars_iff, ← ih, hnext]
      simp only [List.mem_cons]
      constructor
      · exact fun h ↦ ⟨fun e he ↦ h e (.inl he.symm), fun e he ↦ h e (.inr he)⟩
      · rintro ⟨hday, hdays⟩ e (he | he)
        · exact hday e he.symm
        · exact hdays e he
    · have hf : c.session wanted day = none := if_neg hd
      rw [answers, if_neg hd, outcomes_none hf, ih]

theorem collectDays_eq (h : lastDay ∉ days) (out : List PriceBar) (s : σ) :
    c.collectDays elapsed wanted i days out s = bestEffort (fun i ↦ c.budget < elapsed i)
      FetchError.isMassive (c.session wanted) i days out s := by
  induction days generalizing i out s with
  | nil => rfl
  | cons day days ih =>
    rw [List.mem_cons, not_or] at h
    obtain ⟨hne, h⟩ := h
    rw [collectDays, bestEffort]
    by_cases hb : c.budget < elapsed i
    · rw [if_pos hb, if_pos (decide_eq_true hb)]
    have hb' : ¬decide (c.budget < elapsed i) = true := by simpa using hb
    rw [if_neg hb, if_neg hb']
    by_cases hd : weekday day < 5
    · rw [if_pos hd, tryDay_eq, session, if_pos hd]
      dsimp only
      rcases c.dayBars wanted day s with ⟨e | l, s₁⟩
      · dsimp only
        cases e.isMassive with
        | true =>
          rw [if_pos rfl, if_pos rfl]
          dsimp only
          rw [if_neg (Ne.symm hne), ih h]
        | false =>
          rw [if_neg Bool.false_ne_true, if_neg Bool.false_ne_true]
      · dsimp only
        rw [if_neg (Ne.symm hne), ih h]
    · rw [if_neg hd, session, if_neg hd]
      dsimp only
      rw [if_neg (Ne.symm hne), ih h]

/-- No day comes after the last one. -/
theorem collectDays_lastDay (h : lastDay ∈ days)
    (hb : ∀ j, i ≤ j → j < i + days.length → elapsed j ≤ c.budget) (out full : List PriceBar)
    (s : σ) : (c.collectDays elapsed wanted i days out s).1 ≠ .ok full := by
  induction days generalizing i out s with
  | nil => cases h
  | cons day days ih =>
    have hi : ¬c.budget < elapsed i := not_lt.mpr (hb i le_rfl (by simp))
    rw [collectDays, if_neg hi]
    rcases if weekday day < 5 then c.tryDay wanted day out s else (.ok out, s) with ⟨e | l, s₁⟩
    · exact nofun
    · dsimp only
      split
      · exact nofun
      · next hne =>
        have hl : lastDay ∈ days := (List.mem_cons.mp h).resolve_left (Ne.symm hne)
        exact ih hl (fun j hj hlt ↦ hb j (by omega) (by rw [List.length_cons]; omega)) l s₁

/-- Within the budget, the sweep returns what the sessions yield just if each answer is harmless and
the last date is not among the days. -/
theorem fetchDailyBars_iff {symbols : List String} {start stop : CalendarDate}
    (hb : ∀ i < (daysBetween start stop).length, elapsed i ≤ c.budget) (s : σ) :
    (c.fetchDailyBars elapsed symbols start stop s).1 =
        .ok (succeeded (outcomes (c.session (symbols.map upper)) (daysBetween start stop) s)) ↔
      (∀ a ∈ c.answers (daysBetween start stop) s, c.Harmless (symbols.map upper) a) ∧
        lastDay ∉ daysBetween start stop := by
  by_cases hl : lastDay ∈ daysBetween start stop
  · have hne (full : List PriceBar) :
        (c.fetchDailyBars elapsed symbols start stop s).1 ≠ .ok full :=
      collectDays_lastDay hl (fun j _ hj ↦ hb j (by omega)) [] full s
    exact ⟨fun h ↦ absurd h (hne _), fun h ↦ absurd hl h.2⟩
  · rw [fetchDailyBars, collectDays_eq hl, ← harmless_answers_iff, and_iff_left hl]
    exact bestEffort_iff (fun j _ hj ↦ by
      simpa using hb j (by omega)) [] s

end MassiveClient
end MarketTrader.Collectors
