import MarketTrader.Core.Time

namespace MarketTrader.Core

namespace Date

/-- Days after 1970-01-01. -/
def toOrdinal (d : Date) : ℤ :=
  let year := d.year - if d.month ≤ 2 then 1 else 0
  let dayOfYear := (153 * ((d.month + 9) % 12) + 2) / 5 + d.day - 1
  year / 400 * 146097 + (year % 400 * 365 + year % 400 / 4 - year % 400 / 100 + dayOfYear) - 719468

theorem toOrdinal_date (era : ℤ) {m : MarchDay} (hy : 0 ≤ m.year ∧ m.year ≤ 399)
    (hd : 0 ≤ m.dayOfYear ∧ m.dayOfYear ≤ 365) : (m.date era).toOrdinal =
      era * 146097 + (m.year * 365 + m.year / 4 - m.year / 100 + m.dayOfYear) - 719468 := by
  have hyear : (m.date era).year - (if (m.date era).month ≤ 2 then 1 else 0) =
      era * 400 + m.year := Int.add_sub_cancel _ _
  have hmonth : ((m.date era).month + 9) % 12 = (5 * m.dayOfYear + 2) / 153 := by
    simp only [MarchDay.date]
    split <;> omega
  have hday : (m.date era).day =
      m.dayOfYear - (153 * ((5 * m.dayOfYear + 2) / 153) + 2) / 5 + 1 := rfl
  have hera : (era * 400 + m.year) / 400 = era := by omega
  have hrest : (era * 400 + m.year) % 400 = m.year := by omega
  simp only [toOrdinal]
  rw [hyear, hmonth, hday, hera, hrest]
  omega

theorem toOrdinal_ofOrdinal (n : ℤ) : toOrdinal (ofOrdinal n) = n := by
  have hn : 0 ≤ (n + 719468) % 146097 ∧ (n + 719468) % 146097 < 146097 := by omega
  obtain ⟨c, q, y, hc, hq, hyc, h₁, h₂, hd⟩ := MarchDay.ofDayOfEra_spec hn.1 hn.2
  have h₄ : (c * 100 + q * 4 + y) / 4 = c * 25 + q := by omega
  have h₁₀₀ : (c * 100 + q * 4 + y) / 100 = c := by omega
  rw [ofOrdinal, toOrdinal_date _ (MarchDay.ofDayOfEra_year hn) hd, h₁, h₄, h₁₀₀]
  omega

/-- The calendar has the date, in a year that a `date` can have. -/
def Valid (d : Date) : Prop := (1 ≤ d.year ∧ d.year ≤ 9999) ∧ ofOrdinal d.toOrdinal = d

instance (d : Date) : Decidable d.Valid := by
  unfold Valid
  infer_instance

theorem Valid.eq {d d' : Date} (h : d.Valid) (h' : d'.Valid) (he : d.toOrdinal = d'.toOrdinal) :
    d = d' := by rw [← h.2, ← h'.2, he]

end Date

abbrev CalendarDate := { d : Date // d.Valid }

/-- The end of a day, at which what happened in it is known. -/
def dayClose (d : Date) (hour : ℤ := 21) (minute : ℤ := 0) : Datetime :=
  d.toOrdinal * 86400000000 + hour * 3600000000 + minute * 60000000

theorem dayClose_inj {d d' : CalendarDate} (h : dayClose d.1 = dayClose d'.1) : d = d' := by
  have hz : d.1.toOrdinal * 86400000000 + 21 * 3600000000 + 0 * 60000000 =
      d'.1.toOrdinal * 86400000000 + 21 * 3600000000 + 0 * 60000000 := h
  exact Subtype.ext (d.2.eq d'.2 (by omega))

theorem dayClose_date (t : Datetime) :
    dayClose (Datetime.date t) = t - Datetime.timeOfDay t + 21 * 3600000000 := by
  have hday : ∀ a : ℤ, a / 86400000000 * 86400000000 + 21 * 3600000000 + 0 * 60000000 =
      a - a % 86400000000 + 21 * 3600000000 := fun a ↦ by omega
  rw [dayClose, Datetime.date, Date.toOrdinal_ofOrdinal]
  exact hday t

/-! ### Dates and times from text -/

def number? (cs : List Char) : Option ℤ :=
  if cs ≠ [] ∧ cs.all Char.isDigit then some (Nat.ofDigitChars 10 cs 0) else none

theorem number?_twoDigits {n : ℤ} (h : 0 ≤ n ∧ n < 100) : number? (twoDigits n) = some n := by
  have h₁ : (n / 10 % 10).toNat < 10 := by omega
  have h₂ : (n % 10).toNat < 10 := by omega
  have hv : Nat.ofDigitChars 10 (twoDigits n) 0 = 10 * (n / 10 % 10).toNat + (n % 10).toNat := by
    simp only [twoDigits, digit, Nat.ofDigitChars_cons_digitChar_of_lt_ten h₁,
      Nat.ofDigitChars_cons_digitChar_of_lt_ten h₂, Nat.ofDigitChars_nil, Nat.mul_zero, Nat.zero_add]
  rw [number?, if_pos ⟨by simp [twoDigits], by simp [twoDigits, digit_isDigit]⟩, hv]
  exact congrArg some (by omega)

theorem yearDigits_length {n : ℤ} (h : 1 ≤ n ∧ n ≤ 9999) : (yearDigits n).length = 4 := by
  have hl : (Nat.toDigits 10 n.natAbs).length ≤ 4 :=
    (Nat.length_toDigits_le_iff (by decide) (by decide)).mpr (by omega)
  have hn : ¬n < 0 := by omega
  simp only [yearDigits, hn, if_false, List.nil_append, List.length_append, List.length_replicate]
  omega

theorem yearDigits_isDigit {n : ℤ} (h : 1 ≤ n) : (yearDigits n).all Char.isDigit := by
  have hn : ¬n < 0 := by omega
  rw [List.all_eq_true]
  intro c hc
  simp only [yearDigits, hn, if_false, List.nil_append, List.mem_append] at hc
  rcases hc with hc | hc
  · rw [List.eq_of_mem_replicate hc]
    rfl
  · exact Nat.isDigit_of_mem_toDigits (by decide) (by decide) hc

theorem number?_yearDigits {n : ℤ} (h : 1 ≤ n ∧ n ≤ 9999) : number? (yearDigits n) = some n := by
  have hn : ¬n < 0 := by omega
  have hne : yearDigits n ≠ [] := by
    rw [← List.length_pos_iff, yearDigits_length h]
    decide
  have hv : Nat.ofDigitChars 10 (yearDigits n) 0 = n.natAbs := by
    rw [← yearDigits_value n]
    simp only [yearDigits, hn, if_false, List.nil_append]
  rw [number?, if_pos ⟨hne, yearDigits_isDigit h.1⟩, hv]
  exact congrArg some (by omega)

namespace Date

def ofFields (year month day : ℤ) : Option Date :=
  if Valid ⟨year, month, day⟩ then some ⟨year, month, day⟩ else none

/-- `strptime` of eight digits with the format `%Y%m%d`. -/
def ofCompact (cs : List Char) : Option Date := do
  ofFields (← number? (cs.take 4)) (← number? ((cs.drop 4).take 2)) (← number? (cs.drop 6))

def compactChars (d : Date) : List Char := yearDigits d.year ++ (twoDigits d.month ++ twoDigits d.day)

theorem valid_ofOrdinal {n : ℤ} (h : 1 ≤ (ofOrdinal n).year ∧ (ofOrdinal n).year ≤ 9999) :
    (ofOrdinal n).Valid := ⟨h, by rw [toOrdinal_ofOrdinal]⟩

theorem Valid.bounds {d : Date} (h : d.Valid) :
    (1 ≤ d.month ∧ d.month ≤ 12) ∧ (1 ≤ d.day ∧ d.day ≤ 31) := by
  rw [← h.2]
  exact ofOrdinal_bounds _

theorem Valid.compactChars_length {d : Date} (h : d.Valid) : d.compactChars.length = 8 := by
  rw [compactChars, List.length_append, yearDigits_length h.1]
  rfl

theorem Valid.compactChars_isDigit {d : Date} (h : d.Valid) : d.compactChars.all Char.isDigit := by
  simp [compactChars, yearDigits_isDigit h.1.1, twoDigits, digit_isDigit]

theorem ofCompact_compactChars {d : Date} (h : d.Valid) : ofCompact d.compactChars = some d := by
  obtain ⟨⟨hm₁, hm₂⟩, hd₁, hd₂⟩ := h.bounds
  have hl := yearDigits_length h.1
  have htake : d.compactChars.take 4 = yearDigits d.year := List.take_left' hl
  have hdrop : d.compactChars.drop 4 = twoDigits d.month ++ twoDigits d.day := List.drop_left' hl
  have hday : d.compactChars.drop 6 = twoDigits d.day := by
    rw [show 6 = 4 + 2 from rfl, ← List.drop_drop, hdrop]
    rfl
  have hmonth : (twoDigits d.month ++ twoDigits d.day).take 2 = twoDigits d.month := rfl
  simp only [ofCompact, htake, hdrop, hday, hmonth, number?_yearDigits h.1,
    number?_twoDigits (show 0 ≤ d.month ∧ d.month < 100 by omega),
    number?_twoDigits (show 0 ≤ d.day ∧ d.day < 100 by omega), Option.bind_eq_bind,
    Option.bind_some]
  exact if_pos h

end Date

namespace Datetime

/-- `HH:MM` or `HH:MM:SS`, in microseconds. -/
def clock? (cs : List Char) : Option ℤ :=
  match cs.splitOn ':' with
  | [h, m] => do
    let hour ← number? h
    let minute ← number? m
    if h.length = 2 ∧ m.length = 2 ∧ hour < 24 ∧ minute < 60 then
      some ((hour * 60 + minute) * 60000000) else none
  | [h, m, s] => do
    let hour ← number? h
    let minute ← number? m
    let second ← number? s
    if h.length = 2 ∧ m.length = 2 ∧ s.length = 2 ∧ hour < 24 ∧ minute < 60 ∧ second < 60 then
      some (((hour * 60 + minute) * 60 + second) * 1000000) else none
  | _ => none

/-- A clock time with an optional fraction of a second, of which six digits count. -/
def timeOf? (cs : List Char) : Option ℤ := do
  let body := cs.takeWhile (fun c ↦ c ≠ '.')
  let clock ← clock? body
  match cs.drop body.length with
  | [] => some clock
  | _ :: fraction =>
    if body.length = 8 then
      let _ ← number? fraction
      return clock + (← number? ((fraction ++ List.replicate 6 '0').take 6))
    else none

/-- `fromisoformat` of the RFC 3339 forms: the local time and, where the text has one, its offset
from UTC. -/
def fromisoformat (cs : List Char) : Option (Datetime × Option Timedelta) := do
  match (cs.take 10).splitOn '-' with
  | [y, m, d] =>
    if y.length = 4 ∧ m.length = 2 ∧ d.length = 2 then
      let date ← Date.ofFields (← number? y) (← number? m) (← number? d)
      let midnight := date.toOrdinal * 86400000000
      match cs.drop 10 with
      | [] => some (midnight, none)
      | _ :: rest =>
        let body := rest.takeWhile (fun c ↦ c ≠ '+' ∧ c ≠ '-')
        let time ← timeOf? body
        match rest.drop body.length with
        | [] => some (midnight + time, none)
        | sign :: zone =>
          let offset ← timeOf? zone
          some (midnight + time, some (if sign = '-' then -offset else offset))
    else none
  | _ => none

/-- The text of a feed, with its `Z` for UTC. A text without an offset is refused. -/
def parseTs (s : String) : Option Datetime := do
  let (localTime, offset) ← fromisoformat
    (s.toList.flatMap (fun c ↦ if c = 'Z' then ['+', '0', '0', ':', '0', '0'] else [c]))
  return localTime - (← offset)

example : parseTs "1970-01-02T09:30:00.5-05:00" = some 138600500000 := by decide

end Datetime

end MarketTrader.Core
