import Mathlib.Algebra.Order.Ring.Int
import Mathlib.Data.List.Basic
import Mathlib.Data.Prod.Lex
import Mathlib.Tactic.Linarith

namespace MarketTrader.Core

/-- A timezone-aware UTC instant: microseconds from 1970-01-01T00:00. -/
abbrev Datetime := ℤ

def distantFuture : Datetime := 2932532 * 86400000000

abbrev Timedelta := ℤ

namespace Timedelta

def ofMinutes (n : ℤ) : Timedelta := n * 60000000

def ofDays (n : ℤ) : Timedelta := n * 86400000000

/-- The `days` field of a timedelta, which rounds toward the past. -/
def days (d : Timedelta) : ℤ := d / 86400000000

end Timedelta

structure Date where
  year : ℤ
  month : ℤ
  day : ℤ
deriving DecidableEq

/-- The year that starts in March and the day in it, for a day of the 400-year era. -/
structure MarchDay where
  year : ℤ
  dayOfYear : ℤ

def MarchDay.ofDayOfEra (n : ℤ) : MarchDay :=
  let century := min (n / 36524) 3
  let dayOfCentury := n - century * 36524
  let cycle := dayOfCentury / 1461
  let dayOfCycle := dayOfCentury % 1461
  let yearOfCycle := min (dayOfCycle / 365) 3
  { year := century * 100 + cycle * 4 + yearOfCycle
    dayOfYear := dayOfCycle - yearOfCycle * 365 }

def MarchDay.date (era : ℤ) (d : MarchDay) : Date :=
  let shifted := (5 * d.dayOfYear + 2) / 153
  let month := if shifted < 10 then shifted + 3 else shifted - 9
  { year := era * 400 + d.year + if month ≤ 2 then 1 else 0
    month := month
    day := d.dayOfYear - (153 * shifted + 2) / 5 + 1 }

/-- The proleptic Gregorian date of the given number of days after 1970-01-01. -/
def Date.ofOrdinal (n : ℤ) : Date :=
  (MarchDay.ofDayOfEra ((n + 719468) % 146097)).date ((n + 719468) / 146097)

theorem MarchDay.ofDayOfEra_spec {n : ℤ} (h₀ : 0 ≤ n) (h₁ : n < 146097) :
    ∃ c q y : ℤ, (0 ≤ c ∧ c ≤ 3) ∧ (0 ≤ q ∧ q ≤ 24) ∧ (0 ≤ y ∧ y ≤ 3) ∧
      (ofDayOfEra n).year = c * 100 + q * 4 + y ∧
      n = c * 36524 + q * 1461 + y * 365 + (ofDayOfEra n).dayOfYear ∧
      0 ≤ (ofDayOfEra n).dayOfYear ∧ (ofDayOfEra n).dayOfYear ≤ 365 := by
  have hc : 0 ≤ min (n / 36524) 3 ∧ min (n / 36524) 3 ≤ 3 := by omega
  have hd : 0 ≤ n - min (n / 36524) 3 * 36524 ∧ n - min (n / 36524) 3 * 36524 ≤ 36524 := by omega
  simp only [ofDayOfEra]
  generalize min (n / 36524) 3 = c at *
  refine ⟨c, (n - c * 36524) / 1461, min ((n - c * 36524) % 1461 / 365) 3, hc, ?_⟩
  generalize hm : n - c * 36524 = m at *
  refine ⟨by omega, by omega, rfl, by omega, by omega, by omega⟩

theorem MarchDay.ofDayOfEra_inj {n m : ℤ} (hn : 0 ≤ n ∧ n < 146097) (hm : 0 ≤ m ∧ m < 146097)
    (hy : (ofDayOfEra n).year = (ofDayOfEra m).year)
    (hd : (ofDayOfEra n).dayOfYear = (ofDayOfEra m).dayOfYear) : n = m := by
  obtain ⟨c, q, y, hc, hq, hyc, h₁, h₂, -⟩ := ofDayOfEra_spec hn.1 hn.2
  obtain ⟨c', q', y', hc', hq', hyc', h₁', h₂', -⟩ := ofDayOfEra_spec hm.1 hm.2
  rw [h₁, h₁'] at hy
  have hcc : c = c' := by omega
  have hqq : q = q' := by omega
  have hyy : y = y' := by omega
  rw [h₂, h₂', hd, hcc, hqq, hyy]

theorem MarchDay.ofDayOfEra_year {n : ℤ} (hn : 0 ≤ n ∧ n < 146097) :
    0 ≤ (ofDayOfEra n).year ∧ (ofDayOfEra n).year ≤ 399 := by
  obtain ⟨c, q, y, hc, hq, hyc, h₁, -⟩ := ofDayOfEra_spec hn.1 hn.2
  omega

theorem MarchDay.date_inj {a b : ℤ} {d e : MarchDay} (hd : 0 ≤ d.dayOfYear ∧ d.dayOfYear ≤ 365)
    (he : 0 ≤ e.dayOfYear ∧ e.dayOfYear ≤ 365) (h : d.date a = e.date b) :
    a * 400 + d.year = b * 400 + e.year ∧ d.dayOfYear = e.dayOfYear := by
  simp only [MarchDay.date, Date.mk.injEq] at h
  obtain ⟨hy, hm, hday⟩ := h
  rw [hm, add_left_inj] at hy
  refine ⟨hy, ?_⟩
  have hs : 0 ≤ (5 * d.dayOfYear + 2) / 153 ∧ (5 * d.dayOfYear + 2) / 153 ≤ 11 := by omega
  have hs' : 0 ≤ (5 * e.dayOfYear + 2) / 153 ∧ (5 * e.dayOfYear + 2) / 153 ≤ 11 := by omega
  generalize (5 * d.dayOfYear + 2) / 153 = s at *
  generalize (5 * e.dayOfYear + 2) / 153 = s' at *
  have hss : s = s' := by split at hm <;> split at hm <;> omega
  rw [hss] at hday
  omega

theorem Date.ofOrdinal_injective : Function.Injective Date.ofOrdinal := by
  intro n m h
  have hn : 0 ≤ (n + 719468) % 146097 ∧ (n + 719468) % 146097 < 146097 := by omega
  have hm : 0 ≤ (m + 719468) % 146097 ∧ (m + 719468) % 146097 < 146097 := by omega
  have hyn := MarchDay.ofDayOfEra_year hn
  have hym := MarchDay.ofDayOfEra_year hm
  obtain ⟨_, _, _, -, -, -, -, -, hdn⟩ := MarchDay.ofDayOfEra_spec hn.1 hn.2
  obtain ⟨_, _, _, -, -, -, -, -, hdm⟩ := MarchDay.ofDayOfEra_spec hm.1 hm.2
  obtain ⟨hy, hd⟩ := MarchDay.date_inj hdn hdm h
  have he := MarchDay.ofDayOfEra_inj hn hm (by omega) hd
  omega

/-- Dates in the order of the calendar. -/
def Date.order (d : Date) : ℤ ×ₗ ℤ ×ₗ ℤ := toLex (d.year, toLex (d.month, d.day))

/-! ### Text -/

def digit (n : ℤ) : Char := Nat.digitChar (n % 10).toNat

def twoDigits (n : ℤ) : List Char := [digit (n / 10), digit n]

def sixDigits (n : ℤ) : List Char := twoDigits (n / 10000) ++ twoDigits (n / 100) ++ twoDigits n

/-- At least four digits. Years outside 1 to 9999, which a datetime excludes, keep their
sign and all of their digits. -/
def yearDigits (n : ℤ) : List Char :=
  let digits := Nat.toDigits 10 n.natAbs
  (if n < 0 then ['-'] else []) ++ (List.replicate (4 - digits.length) '0' ++ digits)

def Date.isoformat (d : Date) : String :=
  String.ofList (yearDigits d.year ++ '-' :: (twoDigits d.month ++ '-' :: twoDigits d.day))

namespace Datetime

def date (t : Datetime) : Date := Date.ofOrdinal (t / 86400000000)

def timeOfDay (t : Datetime) : ℤ := t % 86400000000

def hour (t : Datetime) : ℤ := timeOfDay t / 1000000 / 60 / 60

def minute (t : Datetime) : ℤ := timeOfDay t / 1000000 / 60 % 60

def second (t : Datetime) : ℤ := timeOfDay t / 1000000 % 60

def microsecond (t : Datetime) : ℤ := timeOfDay t % 1000000

def isoTail (t : Datetime) : List Char :=
  '-' :: (twoDigits t.date.month ++ '-' :: (twoDigits t.date.day ++ 'T' ::
    (twoDigits (hour t) ++ ':' :: (twoDigits (minute t) ++ ':' :: twoDigits (second t)))))

def isoFraction (t : Datetime) : List Char :=
  if microsecond t = 0 then [] else '.' :: sixDigits (microsecond t)

def isoChars (t : Datetime) : List Char :=
  yearDigits (date t).year ++ (isoTail t ++ (isoFraction t ++ ['+', '0', '0', ':', '0', '0']))

def isoformat (t : Datetime) : String := String.ofList (isoChars t)

/-- `strftime` with the format `%Y%m%dT%H%M%S`. -/
def compact (t : Datetime) : String :=
  String.ofList (yearDigits (date t).year ++ (twoDigits t.date.month ++ (twoDigits t.date.day ++
    'T' :: (twoDigits (hour t) ++ (twoDigits (minute t) ++ twoDigits (second t))))))

end Datetime

theorem digit_inj {a b : ℤ} (h : digit a = digit b) : a % 10 = b % 10 := by
  have ha : (a % 10).toNat < 10 := by omega
  have hb : (b % 10).toNat < 10 := by omega
  have hn := congrArg Char.toNat h
  rw [digit, digit, Nat.toNat_digitChar_of_lt_ten ha, Nat.toNat_digitChar_of_lt_ten hb] at hn
  omega

theorem digit_isDigit (n : ℤ) : (digit n).isDigit := by
  rw [digit, Nat.isDigit_digitChar]
  exact decide_eq_true (by omega)

theorem twoDigits_inj {a b : ℤ} (ha : 0 ≤ a ∧ a < 100) (hb : 0 ≤ b ∧ b < 100)
    (h : twoDigits a = twoDigits b) : a = b := by
  simp only [twoDigits, List.cons.injEq] at h
  have h₁ := digit_inj h.1
  have h₂ := digit_inj h.2.1
  omega

theorem sixDigits_inj {a b : ℤ} (ha : 0 ≤ a ∧ a < 1000000) (hb : 0 ≤ b ∧ b < 1000000)
    (h : sixDigits a = sixDigits b) : a = b := by
  simp only [sixDigits, twoDigits, List.cons_append, List.nil_append, List.cons.injEq] at h
  have h₁ := digit_inj h.1
  have h₂ := digit_inj h.2.1
  have h₃ := digit_inj h.2.2.1
  have h₄ := digit_inj h.2.2.2.1
  have h₅ := digit_inj h.2.2.2.2.1
  have h₆ := digit_inj h.2.2.2.2.2.1
  omega

theorem yearDigits_value (n : ℤ) :
    Nat.ofDigitChars 10 (List.replicate (4 - (Nat.toDigits 10 n.natAbs).length) '0' ++
      Nat.toDigits 10 n.natAbs) 0 = n.natAbs := by
  rw [Nat.ofDigitChars_append, Nat.ofDigitChars_replicate_zero, Nat.mul_zero,
    Nat.ofDigitChars_ten_toDigits]

theorem minus_not_mem_digits (n k : ℕ) : '-' ∉ List.replicate k '0' ++ Nat.toDigits 10 n := by
  intro h
  rcases List.mem_append.mp h with h | h
  · exact absurd (List.eq_of_mem_replicate h) (by decide)
  · exact absurd (Nat.isDigit_of_mem_toDigits (by decide) (by decide) h) (by decide)

theorem yearDigits_injective : Function.Injective yearDigits := by
  intro a b h
  simp only [yearDigits] at h
  by_cases ha : a < 0 <;> by_cases hb : b < 0
  · simp only [ha, hb, if_true, List.cons_append, List.nil_append, List.cons.injEq, true_and] at h
    have hv := congrArg (Nat.ofDigitChars 10 · 0) h
    simp only [yearDigits_value] at hv
    omega
  · simp only [ha, hb, if_true, if_false, List.cons_append, List.nil_append] at h
    exact absurd (h ▸ List.mem_cons_self) (minus_not_mem_digits b.natAbs _)
  · simp only [ha, hb, if_true, if_false, List.cons_append, List.nil_append] at h
    exact absurd (h ▸ List.mem_cons_self) (minus_not_mem_digits a.natAbs _)
  · simp only [ha, hb, if_false, List.nil_append] at h
    have hv := congrArg (Nat.ofDigitChars 10 · 0) h
    simp only [yearDigits_value] at hv
    omega

theorem Date.ofOrdinal_bounds (n : ℤ) :
    (1 ≤ (ofOrdinal n).month ∧ (ofOrdinal n).month ≤ 12) ∧
      (1 ≤ (ofOrdinal n).day ∧ (ofOrdinal n).day ≤ 31) := by
  have hn : 0 ≤ (n + 719468) % 146097 ∧ (n + 719468) % 146097 < 146097 := by omega
  obtain ⟨_, _, _, -, -, -, -, -, hd⟩ := MarchDay.ofDayOfEra_spec hn.1 hn.2
  simp only [ofOrdinal, MarchDay.date]
  generalize (MarchDay.ofDayOfEra ((n + 719468) % 146097)).dayOfYear = d at *
  split <;> omega

namespace Datetime

theorem isoTail_inj {s t : Datetime} (h : isoTail s = isoTail t) :
    (date s).month = (date t).month ∧ (date s).day = (date t).day ∧ hour s = hour t ∧
      minute s = minute t ∧ second s = second t := by
  have hs := Date.ofOrdinal_bounds (s / 86400000000)
  have ht := Date.ofOrdinal_bounds (t / 86400000000)
  have hsb : (0 ≤ hour s ∧ hour s < 24) ∧ (0 ≤ minute s ∧ minute s < 60) ∧
      (0 ≤ second s ∧ second s < 60) := by simp only [hour, minute, second, timeOfDay]; omega
  have htb : (0 ≤ hour t ∧ hour t < 24) ∧ (0 ≤ minute t ∧ minute t < 60) ∧
      (0 ≤ second t ∧ second t < 60) := by simp only [hour, minute, second, timeOfDay]; omega
  simp only [isoTail, twoDigits, List.cons_append, List.nil_append, List.cons.injEq, true_and,
    and_true] at h
  obtain ⟨hm₁, hm₂, hd₁, hd₂, hh₁, hh₂, hi₁, hi₂, hs₁, hs₂⟩ := h
  have hm : twoDigits (date s).month = twoDigits (date t).month := by rw [twoDigits, hm₁, hm₂]; rfl
  have hd : twoDigits (date s).day = twoDigits (date t).day := by rw [twoDigits, hd₁, hd₂]; rfl
  have hh : twoDigits (hour s) = twoDigits (hour t) := by rw [twoDigits, hh₁, hh₂]; rfl
  have hmi : twoDigits (minute s) = twoDigits (minute t) := by rw [twoDigits, hi₁, hi₂]; rfl
  have hse : twoDigits (second s) = twoDigits (second t) := by rw [twoDigits, hs₁, hs₂]; rfl
  simp only [date] at hm hd ⊢
  exact ⟨twoDigits_inj (by omega) (by omega) hm, twoDigits_inj (by omega) (by omega) hd,
    twoDigits_inj (by omega) (by omega) hh, twoDigits_inj (by omega) (by omega) hmi,
    twoDigits_inj (by omega) (by omega) hse⟩

theorem isoTail_length (t : Datetime) : (isoTail t).length = 15 := rfl

theorem eq_of_fields {s t : Datetime} (hd : date s = date t) (hh : hour s = hour t)
    (hm : minute s = minute t) (hs : second s = second t) (hu : microsecond s = microsecond t) :
    s = t := by
  have ho : s / 86400000000 = t / 86400000000 := Date.ofOrdinal_injective hd
  simp only [hour, minute, second, microsecond] at hh hm hs hu
  have hc : timeOfDay s = timeOfDay t := by omega
  calc s = s / 86400000000 * 86400000000 + timeOfDay s := (Int.ediv_mul_add_emod _ _).symm
    _ = t / 86400000000 * 86400000000 + timeOfDay t := by rw [ho, hc]
    _ = t := Int.ediv_mul_add_emod _ _

theorem isoFraction_inj {s t : Datetime} (h : isoFraction s = isoFraction t) :
    microsecond s = microsecond t := by
  have hs : 0 ≤ microsecond s ∧ microsecond s < 1000000 := by
    simp only [microsecond]; omega
  have ht : 0 ≤ microsecond t ∧ microsecond t < 1000000 := by
    simp only [microsecond]; omega
  simp only [isoFraction] at h
  split at h <;> split at h
  · next h₁ h₂ => rw [h₁, h₂]
  · cases h
  · cases h
  · exact sixDigits_inj hs ht (List.cons.inj h).2

/-- Seven characters before the zone tell a fraction from a whole second. -/
theorem isoFraction_length {s t : Datetime} (h : isoChars s = isoChars t) :
    (isoFraction s).length = (isoFraction t).length := by
  have hr := congrArg (fun l ↦ l.reverse[8]?) h
  have hc : ∀ n, digit n ≠ ':' := fun n he ↦ absurd (he ▸ digit_isDigit n) (by decide)
  simp only [isoFraction]
  split <;> split
  · rfl
  · next h₁ h₂ =>
    simp [isoChars, isoFraction, isoTail, h₁, h₂, twoDigits, sixDigits] at hr
    exact absurd hr.symm (hc _)
  · next h₁ h₂ =>
    simp [isoChars, isoFraction, isoTail, h₁, h₂, twoDigits, sixDigits] at hr
    exact absurd hr (hc _)
  · rfl

theorem isoChars_injective : Function.Injective isoChars := by
  intro s t hc
  have hf := isoFraction_length hc
  simp only [isoChars] at hc
  obtain ⟨hy, hr⟩ := List.append_inj' hc (by simp [isoTail_length, hf])
  obtain ⟨ht, hr⟩ := List.append_inj hr (by simp [isoTail_length])
  obtain ⟨hu, -⟩ := List.append_inj' hr rfl
  obtain ⟨hm, hd, hh, hmi, hs⟩ := isoTail_inj ht
  refine eq_of_fields ?_ hh hmi hs (isoFraction_inj hu)
  cases hds : date s
  cases hdt : date t
  simp only [hds, hdt] at hm hd hy
  simp [hm, hd, yearDigits_injective hy]

theorem bar_not_mem_yearDigits (n : ℤ) : '|' ∉ yearDigits n := by
  intro h
  simp only [yearDigits, List.mem_append] at h
  rcases h with h | h | h
  · split at h <;> simp at h
  · exact absurd (List.eq_of_mem_replicate h) (by decide)
  · exact absurd (Nat.isDigit_of_mem_toDigits (by decide) (by decide) h) (by decide)

theorem bar_ne_digit (n : ℤ) : '|' ≠ digit n := fun he ↦
  absurd (he ▸ digit_isDigit n) (by decide)

theorem bar_not_mem_isoChars (t : Datetime) : '|' ∉ isoChars t := by
  have hf : '|' ∉ isoFraction t := by
    simp only [isoFraction]
    split <;> simp [sixDigits, twoDigits, bar_ne_digit]
  simp [isoChars, isoTail, twoDigits, bar_not_mem_yearDigits, hf, bar_ne_digit]

theorem bar_not_mem_isoformat (d : Date) : '|' ∉ d.isoformat.toList := by
  simp [Date.isoformat, twoDigits, bar_not_mem_yearDigits, bar_ne_digit]

end Datetime

end MarketTrader.Core
