import MarketTrader.Library.Json

namespace MarketTrader.Library

/-- A number of the floating-point type, whose arithmetic is exact. -/
inductive Double
  | fin (q : ℚ)
  | inf (neg : Bool)
  | nan
deriving DecidableEq

namespace Double

/-- What is as large as this rounds to no finite number. -/
def bound : ℚ := 2 ^ 1024 - 2 ^ 970

def ofRat (q : ℚ) : Double := if |q| < bound then fin q else inf (q < 0)

/-- The comparison with a finite number, which is never true of a `nan`. -/
def lt : Double → ℚ → Bool
  | fin q, b => q < b
  | inf neg, _ => neg
  | nan, _ => false

/-- `max(lo, min(hi, x))`: the minimum is `hi` unless `x` is below it, and the maximum is `lo`
unless the minimum is above it. -/
def clip (x : Double) (lo hi : ℚ) : ℚ :=
  if x.lt hi then
    match x with
    | fin q => if lo < q then q else lo
    | inf _ | nan => lo
  else if lo < hi then hi else lo

theorem clip_fin (q lo hi : ℚ) : (fin q).clip lo hi = max lo (min hi q) := by
  by_cases hq : q < hi
  · rw [clip, lt, if_pos (by simpa using hq), min_eq_right hq.le]
    by_cases hlo : lo < q
    · rw [if_pos hlo, max_eq_right hlo.le]
    · rw [if_neg hlo, max_eq_left (not_lt.mp hlo)]
  · rw [clip, lt, if_neg (by simpa using hq), min_eq_left (not_lt.mp hq)]
    by_cases hlo : lo < hi
    · rw [if_pos hlo, max_eq_right hlo.le]
    · rw [if_neg hlo, max_eq_left (not_lt.mp hlo)]

/-- Underscores stand between digits only. -/
def underscored : List Char → Bool
  | a :: '_' :: b :: s => a.isDigit && b.isDigit && underscored (b :: s)
  | '_' :: _ => false
  | [_, '_'] => false
  | _ :: s => underscored s
  | [] => true

/-- The number in a text without blanks around it. -/
def ofChars (s : List Char) : Option Double :=
  if !underscored s then none
  else
    let (sign, t) := scanSign (s.filter (· ≠ '_'))
    let neg := sign = ['-']
    let name := String.ofList (t.map Char.toLower)
    if name = "inf" ∨ name = "infinity" then some (inf neg)
    else if name = "nan" then some nan
    else
      let whole := t.takeWhile Char.isDigit
      let (point, u) := match t.dropWhile Char.isDigit with
        | '.' :: u => (u.takeWhile Char.isDigit, u.dropWhile Char.isDigit)
        | u => ([], u)
      let (exp, rest) := scanExp u
      if whole ++ point = [] ∨ rest ≠ [] then none
      else some (ofRat (decimalValue neg whole point exp))

example : ofChars "-1_0.5e1".toList = some (fin (-105)) := by decide +kernel

end Double

end MarketTrader.Library
