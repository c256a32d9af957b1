import MarketTrader.Library.Keyed
import Mathlib.Algebra.Order.Field.Rat
import Mathlib.Data.List.Basic
import Mathlib.Data.List.TakeWhile

namespace MarketTrader.Library

/-- A number as it is written: its sign, its whole digits, its point with the digits behind it,
and its letter with the exponent. -/
structure Number where
  neg : Bool
  whole : List Char
  frac : List Char := []
  exp : List Char := []
deriving DecidableEq

/-- What a lenient decoder reads besides JSON. -/
inductive Constant
  | nan
  | infinity
  | negInfinity
deriving DecidableEq

inductive Json
  | null
  | bool (b : Bool)
  | const (c : Constant)
  | num (n : Number)
  | str (s : String)
  | arr (l : List Json)
  | obj (l : List (String × Json))

namespace Json

/-- The member of a name; of several the last one counts. -/
def member? (members : List (String × Json)) (name : String) : Option Json :=
  ((members.filter (·.1 = name)).getLast?).map Prod.snd

mutual

/-- No constant stands anywhere in the value. -/
def standard : Json → Bool
  | null | bool _ | num _ | str _ => true
  | const _ => false
  | arr l => standardAll l
  | obj l => standardMembers l

def standardAll : List Json → Bool
  | [] => true
  | v :: l => standard v && standardAll l

def standardMembers : List (String × Json) → Bool
  | [] => true
  | m :: l => standardMember m && standardMembers l

def standardMember : String × Json → Bool
  | (_, v) => standard v

end

end Json

/-! ### The texts of a value -/

def isSpace (c : Char) : Bool := c = ' ' ∨ c = '\t' ∨ c = '\n' ∨ c = '\r'

def Spaces (s : List Char) : Prop := ∀ c ∈ s, isSpace c

def Digits (s : List Char) : Prop := s ≠ [] ∧ ∀ c ∈ s, c.isDigit

def Number.text (n : Number) : List Char :=
  (if n.neg then ['-'] else []) ++ (n.whole ++ (n.frac ++ n.exp))

def natOf (ds : List Char) : ℕ := Nat.ofDigitChars 10 ds 0

/-- The exponent that is written behind a letter. -/
def exponentOf : List Char → ℤ
  | _ :: '-' :: ds => -natOf ds
  | _ :: '+' :: ds => natOf ds
  | _ :: ds => natOf ds
  | [] => 0

def decimalValue (neg : Bool) (whole frac exp : List Char) : ℚ :=
  (if neg then -1 else 1) * natOf (whole ++ frac) * 10 ^ (exponentOf exp - frac.length)

def Number.value (n : Number) : ℚ := decimalValue n.neg n.whole n.frac.tail n.exp

structure Number.WellFormed (n : Number) : Prop where
  whole : Digits n.whole ∧ (n.whole.head? = some '0' → n.whole = ['0'])
  frac : n.frac = [] ∨ ∃ ds, Digits ds ∧ n.frac = '.' :: ds
  exp : n.exp = [] ∨ ∃ e sign ds, (e = 'e' ∨ e = 'E') ∧ (sign = [] ∨ sign = ['+'] ∨ sign = ['-']) ∧
    Digits ds ∧ n.exp = e :: (sign ++ ds)

def Constant.text : Constant → List Char
  | nan => "NaN".toList
  | infinity => "Infinity".toList
  | negInfinity => "-Infinity".toList

/-- What stands for a character behind a backslash. -/
def escape? : Char → Option ℕ
  | '"' => some 34
  | '\\' => some 92
  | '/' => some 47
  | 'b' => some 8
  | 'f' => some 12
  | 'n' => some 10
  | 'r' => some 13
  | 't' => some 9
  | _ => none

def hexDigit? (c : Char) : Option ℕ :=
  if '0' ≤ c ∧ c ≤ '9' then some (c.toNat - 48)
  else if 'a' ≤ c ∧ c ≤ 'f' then some (c.toNat - 87)
  else if 'A' ≤ c ∧ c ≤ 'F' then some (c.toNat - 55)
  else none

def hex4? (a b c d : Char) : Option ℕ := do
  return (((← hexDigit? a) * 16 + (← hexDigit? b)) * 16 + (← hexDigit? c)) * 16 + (← hexDigit? d)

/-- What stands between the quotes of a string, and the code units that it means. -/
inductive Chars : List Char → List ℕ → Prop
  | nil : Chars [] []
  | plain {c s us} (hc : 32 ≤ c.toNat ∧ c ≠ '"' ∧ c ≠ '\\') (h : Chars s us) :
      Chars (c :: s) (c.toNat :: us)
  | escape {e n s us} (he : escape? e = some n) (h : Chars s us) :
      Chars ('\\' :: e :: s) (n :: us)
  | unicode {a b c d n s us} (hn : hex4? a b c d = some n) (h : Chars s us) :
      Chars ('\\' :: 'u' :: a :: b :: c :: d :: s) (n :: us)

/-- The character of a code. A lone surrogate, which is no character, reads as the replacement. -/
def charOf (n : ℕ) : Char := if n.isValidChar then Char.ofNat n else Char.ofNat 0xFFFD

/-- The characters of code units: a pair of surrogates is one. -/
def joinSurrogates : List ℕ → List Char
  | high :: low :: us =>
    if 0xD800 ≤ high ∧ high < 0xDC00 ∧ 0xDC00 ≤ low ∧ low < 0xE000 then
      charOf (0x10000 + (high - 0xD800) * 1024 + (low - 0xDC00)) :: joinSurrogates us
    else charOf high :: joinSurrogates (low :: us)
  | [u] => [charOf u]
  | [] => []

def stringOf (us : List ℕ) : String := String.ofList (joinSurrogates us)

/-- The texts of the values that hold no other value. -/
inductive Atom : List Char → Json → Prop
  | null : Atom "null".toList .null
  | yes : Atom "true".toList (.bool true)
  | no : Atom "false".toList (.bool false)
  | const (c : Constant) : Atom c.text (.const c)
  | num {n : Number} (h : n.WellFormed) : Atom n.text (.num n)
  | str {s us} (h : Chars s us) : Atom ('"' :: (s ++ ['"'])) (.str (stringOf us))

/-- One item or several, with commas between them and blanks around them. -/
inductive Separated {α : Type} (Item : List Char → α → Prop) : List Char → List α → Prop
  | one {w s w' a} (hw : Spaces w) (hs : Item s a) (hw' : Spaces w') :
      Separated Item (w ++ (s ++ w')) [a]
  | cons {w s w' a t as} (hw : Spaces w) (hs : Item s a) (hw' : Spaces w')
      (ht : Separated Item t as) : Separated Item (w ++ (s ++ (w' ++ ',' :: t))) (a :: as)

inductive Member (Inner : List Char → Json → Prop) : List Char → String × Json → Prop
  | mk {k us w w' s v} (hk : Chars k us) (hw : Spaces w) (hw' : Spaces w') (hs : Inner s v) :
      Member Inner ('"' :: (k ++ '"' :: (w ++ ':' :: (w' ++ s)))) (stringOf us, v)

inductive Container (Inner : List Char → Json → Prop) : List Char → Json → Prop
  | emptyArr {w} (hw : Spaces w) : Container Inner ('[' :: (w ++ [']'])) (.arr [])
  | arr {s l} (h : Separated Inner s l) : Container Inner ('[' :: (s ++ [']'])) (.arr l)
  | emptyObj {w} (hw : Spaces w) : Container Inner ('{' :: (w ++ ['}'])) (.obj [])
  | obj {s l} (h : Separated (Member Inner) s l) : Container Inner ('{' :: (s ++ ['}'])) (.obj l)

/-- The texts of the values that nest at most so deep. -/
def Denotes : ℕ → List Char → Json → Prop
  | 0, s, v => Atom s v
  | d + 1, s, v => Atom s v ∨ Container (Denotes d) s v

/-! ### The decoder -/

inductive JsonError
  | malformed
  | digits
  | depth
deriving DecidableEq

def skipSpaces (s : List Char) : List Char := s.dropWhile isSpace

def scanWhole : List Char → Option (List Char × List Char)
  | '0' :: t => some (['0'], t)
  | c :: t =>
    if c.isDigit then some (c :: t.takeWhile Char.isDigit, t.dropWhile Char.isDigit) else none
  | [] => none

def scanFrac : List Char → List Char × List Char
  | '.' :: t =>
    if t.takeWhile Char.isDigit = [] then ([], '.' :: t)
    else ('.' :: t.takeWhile Char.isDigit, t.dropWhile Char.isDigit)
  | s => ([], s)

def scanSign : List Char → List Char × List Char
  | '+' :: t => (['+'], t)
  | '-' :: t => (['-'], t)
  | s => ([], s)

def scanExp : List Char → List Char × List Char
  | e :: t =>
    if (e = 'e' ∨ e = 'E') ∧ (scanSign t).2.takeWhile Char.isDigit ≠ [] then
      (e :: ((scanSign t).1 ++ (scanSign t).2.takeWhile Char.isDigit),
        (scanSign t).2.dropWhile Char.isDigit)
    else ([], e :: t)
  | [] => ([], [])

def scanMinus : List Char → Bool × List Char
  | '-' :: t => (true, t)
  | s => (false, s)

def scanNumber (s : List Char) : Option (Number × List Char) :=
  (scanWhole (scanMinus s).2).map fun w ↦
    (⟨(scanMinus s).1, w.1, (scanFrac w.2).1, (scanExp (scanFrac w.2).2).1⟩,
      (scanExp (scanFrac w.2).2).2)

/-- The code units of a string from behind its first quote, and what follows the last one. -/
def scanChars : List Char → Option (List ℕ × List Char)
  | [] => none
  | c :: t =>
    if c = '"' then some ([], t)
    else if c = '\\' then
      match t with
      | 'u' :: a :: b :: c :: d :: u => do
        let n ← hex4? a b c d
        let (us, rest) ← scanChars u
        return (n :: us, rest)
      | e :: u => do
        let n ← escape? e
        let (us, rest) ← scanChars u
        return (n :: us, rest)
      | [] => none
    else if c.toNat < 32 then none
    else do
      let (us, rest) ← scanChars t
      return (c.toNat :: us, rest)

/-- A value that holds no other value. An integer of more than `maxDigits` digits is refused. -/
def scanAtom (maxDigits : ℕ) (s : List Char) : Except JsonError (Json × List Char) :=
  match s with
  | '"' :: t =>
    match scanChars t with
    | some (us, rest) => .ok (.str (stringOf us), rest)
    | none => .error .malformed
  | 'n' :: 'u' :: 'l' :: 'l' :: t => .ok (.null, t)
  | 't' :: 'r' :: 'u' :: 'e' :: t => .ok (.bool true, t)
  | 'f' :: 'a' :: 'l' :: 's' :: 'e' :: t => .ok (.bool false, t)
  | 'N' :: 'a' :: 'N' :: t => .ok (.const .nan, t)
  | 'I' :: 'n' :: 'f' :: 'i' :: 'n' :: 'i' :: 't' :: 'y' :: t => .ok (.const .infinity, t)
  | '-' :: 'I' :: 'n' :: 'f' :: 'i' :: 'n' :: 'i' :: 't' :: 'y' :: t =>
    .ok (.const .negInfinity, t)
  | s =>
    match scanNumber s with
    | none => .error .malformed
    | some (n, rest) =>
      if n.frac = [] ∧ n.exp = [] ∧ maxDigits < n.whole.length then .error .digits
      else .ok (.num n, rest)

/-- Items up to the closing character. -/
def scanSeparated {α : Type} (item : List Char → Except JsonError (α × List Char)) (close : Char) :
    ℕ → List Char → Except JsonError (List α × List Char)
  | 0, _ => .error .malformed
  | fuel + 1, s =>
    match item s with
    | .error e => .error e
    | .ok (a, rest) =>
      match skipSpaces rest with
      | [] => .error .malformed
      | c :: t =>
        if c = close then .ok ([a], t)
        else if c = ',' then
          (scanSeparated item close fuel (skipSpaces t)).map fun p ↦ (a :: p.1, p.2)
        else .error .malformed

def scanMember (inner : List Char → Except JsonError (Json × List Char)) :
    List Char → Except JsonError ((String × Json) × List Char)
  | '"' :: t =>
    match scanChars t with
    | none => .error .malformed
    | some (us, rest) =>
      match skipSpaces rest with
      | ':' :: u => (inner (skipSpaces u)).map fun p ↦ ((stringOf us, p.1), p.2)
      | _ => .error .malformed
  | _ => .error .malformed

def scanArr (inner : List Char → Except JsonError (Json × List Char)) (s : List Char) :
    Except JsonError (Json × List Char) :=
  match skipSpaces s with
  | ']' :: t => .ok (.arr [], t)
  | t => (scanSeparated inner ']' t.length t).map fun p ↦ (.arr p.1, p.2)

def scanObj (inner : List Char → Except JsonError (Json × List Char)) (s : List Char) :
    Except JsonError (Json × List Char) :=
  match skipSpaces s with
  | '}' :: t => .ok (.obj [], t)
  | t => (scanSeparated (scanMember inner) '}' t.length t).map fun p ↦ (.obj p.1, p.2)

/-- A value that nests at most so deep. -/
def scanOnce (maxDigits : ℕ) : ℕ → List Char → Except JsonError (Json × List Char)
  | 0, s =>
    match s with
    | '[' :: _ | '{' :: _ => .error .depth
    | s => scanAtom maxDigits s
  | d + 1, s =>
    match s with
    | '[' :: t => scanArr (scanOnce maxDigits d) t
    | '{' :: t => scanObj (scanOnce maxDigits d) t
    | s => scanAtom maxDigits s

def loads (maxDigits maxDepth : ℕ) (s : List Char) : Except JsonError Json :=
  match scanOnce maxDigits maxDepth (skipSpaces s) with
  | .error e => .error e
  | .ok (v, rest) => if skipSpaces rest = [] then .ok v else .error .malformed

end MarketTrader.Library
