import Stencil.Datum
import Stencil.Toml.Text

/-!
# Numbers and moments in TOML

Integers in four bases, decimal fractions, dates and times. Underscores may stand between digits.
Fractions and moments are read for their form only.
-/

namespace Stencil.Toml

/-! ## Digits -/

/-- Further digits: an underscore needs one behind it. -/
def moreDigits (isDigit : Char → Bool) : List Char → Option (List Char × List Char)
  | [] => some ([], [])
  | '_' :: [] => none
  | '_' :: c :: cs => if isDigit c then prepend c (moreDigits isDigit cs) else none
  | c :: cs => if isDigit c then prepend c (moreDigits isDigit cs) else some ([], c :: cs)

/-- One or more digits. -/
def digits (isDigit : Char → Bool) : List Char → Option (List Char × List Char)
  | [] => none
  | c :: cs => if isDigit c then prepend c (moreDigits isDigit cs) else none

/-- The digits of a decimal number, which do not start with a zero unless that is all. -/
def wholeDigits : List Char → Option (List Char × List Char)
  | '0' :: cs => some (['0'], cs)
  | cs => digits Char.isDigit cs

/-- The number that digits stand for. -/
def digitsValue (base : Nat) (ds : List Char) : Nat :=
  ds.foldl (fun n c => base * n + (hexValue? c).getD 0) 0

/-- An integer, if it has no more than 64 bits. -/
def intDatum? (n : Int) : Option Datum := (Decimal.toInt64? n).map .int

/-- Whether a character is a digit in a base. -/
def isDigitOf (base : Nat) (c : Char) : Bool := (hexValue? c).any (· < base)

/-- An integer in another base than ten, given what follows the mark of the base. -/
def basedInteger (base : Nat) (cs : List Char) : Option (Datum × List Char) := do
  let (ds, rest) ← digits (isDigitOf base) cs
  return (← intDatum? (digitsValue base ds), rest)

/-! ## Decimal numbers -/

/-- The sign of a number, and the rest. -/
def takeSign : List Char → Bool × List Char
  | '-' :: cs => (true, cs)
  | '+' :: cs => (false, cs)
  | cs => (false, cs)

/-- Digits behind a point. -/
def fraction : List Char → Option (List Char × List Char)
  | '.' :: cs => digits Char.isDigit cs
  | cs => some ([], cs)

/-- An exponent. -/
def exponent : List Char → Option (Option Int × List Char)
  | c :: cs =>
    if c = 'e' ∨ c = 'E' then do
      let (negative, cs) := takeSign cs
      let (ds, rest) ← digits Char.isDigit cs
      let n : Int := digitsValue 10 ds
      return (some (if negative then -n else n), rest)
    else some (none, c :: cs)
  | [] => some (none, [])

/-- Whether the fraction `mantissa * 10 ^ exponent`, the mantissa of so many digits, is beyond all
binary fractions of 64 bits. -/
def isBeyond (mantissa size : Nat) (exponent : Int) : Bool :=
  let reach := exponent + size
  if mantissa = 0 || reach < 309 then false
  else if 310 < reach then true
  else (Nat.pow 2 1024 - Nat.pow 2 970) * Nat.pow 10 (-exponent).toNat ≤
    mantissa * Nat.pow 10 exponent.toNat

/-- A decimal number: an integer, or a fraction if it has a point or an exponent. -/
def decimal (cs : List Char) : Option (Datum × List Char) := do
  let (negative, cs) := takeSign cs
  let (whole, cs) ← wholeDigits cs
  let (part, cs) ← fraction cs
  let (power, cs) ← exponent cs
  if part = [] ∧ power.isNone then
    let n : Int := digitsValue 10 whole
    return (← intDatum? (if negative then -n else n), cs)
  else
    let ds := (whole ++ part).dropWhile (· = '0')
    if !negative && isBeyond (digitsValue 10 ds) ds.length (power.getD 0 - part.length) then none
    else return (.other, cs)

/-- Infinity, and what is no number. -/
def special (cs : List Char) : Option (Datum × List Char) :=
  match (takeSign cs).2 with
  | 'i' :: 'n' :: 'f' :: rest => some (.other, rest)
  | 'n' :: 'a' :: 'n' :: rest => some (.other, rest)
  | _ => none

/-- A number. -/
def number : List Char → Option (Datum × List Char)
  | '0' :: 'x' :: cs => basedInteger 16 cs
  | '0' :: 'o' :: cs => basedInteger 8 cs
  | '0' :: 'b' :: cs => basedInteger 2 cs
  | cs => (special cs).or (decimal cs)

/-! ## Moments -/

/-- So many decimal digits as a number in a range. -/
def field (size lo hi : Nat) (cs : List Char) : Option (Nat × List Char) :=
  let ds := cs.take size
  let n := digitsValue 10 ds
  if ds.length = size ∧ ds.all Char.isDigit ∧ lo ≤ n ∧ n ≤ hi then some (n, cs.drop size) else none

/-- The rest behind a character. -/
def expect (c : Char) : List Char → Option (List Char)
  | [] => none
  | d :: cs => if d = c then some cs else none

/-- The days of a month. -/
def daysOf (year month : Nat) : Nat :=
  if month = 2 then (if year % 4 = 0 ∧ (year % 100 ≠ 0 ∨ year % 400 = 0) then 29 else 28)
  else if month ∈ [4, 6, 9, 11] then 30
  else 31

/-- The rest behind a date. -/
def date (cs : List Char) : Option (List Char) := do
  let (year, cs) ← field 4 0 9999 cs
  let (month, cs) ← field 2 1 12 (← expect '-' cs)
  let (_, cs) ← field 2 1 (daysOf year month) (← expect '-' cs)
  return cs

/-- The rest behind a time of day. -/
def time (cs : List Char) : Option (List Char) := do
  let (_, cs) ← field 2 0 23 cs
  let (_, cs) ← field 2 0 59 (← expect ':' cs)
  let (_, cs) ← field 2 0 60 (← expect ':' cs)
  match cs with
  | '.' :: c :: rest => if c.isDigit then return rest.dropWhile Char.isDigit else none
  | _ => return cs

/-- The rest behind the distance of a time zone, if there is one. -/
def zone : List Char → Option (List Char)
  | 'Z' :: cs => some cs
  | 'z' :: cs => some cs
  | c :: cs =>
    if c = '+' ∨ c = '-' then do
      let (_, cs) ← field 2 0 23 cs
      let (_, cs) ← field 2 0 59 (← expect ':' cs)
      return cs
    else some (c :: cs)
  | [] => some []

/-- The rest behind a date, which a time and a zone may follow. -/
def dateAndTime (cs : List Char) : Option (List Char) := do
  let rest ← date cs
  match rest with
  | c :: after =>
    if c ∈ ['T', 't', ' '] ∧ (field 2 0 23 after).isSome then zone (← time after) else return rest
  | [] => return []

/-- Whether a text starts like a date, and not like a number. -/
def startsDate (cs : List Char) : Bool :=
  (cs.take 4).all Char.isDigit && (cs.take 4).length = 4 && cs[4]? = some '-'

/-- Whether a text starts like a time, and not like a number. -/
def startsTime (cs : List Char) : Bool :=
  (cs.take 2).all Char.isDigit && (cs.take 2).length = 2 && cs[2]? = some ':'

/-- A number or a moment. -/
def numberOrMoment (cs : List Char) : Option (Datum × List Char) :=
  if startsDate cs then (dateAndTime cs).map fun rest => (.other, rest)
  else if startsTime cs then (time cs).map fun rest => (.other, rest)
  else number cs

end Stencil.Toml
