import Stencil.Unicode.Property

/-!
# Quoted text

Text between double quotes in which every character can be told apart: quotes and backslashes have
a backslash before them, and characters that cannot be seen stand as their code points.
-/

namespace Stencil.Quoted

/-- Whether a character is shown as it is. -/
def isPrintable (c : Char) : Bool :=
  c == ' ' ||
    !(Unicode.Category.of c ∈ [Unicode.Category.control, .format, .surrogate, .privateUse,
      .unassigned, .spaceSeparator, .lineSeparator, .paragraphSeparator])

/-- Whether an ASCII character is shown as it is. -/
def isPlainAscii (c : Char) : Bool := 32 ≤ c.toNat && c.toNat < 127

/-- The hexadecimal digit of a number below sixteen. -/
def hexDigit (n : Nat) : Char := Char.ofNat (if n < 10 then 48 + n else 87 + n)

/-- A number in hexadecimal, without leading zeros. -/
def hex (n : Nat) : List Char :=
  if n < 16 then [hexDigit n] else hex (n / 16) ++ [hexDigit (n % 16)]

/-- A character as its code point. -/
def codePoint (c : Char) : List Char := ['\\', 'u', '{'] ++ hex c.toNat ++ ['}']

/-- A character as it stands between the quotes. -/
def quoteChar (c : Char) : List Char :=
  match c with
  | '\x00' => ['\\', '0']
  | '\t' => ['\\', 't']
  | '\n' => ['\\', 'n']
  | '\r' => ['\\', 'r']
  | '"' => ['\\', '"']
  | '\\' => ['\\', '\\']
  | _ =>
    if isPlainAscii c then [c]
    else if !Unicode.graphemeExtend.mem c && isPrintable c then [c]
    else codePoint c

/-- A text between quotes. -/
def quote (s : String) : String := .ofList ('"' :: (s.toList.flatMap quoteChar ++ ['"']))

/-- A list of texts between quotes, in square brackets. -/
def list (ss : List String) : String := "[" ++ String.intercalate ", " (ss.map quote) ++ "]"

end Stencil.Quoted
