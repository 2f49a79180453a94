import Stencil.NameMap
import Stencil.Text.Decimal

/-!
# Values of tokens

A token stands for an integer of 64 bits or for text. Fields give values to tokens by name.
-/

namespace Stencil

/-- What a token may stand for. -/
inductive Value where
  | int (n : Int64)
  | text (s : String)
deriving DecidableEq, Inhabited

/-- The values of tokens, by the tokens' names. -/
abbrev Fields := NameMap Value

namespace Value

/-- What a value is called in messages. -/
def typeName : Value → String
  | .int _ => "integer"
  | .text _ => "string"

/-- The integer, if the value is one. -/
def int? : Value → Option Int64
  | .int n => some n
  | .text _ => none

/-- The text, if the value is text. -/
def text? : Value → Option String
  | .int _ => none
  | .text s => some s

/-- A value as plain text. -/
def display : Value → String
  | .int n => Decimal.ofInt64 n
  | .text s => s

end Value

end Stencil
