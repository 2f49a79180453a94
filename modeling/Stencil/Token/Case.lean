/-!
# Letter cases

The families of letter case that a token of text may be held to.
-/

namespace Stencil

/-- A family of letter case. -/
inductive Case where
  | lower
  | upper
  | lowerCamel
  | upperCamel
deriving DecidableEq, Repr, Inhabited

namespace Case

/-- The name of a case. -/
def name : Case → String
  | .lower => "lower"
  | .upper => "upper"
  | .lowerCamel => "lowerCamel"
  | .upperCamel => "UpperCamel"

/-- The case of a name. -/
def ofName? : String → Option Case
  | "lower" => some .lower
  | "upper" => some .upper
  | "lowerCamel" => some .lowerCamel
  | "UpperCamel" => some .upperCamel
  | _ => none

@[simp] theorem ofName?_name (c : Case) : ofName? c.name = some c := by cases c <;> rfl

/-- The expression of a case: the last class in it is the one that is repeated. -/
def expression : Case → String
  | .lower => "[a-z]"
  | .upper => "[A-Z]"
  | .lowerCamel => "[a-z][a-zA-Z]"
  | .upperCamel => "[A-Z][a-zA-Z]"

/-- Camel cases have one fixed class in front of the repeated one. -/
def isCamel : Case → Bool
  | .lowerCamel | .upperCamel => true
  | .lower | .upper => false

end Case

end Stencil
