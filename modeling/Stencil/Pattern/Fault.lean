/-!
# Faults of expressions

Why the text of an expression is no expression.
-/

namespace Stencil.Pattern

/-- Why an expression is refused. -/
inductive Fault where
  | unclosedGroup
  | unopenedGroup
  | nothingToRepeat
  | badRepetition
  | tooManyGroups
  | badGroupName
  | duplicateGroupName (name : String)
  | unknownGroup (name : String)
  | badFlag
  | lookAround
  | unclosedBracket
  | badBracketItem
  | reversedRange
  | trailingBackslash
  | unknownEscape (c : Char)
  | backreference
  | badCodePoint
  | unknownProperty
  | notText
  | tooLarge
deriving DecidableEq, Repr, Inhabited

/-- The wording of a fault. -/
def Fault.message : Fault → String
  | unclosedGroup => "unclosed group"
  | unopenedGroup => "unopened group"
  | nothingToRepeat => "repetition operator missing expression"
  | badRepetition => "invalid repetition"
  | tooManyGroups => "groups are nested too deeply"
  | badGroupName => "invalid group name"
  | duplicateGroupName name => "duplicate group name " ++ name
  | unknownGroup name => "reference to unknown group " ++ name
  | badFlag => "invalid flag"
  | lookAround => "look-around is not supported"
  | unclosedBracket => "unclosed character class"
  | badBracketItem => "invalid character class item"
  | reversedRange => "invalid character class range"
  | trailingBackslash => "incomplete escape sequence"
  | unknownEscape c => "unrecognized escape sequence " ++ String.singleton c
  | backreference => "backreferences are not supported"
  | badCodePoint => "invalid code point"
  | unknownProperty => "unknown property"
  | notText => "the expression can match what is no text"
  | tooLarge => "the expression is too large"

end Stencil.Pattern
