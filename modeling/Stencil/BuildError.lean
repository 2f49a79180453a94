import Stencil.Pattern.Fault
import Stencil.Token.RenderRule

/-!
# Errors of construction

Why a token or a template cannot be built, with the wording of each cause.
-/

namespace Stencil

/-- Which of the two bounds of a padding. -/
inductive PaddingBound where
  | padmin
  | padmax
deriving DecidableEq, Repr

/-- What a bound of a padding is called in messages. -/
def PaddingBound.name : PaddingBound → String
  | .padmin => "Padmin"
  | .padmax => "Padmax"

/-- Why a token or a template cannot be built. -/
inductive BuildError where
  | tokenExists (name : String)
  | templateExists (group name : String)
  | unknownTokenType (tag : String)
  | unknownSymbol (symbol : Char)
  | missingToken (name : String)
  | missingTemplate (group name : String)
  /-- A template refers to itself by way of these keys. -/
  | circularReference (chain : List String)
  | negativePadding (bound : PaddingBound) (value : Int64)
  | invalidPadding (padmin padmax : Int64)
  | conflictingOptions
  | unknownCase (name : String)
  | caseNotSupported (kind : String)
  | missingRegex (name kind : String)
  | invalidName (name : String)
  | invalidRegex (name : String) (fault : Pattern.Fault)
  | invalidFormatSpec (spec : String) (fault : RenderRule.Fault)
deriving DecidableEq, Repr

/-- The wording of an error of construction. -/
def BuildError.message : BuildError → String
  | tokenExists name => "Token '" ++ name ++ "' already exists"
  | templateExists group name => "Template '" ++ group ++ "." ++ name ++ "' already exists"
  | unknownTokenType tag => "Unknown token type: " ++ tag
  | unknownSymbol symbol => "Unknown token symbol: " ++ String.singleton symbol
  | missingToken name => "Requested token name does not exist: " ++ name
  | missingTemplate _ name => "Requested template name does not exist: " ++ name
  | circularReference chain =>
    "circular template reference detected: " ++ String.intercalate " -> " chain
  | negativePadding bound value =>
    bound.name ++ " cannot be less than 0: " ++ Decimal.ofInt64 value
  | invalidPadding padmin padmax =>
    "Padmax (" ++ Decimal.ofInt64 padmax ++ ") cannot be lower than padmin (" ++
      Decimal.ofInt64 padmin ++ ")"
  | conflictingOptions => "Cannot use construction keywords with explicit regex"
  | unknownCase name => "Unknown case: " ++ name
  | caseNotSupported kind => "Token type '" ++ kind ++ "' does not support case constraints"
  | missingRegex name kind =>
    "Token '" ++ name ++ "' of type '" ++ kind ++ "' requires an explicit regex"
  | invalidName name =>
    "Invalid name '" ++ name ++
      "': must start with a letter or underscore and contain only alphanumerics"
  | invalidRegex name fault => "Invalid regex for '" ++ name ++ "': " ++ fault.message
  | invalidFormatSpec spec fault => "Invalid format spec '" ++ spec ++ "': " ++ fault.message

end Stencil
