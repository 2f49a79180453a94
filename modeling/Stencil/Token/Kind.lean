import Stencil.Pattern.Quote
import Stencil.Text.Quoted
import Stencil.Token.Options

/-!
# Kinds of tokens

A kind knows how to derive the expression, the render rule and the description of a token from its
options, and how to turn text into a value. The built-in kinds are integers, text, and tokens that
consist of an explicit expression alone. `KindRegistry` finds kinds by their tags.
-/

namespace Stencil

/-- The rule of a spec, or an error that names the spec. -/
def RenderRule.explicit (spec : String) : Except BuildError RenderRule :=
  match RenderRule.parse spec with
  | .ok rule => .ok rule
  | .error fault => .error (.invalidFormatSpec spec fault)

/-- The text is no integer of 64 bits. -/
structure NotAnInteger where
  text : String
deriving DecidableEq, Repr

/-- What a type of token can do. -/
structure Kind where
  /-- The name of the kind in options. -/
  tag : String
  /-- The expression of one value of the token of this name. -/
  regex : (name : String) → TokenOptions → Except BuildError String
  /-- The rule that values are rendered by. -/
  renderRule : TokenOptions → Except BuildError RenderRule
  /-- What values are expected, in words. -/
  description : TokenOptions → String
  /-- The value that a matching text stands for. -/
  readValue : (text : String) → Except NotAnInteger Value

instance : Inhabited Kind := ⟨⟨"", fun _ _ => .ok "", fun _ => .ok (.typed none), fun _ => "",
  fun s => .ok (.text s)⟩⟩

namespace Kind

/-- The class of the digits of integers. -/
def digitClass : String := "[0-9]"

/-- The class of the letters of text. -/
def letterClass : String := "[a-zA-Z]"

/-- The choices of a token, if there are any. -/
def choices? (o : TokenOptions) : Option (List Value) :=
  match o.choices with
  | some (c :: cs) => some (c :: cs)
  | _ => none

/-- The expression of the choices and no other text. -/
def choicesRegex (choices : List Value) : String :=
  "(?:" ++ String.intercalate "|" (choices.map fun c => Pattern.quote c.display) ++ ")"

/-- An explicit expression, one of the choices, or characters of a class within the padding. -/
def classRegex (o : TokenOptions) (cls : String) : Except BuildError String :=
  match o.regex with
  | some regex => if o.constrains then .error .conflictingOptions else .ok regex
  | none => do
    let padding ← o.padding
    match choices? o with
    | some choices => return choicesRegex choices
    | none => return cls ++ padding.quantifier

/-- The explicit spec, or the one that the padding options make up unless padding is strict. -/
def paddedRule (o : TokenOptions) (padchar padalign : Char) (strict : Bool) (type : RenderType) :
    Except BuildError RenderRule :=
  match o.formatSpec with
  | some spec => RenderRule.explicit spec
  | none => do
    let padding ← o.padding
    match padding.min with
    | some width =>
      if o.padstrict.getD strict then return .typed (some type)
      else
        RenderRule.explicit
          (RenderRule.paddedSpec (o.padchar.getD padchar) (o.padalign.getD padalign)
            width (some type))
    | none => return .typed (some type)

/-- The explicit description, or one that lists the choices. -/
def givenDescription? (o : TokenOptions) : Option String :=
  match o.description with
  | some d => some d
  | none => (choices? o).map fun cs => "Must be one of: " ++ Quoted.list (cs.map Value.display)

/-- The padding in words, such as "a minimum 3-digit". -/
def widthPhrase? (o : TokenOptions) (unit : String) : Option String :=
  let sized (lead : String) (n : Int64) : String := lead ++ Decimal.ofInt64 n ++ "-" ++ unit
  match o.padmin, o.padmax with
  | some lo, some hi => some (if lo = hi then sized "a " lo else sized "a minimum " lo)
  | some lo, none => some (sized "a minimum " lo)
  | none, some hi => some (sized "a maximum " hi)
  | none, none => none

/-- The integer that a text stands for. -/
def readInt (text : String) : Except NotAnInteger Value :=
  match Decimal.readInt64? text.toList with
  | some n => .ok (.int n)
  | none => .error ⟨text⟩

/-- Integers: runs of digits, filled up with zeros to the least width. -/
def int : Kind where
  tag := "int"
  regex _ o := if o.letterCase.isSome then .error (.caseNotSupported "int")
    else classRegex o digitClass
  renderRule o := paddedRule o '0' '=' false .int
  description o :=
    (givenDescription? o).getD <|
      match widthPhrase? o "digit" with
      | some width => "Must be " ++ width ++ " integer"
      | none => "Must be an integer"
  readValue := readInt

/-- The expression of text held to a case, the fixed first letter of camel cases counted in. -/
def caseRegex (o : TokenOptions) (c : Case) : Except BuildError String :=
  if o.regex.isSome then .error .conflictingOptions
  else do
    let padding ← o.padding
    return c.expression ++ (if c.isCamel then padding.behindFirst else padding).quantifier

/-- Text: runs of letters, held to a case or to choices. -/
def text : Kind where
  tag := "str"
  regex _ o :=
    match o.letterCase with
    | none => classRegex o letterClass
    | some c => caseRegex o c
  renderRule o := paddedRule o 'X' '>' true .text
  description o :=
    (givenDescription? o).getD <|
      let family := match o.letterCase with
        | some c => c.name ++ " case "
        | none => ""
      match widthPhrase? o "character" with
      | some width => "Must be " ++ width ++ " " ++ family ++ "string"
      | none => "Must be a " ++ family ++ "string"
  readValue s := .ok (.text s)

/-- Tokens of an explicit expression, whose values are the texts themselves. -/
def custom : Kind where
  tag := "custom"
  regex name o :=
    match o.regex with
    | some regex => if o.constrains then .error .conflictingOptions else .ok regex
    | none => .error (.missingRegex name "custom")
  renderRule o :=
    match o.formatSpec with
    | some spec => RenderRule.explicit spec
    | none => .ok (.typed none)
  description o := o.description.getD ""
  readValue s := .ok (.text s)

/-- A kind that differs from another one in its tag and describes all its tokens in the same way. -/
def renamed (base : Kind) (tag description : String) : Kind :=
  { base with tag, description := fun _ => description }

end Kind

/-- The kinds that can be used, by their tags. -/
structure KindRegistry where
  kinds : NameMap Kind

namespace KindRegistry

/-- The registry with a kind, in place of any other of the same tag. -/
def register (r : KindRegistry) (k : Kind) : KindRegistry := ⟨r.kinds.insert k.tag k⟩

/-- The built-in kinds. -/
def builtIn : KindRegistry :=
  ((⟨.empty⟩ : KindRegistry).register .int).register .text |>.register .custom

/-- The kind of a tag. -/
def get (r : KindRegistry) (tag : String) : Except BuildError Kind :=
  match r.kinds.get? tag with
  | some k => .ok k
  | none => .error (.unknownTokenType tag)

/-- Whether there is a kind of this tag. -/
def contains (r : KindRegistry) (tag : String) : Bool := r.kinds.contains tag

end KindRegistry

end Stencil
