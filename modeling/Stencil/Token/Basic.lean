import Stencil.Pattern.Reader
import Stencil.Text.Name
import Stencil.Token.Kind

/-!
# Tokens

A token is a named place in a template. It has an expression that matches the texts of its values, a
rule that renders values as text, a description and perhaps a default value. What a token formats,
it reads back as the same value.
-/

namespace Stencil

/-- A named, typed place. -/
structure Token where
  name : String
  kind : Kind
  /-- The expression of one value, without anchors. -/
  regex : String
  /-- The expression with anchors at both ends, as it was read. -/
  anchored : Pattern.Expression
  rule : RenderRule
  description : String
  default : Option Value

/-- Why a value cannot be formatted. -/
inductive FormatError where
  | invalidValue (token : String) (value : Value) (reason : RenderRule.Refusal)
  /-- The rendered text does not stand for the same value. -/
  | roundTrip (token text : String)
  | missingToken (name : String)
deriving DecidableEq

/-- A value with its type, as it is shown in messages. -/
def Value.show : Value → String
  | .int n => "Int(" ++ Decimal.ofInt64 n ++ ")"
  | .text s => "Str(" ++ Quoted.quote s ++ ")"

/-- The wording of an error of formatting. -/
def FormatError.message : FormatError → String
  | invalidValue token value reason =>
    "Value " ++ value.show ++ " does not match token '" ++ token ++ "': " ++ reason.message
  | roundTrip token text =>
    "Value as string '" ++ text ++ "' does not match token '" ++ token ++ "'"
  | missingToken name => "Missing required token: " ++ name

/-- Why a text cannot be read by a token. -/
inductive ReadError where
  | mismatch (token text : String)
  | invalidInteger (token text : String)
deriving DecidableEq, Repr

/-- The wording of an error of reading. -/
def ReadError.message : ReadError → String
  | mismatch token text => "String '" ++ text ++ "' does not match token '" ++ token ++ "'"
  | invalidInteger token text =>
    "String '" ++ text ++ "' does not match int token '" ++ token ++ "'"

namespace Token

/-- An expression between anchors. -/
def anchor (regex : String) : String := "^(?:" ++ regex ++ ")$"

/-- A token of an explicit expression and render rule. -/
def create (name : String) (kind : Kind) (regex : String) (rule : RenderRule) :
    Except BuildError Token :=
  if !isIdentifier name then .error (.invalidName name)
  else
    match Pattern.Expression.read (anchor regex) with
    | .error fault => .error (.invalidRegex name fault)
    | .ok anchored =>
      .ok { name, kind, regex, anchored, rule, description := "", default := none }

/-- A token whose expression, rule and description its kind derives from options. -/
def ofOptions (name : String) (kind : Kind) (o : TokenOptions) : Except BuildError Token := do
  let regex ← kind.regex name o
  let rule ← kind.renderRule o
  let token ← create name kind regex rule
  return { token with description := kind.description o, default := o.default }

/-- An integer token without options. -/
def int (name : String) : Except BuildError Token := ofOptions name .int (.ofKind "int")

/-- A token of text without options. -/
def text (name : String) : Except BuildError Token := ofOptions name .text (.ofKind "str")

/-- The value that a matching text stands for. -/
def readValue (t : Token) (s : String) : Except ReadError Value :=
  match t.kind.readValue s with
  | .ok v => .ok v
  | .error _ => .error (.invalidInteger t.name s)

/-- Whether the whole of a text matches. -/
def matches? (t : Token) (s : String) : Bool :=
  (Pattern.search s.toList.toArray t.anchored.pattern).isSome

/-- Reads a text, the whole of which has to match. -/
def parse (t : Token) (s : String) : Except ReadError Value :=
  if t.matches? s then t.readValue s else .error (.mismatch t.name s)

/-- Renders a value, which the text has to stand for. -/
def format (t : Token) (v : Value) : Except FormatError String :=
  match t.rule.render v with
  | .error reason => .error (.invalidValue t.name v reason)
  | .ok s =>
    match t.parse s with
    | .ok w => if w = v then .ok s else .error (.roundTrip t.name s)
    | .error _ => .error (.roundTrip t.name s)

/-- Whether two tokens are the same in all that can be told from outside. -/
def same (t u : Token) : Bool :=
  t.name == u.name && t.kind.tag == u.kind.tag && t.regex == u.regex && t.rule == u.rule &&
    t.description == u.description && t.default == u.default

end Token

end Stencil
