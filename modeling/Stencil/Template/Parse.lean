import Stencil.Template.Basic
import Stencil.Text.Offset

/-!
# Parsing

A text that matches a template gives a value to each of its tokens. `parse` takes the whole text,
`extract` its beginning, and says where it ends.
-/

namespace Stencil

/-- Matching a template was given up. -/
structure GivenUp where
  template : String
  why : Pattern.Exhaustion
deriving DecidableEq, Repr

/-- Why a text cannot be taken apart by a template. -/
inductive ParseError where
  | token (e : ReadError)
  | mismatch (template text : String)
  | givenUp (e : GivenUp)
deriving DecidableEq, Repr

/-- The wording of an error of parsing. -/
def ParseError.message : ParseError → String
  | token e => e.message
  | mismatch template text => "String '" ++ text ++ "' doesn't match template '" ++ template ++ "'"
  | givenUp e =>
    "Matching template '" ++ e.template ++ "' failed: Error executing regex: " ++ e.why.message

/-- A text in the form that a kind of template parses: paths take either separator. -/
def TemplateKind.prepare : TemplateKind → List Char → List Char
  | .standard, cs => cs
  | .path, cs => cs.map fun c => if c = '\\' then '/' else c

/-- The text of the group of a name. -/
def Pattern.Expression.groupText? (e : Expression) (f : Found) (text : Array Char) (name : String) :
    Option String :=
  (e.named? f name).map fun g => .ofList (text.extract g.1 g.2).toList

namespace Template

/-- The values of the tokens that have none yet, from the groups of their names. -/
def readTokens (textOf : String → Option String) : List Token → Fields → Except ReadError Fields
  | [], fields => .ok fields
  | t :: ts, fields =>
    if fields.contains t.name then readTokens textOf ts fields
    else
      match textOf t.name with
      | none => readTokens textOf ts fields
      | some s =>
        match t.readValue s with
        | .error e => .error e
        | .ok v => readTokens textOf ts (fields.insert t.name v)

/-- Matches one of a template's expressions: the values of the tokens and the number of characters
matched. -/
def matchWith (t : Template) (e : Pattern.Expression) (s : String) :
    Except ParseError (Fields × Nat) :=
  let text := (t.kind.prepare s.toList).toArray
  match e.searchComposite text with
  | .givenUp why => .error (.givenUp ⟨t.name, why⟩)
  | .none => .error (.mismatch t.display s)
  | .found f =>
    match readTokens (e.groupText? f text) (t.tokens false) .empty with
    | .error e => .error (.token e)
    | .ok fields => .ok (fields, f.stop.pos)

/-- The values of the tokens in a text that matches as a whole. -/
def parse (t : Template) (s : String) : Except ParseError Fields :=
  (t.matchWith t.whole s).map (·.1)

/-- The values of the tokens in the beginning of a text, and the byte at which that ends. -/
def extract (t : Template) (s : String) : Except ParseError (Fields × Nat) :=
  (t.matchWith t.leading s).map fun r =>
    (r.1, byteLength ((t.kind.prepare s.toList).take r.2))

end Template

end Stencil
