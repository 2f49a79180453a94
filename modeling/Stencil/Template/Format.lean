import Stencil.Path.Normal
import Stencil.Template.Basic

/-!
# Formatting

A template is formatted by filling in its tokens: with text that is given for a token as it is, with
the token's value, or with its default. A path is normalized once it is complete.
-/

namespace Stencil

/-- What stands in for values. -/
structure FormatOptions where
  /-- Text that is put in place of tokens as it is. -/
  overrides : NameMap String
  /-- Whether defaults stand in for values that are missing. -/
  useDefaults : Bool
deriving DecidableEq, Repr

/-- Defaults stand in for missing values, and nothing else does. -/
def FormatOptions.standard : FormatOptions := ⟨.empty, true⟩

/-- The text of a token. -/
def Token.fill (t : Token) (fields : Fields) (o : FormatOptions) : Except FormatError String :=
  match o.overrides.get? t.name with
  | some text => .ok text
  | none =>
    match fields.get? t.name, t.default with
    | some v, _ => t.format v
    | none, some v => if o.useDefaults then t.format v else .error (.missingToken t.name)
    | none, none => .error (.missingToken t.name)

namespace Segment

mutual

/-- The text of a segment. -/
def render (fields : Fields) (o : FormatOptions) : Segment → Except FormatError String
  | .literal s => .ok s
  | .token t => t.fill fields o
  | .template _ _ ss => renderAll fields o ss

/-- The text of segments. -/
def renderAll (fields : Fields) (o : FormatOptions) : List Segment → Except FormatError String
  | [] => .ok ""
  | s :: ss => do
    let first ← s.render fields o
    let rest ← renderAll fields o ss
    return first ++ rest

end

end Segment

/-- A text in the form that a kind of template gives it. -/
def TemplateKind.finish : TemplateKind → String → String
  | .standard, s => s
  | .path, s => Path.normalize s

/-- The text of a template. -/
def Template.format (t : Template) (fields : Fields) (o : FormatOptions) :
    Except FormatError String :=
  (Segment.renderAll fields o t.segments).map t.kind.finish

end Stencil
