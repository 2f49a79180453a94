import Stencil.Pattern.Composite
import Stencil.Template.Composition

/-!
# Templates

A template has a name, a kind and segments, and two expressions that were read from them: one that
has to match a whole text and one that has to match its beginning.
-/

namespace Stencil

/-- A named sequence of segments with its expressions. -/
structure Template where
  name : String
  kind : TemplateKind
  segments : List Segment
  /-- Matches whole texts. -/
  whole : Pattern.Expression
  /-- Matches the beginnings of texts. -/
  leading : Pattern.Expression

namespace Template

/-- Reads the expressions of segments; the error names the template. -/
def create (name : String) (kind : TemplateKind) (segments : List Segment) :
    Except BuildError Template :=
  let body := Segment.regexAll segments
  match Pattern.Composite.read ("^" ++ body ++ "$") with
  | .error fault => .error (.invalidRegex name fault)
  | .ok whole =>
    match Pattern.Composite.read ("^" ++ body) with
    | .error fault => .error (.invalidRegex name fault)
    | .ok leading => .ok { name, kind, segments, whole, leading }

/-- The template as a segment of another one. -/
def toSegment (t : Template) : Segment := .template t.name t.kind t.segments

/-- The expression of the whole template, without anchors. -/
def regex (t : Template) : String := Segment.regexAll t.segments

/-- The template with placeholders for its tokens. -/
def pattern (t : Template) (withSpecs : Bool) : String := Segment.patternAll withSpecs t.segments

/-- The name and the pattern of a template. -/
def display (t : Template) : String := t.name ++ ":" ++ t.pattern false

/-- The literals and tokens, with nested templates in place. -/
def flat (t : Template) : List Segment := Segment.flattenAll t.segments

/-- The segments, with nested templates as such if `nested` holds. -/
def segmentsOf (t : Template) (nested : Bool) : List Segment :=
  if nested then t.segments else t.flat

/-- The tokens in order, as often as they occur. -/
def tokens (t : Template) (nested : Bool) : List Token :=
  (t.segmentsOf nested).filterMap Segment.token?

/-- The literal texts in order. -/
def literals (t : Template) (nested : Bool) : List String :=
  (t.segmentsOf nested).filterMap Segment.literal?

/-- The nested templates, depth first, without those in deeper ones if `nested` holds. -/
def templates (t : Template) (nested : Bool) : List Segment :=
  if nested then t.segments.filter Segment.isTemplate else Segment.allTemplates t.segments

/-- Whether two templates are the same in all that can be told from outside. -/
def same (t u : Template) : Bool := t.toSegment.same u.toSegment

end Template

end Stencil
