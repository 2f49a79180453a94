import Stencil.Template.Kind
import Stencil.Token.Basic

/-!
# Segments

A template is a sequence of segments: literal text, tokens and nested templates. What a nested
template holds counts as if it stood in the place of the nested template; `flattenAll_append` and
`flattenAll_flattenAll` say how that behaves.
-/

namespace Stencil

/-- One element of a template. -/
inductive Segment where
  | literal (text : String)
  | token (token : Token)
  | template (name : String) (kind : TemplateKind) (segments : List Segment)

namespace Segment

/-! ## Flattening -/

mutual

/-- The literals and tokens of a segment. -/
def flatten : Segment → List Segment
  | .literal s => [.literal s]
  | .token t => [.token t]
  | .template _ _ ss => flattenAll ss

/-- The literals and tokens of segments. -/
def flattenAll : List Segment → List Segment
  | [] => []
  | s :: ss => s.flatten ++ flattenAll ss

end

@[simp] theorem flattenAll_append (ss ts : List Segment) :
    flattenAll (ss ++ ts) = flattenAll ss ++ flattenAll ts := by
  induction ss with
  | nil => simp [flattenAll]
  | cons s ss ih => simp [flattenAll, ih]

mutual

theorem flattenAll_flatten : ∀ s : Segment, flattenAll s.flatten = s.flatten
  | .literal _ => by simp [flatten, flattenAll]
  | .token _ => by simp [flatten, flattenAll]
  | .template _ _ ss => by simp [flatten, flattenAll_flattenAll ss]

/-- What is flat stays as it is. -/
theorem flattenAll_flattenAll : ∀ ss : List Segment, flattenAll (flattenAll ss) = flattenAll ss
  | [] => by simp [flattenAll]
  | s :: ss => by simp [flattenAll, flattenAll_flatten s, flattenAll_flattenAll ss]

end

/-! ## Nested templates -/

mutual

/-- The nested templates of a segment, depth first. -/
def templates : Segment → List Segment
  | .literal _ => []
  | .token _ => []
  | .template name kind ss => .template name kind ss :: allTemplates ss

/-- The nested templates of segments, depth first. -/
def allTemplates : List Segment → List Segment
  | [] => []
  | s :: ss => s.templates ++ allTemplates ss

end

/-- Whether a segment is a nested template. -/
def isTemplate : Segment → Bool
  | .template .. => true
  | _ => false

/-- The token, if a segment is one. -/
def token? : Segment → Option Token
  | .token t => some t
  | _ => none

/-- The literal text, if a segment is that. -/
def literal? : Segment → Option String
  | .literal s => some s
  | _ => none

/-- The name of a nested template. -/
def templateName? : Segment → Option String
  | .template name _ _ => some name
  | _ => none

/-! ## The pattern of placeholders -/

/-- A token as a placeholder, with its spec if that is wanted. -/
def placeholder (withSpecs : Bool) (t : Token) : String :=
  "\x7b" ++ t.name ++ (if withSpecs then ":" ++ t.rule.spec else "") ++ "\x7d"

mutual

/-- A segment with placeholders for its tokens. -/
def pattern (withSpecs : Bool) : Segment → String
  | .literal s => s
  | .token t => placeholder withSpecs t
  | .template _ _ ss => patternAll withSpecs ss

/-- Segments with placeholders for their tokens. -/
def patternAll (withSpecs : Bool) : List Segment → String
  | [] => ""
  | s :: ss => s.pattern withSpecs ++ patternAll withSpecs ss

end

/-! ## Sameness -/

mutual

/-- Whether two segments are the same in all that can be told from outside. -/
def same : Segment → Segment → Bool
  | .literal s, .literal s' => s == s'
  | .token t, .token t' => t.same t'
  | .template name kind ss, .template name' kind' ss' =>
    name == name' && kind == kind' && sameAll ss ss'
  | _, _ => false

/-- Whether segments are the same one by one. -/
def sameAll : List Segment → List Segment → Bool
  | [], [] => true
  | s :: ss, s' :: ss' => s.same s' && sameAll ss ss'
  | _, _ => false

end

end Segment

end Stencil
