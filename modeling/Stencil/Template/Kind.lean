/-!
# Kinds of templates

A template stands for plain text or for paths. The templates of one group are paths unless they say
otherwise.
-/

namespace Stencil

/-- How a template treats the texts it formats and parses. -/
inductive TemplateKind where
  | standard
  /-- Texts are paths: formatting normalizes them, and parsing takes either separator. -/
  | path
deriving DecidableEq, Repr, Inhabited

namespace TemplateKind

/-- The name of a kind in definitions. -/
def name : TemplateKind → String
  | .standard => "template"
  | .path => "path"

/-- The kind of a name. -/
def ofName? : String → Option TemplateKind
  | "template" => some .standard
  | "path" => some .path
  | _ => none

@[simp] theorem ofName?_name (k : TemplateKind) : ofName? k.name = some k := by cases k <;> rfl

/-- The group whose templates are paths. -/
def pathGroup : String := "path"

/-- The kind of a group's templates where none is given. -/
def ofGroup (group : String) : TemplateKind := if group = pathGroup then .path else .standard

end TemplateKind

end Stencil
