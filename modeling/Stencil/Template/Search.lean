import Stencil.Path.Glob
import Stencil.Template.Format
import Stencil.Template.Parse

/-!
# Paths of templates

What can be done with templates of paths alone: to take the template off the beginning of a path,
and to search a file tree for the paths that the template stands for.
-/

namespace Stencil

/-- Why a search cannot be started. -/
inductive SearchError where
  | format (e : FormatError)
  | glob (fault : Path.GlobFault)
deriving DecidableEq

/-- The wording of an error of searching. -/
def SearchError.message : SearchError → String
  | format e => e.message
  | glob fault => "Invalid glob pattern: " ++ fault.message

namespace Template

/-- The values of the tokens in the beginning of a path, and the rest of it in normal form. -/
def extractRelative (t : Template) (path : String) : Except ParseError (Fields × String) :=
  let cs := TemplateKind.path.prepare path.toList
  (t.matchWith t.leading (.ofList cs)).map fun r =>
    (r.1, .ofList (Path.normalizeChars ((cs.drop r.2).dropWhile (· = '/'))))

/-- The nested template that the template starts with. -/
def root? (t : Template) : Option Segment := t.segments.head?.filter Segment.isTemplate

/-- The text that stands for any value in a search. -/
def wildcard : String := "*"

/-- The pattern of a search, in which any value will do for some tokens. -/
def searchPattern (t : Template) (fields : Fields) (wildcards : List String) :
    Except FormatError String :=
  t.format fields ⟨.ofList (wildcards.map fun w => (w, wildcard)), true⟩

/-- What comes of a path that was found. -/
inductive Candidate where
  | accepted (path : String) (fields : Fields)
  | skipped (path : String) (reason : ParseError)

/-- What comes of the paths that a pattern stands for: those that the template parses are
accepted. -/
def candidates (t : Template) (g : Path.Glob) (base : FileTree) : List Candidate :=
  (g.search base).map fun path =>
    match t.parse path with
    | .ok fields => .accepted path fields
    | .error reason => .skipped path reason

/-- The path and the fields of a path that was accepted. -/
def Candidate.accepted? : Candidate → Option (String × Fields)
  | .accepted path fields => some (path, fields)
  | .skipped .. => none

/-- The paths that a template stands for, with their fields. -/
def search (t : Template) (fields : Fields) (wildcards : List String) (base : FileTree) :
    Except SearchError (List (String × Fields)) :=
  match t.searchPattern fields wildcards with
  | .error e => .error (.format e)
  | .ok pattern =>
    match Path.Glob.read pattern with
    | .error fault => .error (.glob fault)
    | .ok g => .ok ((t.candidates g base).filterMap Candidate.accepted?)

end Template

end Stencil
