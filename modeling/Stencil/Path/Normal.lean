/-!
# Normal form of paths

A path is taken apart at both kinds of slash. Empty components and single dots vanish, two dots take
back the component before them, and what is left is joined with forward slashes. Nothing is looked
up on a disk.
-/

namespace Stencil.Path

/-- The two characters that separate components. -/
def isSeparator (c : Char) : Bool := c == '/' || c == '\\'

/-- Whether a path starts at the root. -/
def isAbsolute : List Char → Bool
  | [] => false
  | c :: _ => isSeparator c

/-- Takes one more component behind those kept so far, the last of which stands first. -/
def pushComponent (absolute : Bool) (kept : List (List Char)) (part : List Char) :
    List (List Char) :=
  if part = [] || part = ['.'] then kept
  else if part = ['.', '.'] then
    match kept with
    | [] => if absolute then [] else [part]
    | last :: before =>
      if last = ['.', '.'] then (if absolute then kept else part :: kept) else before
  else part :: kept

/-- The components that remain, in order. -/
def components (cs : List Char) : List (List Char) :=
  ((cs.splitOnP isSeparator).foldl (pushComponent (isAbsolute cs)) []).reverse

/-- A path in its normal form: the empty relative path is a single dot. -/
def normalizeChars (cs : List Char) : List Char :=
  let joined := ['/'].intercalate (components cs)
  if isAbsolute cs then '/' :: joined else if joined = [] then ['.'] else joined

/-- A path in its normal form. -/
def normalize (s : String) : String := .ofList (normalizeChars s.toList)

end Stencil.Path
