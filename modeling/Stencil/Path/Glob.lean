import Stencil.Path.FileTree

/-!
# Wildcard patterns of paths

In a component of a pattern, `?` stands for one character, `*` for any number of them, and brackets
for one character out of a list. A component that is `**` stands for any number of directories.
Whether a pattern can be read is decided before anything is searched.
-/

namespace Stencil.Path

/-- Characters from a first to a last one. -/
structure CharRange where
  first : Char
  last : Char
deriving DecidableEq, Repr

/-- Whether a character lies in the range. -/
def CharRange.mem (r : CharRange) (c : Char) : Bool := r.first ≤ c && c ≤ r.last

/-- One sign of a component. -/
inductive GlobSign where
  | char (c : Char)
  | anyChar
  | anyText
  | oneOf (ranges : List CharRange)
  | noneOf (ranges : List CharRange)
deriving DecidableEq, Repr

/-- One component of a pattern. -/
inductive GlobComponent where
  /-- Signs, at least one of which stands for more than itself. -/
  | wild (signs : List GlobSign)
  | literal (name : String)
  /-- Any number of directories. -/
  | anyDepth
deriving DecidableEq, Repr

/-- A pattern of paths: the directory to start from, and the components. -/
structure Glob where
  base : String
  components : List GlobComponent
deriving DecidableEq, Repr

/-- Why a pattern cannot be read. -/
inductive GlobFault where
  | wildcards
  | anyDepthPlace
  | range
deriving DecidableEq, Repr

/-- The wording of a fault. -/
def GlobFault.message : GlobFault → String
  | wildcards => "wildcards are either regular * or recursive **"
  | anyDepthPlace => "recursive wildcards must form a single path component"
  | range => "invalid range pattern"

/-- The ranges that a bracket lists. -/
def charRanges : List Char → List CharRange
  | a :: '-' :: b :: cs => ⟨a, b⟩ :: charRanges cs
  | c :: cs => ⟨c, c⟩ :: charRanges cs
  | [] => []

/-- Takes a bracket: its first character belongs to the list whatever it is. -/
def takeBracket : List Char → Option (List Char × List Char)
  | [] => none
  | c :: cs =>
    if ']' ∈ cs then
      some (c :: cs.takeWhile (· ≠ ']'), (cs.dropWhile (· ≠ ']')).drop 1)
    else none

theorem length_takeBracket {cs inner rest : List Char} (h : takeBracket cs = some (inner, rest)) :
    rest.length < cs.length := by
  match cs, h with
  | c :: cs, h =>
    rw [takeBracket] at h
    split at h
    · have hr : (cs.dropWhile (· ≠ ']')).drop 1 = rest := congrArg Prod.snd (Option.some.inj h)
      have := (List.dropWhile_suffix (l := cs) fun c => decide (c ≠ ']')).length_le
      rw [← hr, List.length_drop, List.length_cons]
      omega
    · simp at h

/-- Reads the signs of a text. A double star is only allowed as a component; `start` says that one
starts here. -/
def readSigns (start : Bool) : List Char → Except GlobFault (List GlobSign)
  | [] => .ok []
  | '?' :: cs => (readSigns false cs).map (.anyChar :: ·)
  | '*' :: '*' :: '*' :: _ => .error .wildcards
  | '*' :: '*' :: [] => if start then .ok [.anyText] else .error .anyDepthPlace
  | '*' :: '*' :: c :: cs =>
    if start ∧ c = '/' then (readSigns true cs).map (.anyText :: ·) else .error .anyDepthPlace
  | '*' :: cs => (readSigns false cs).map (.anyText :: ·)
  | '[' :: '!' :: cs =>
    match h : takeBracket cs with
    | none => .error .range
    | some (inner, rest) =>
      have : rest.length < cs.length := length_takeBracket h
      (readSigns false rest).map (.noneOf (charRanges inner) :: ·)
  | '[' :: cs =>
    match h : takeBracket cs with
    | none => .error .range
    | some (inner, rest) =>
      have : rest.length < cs.length := length_takeBracket h
      (readSigns false rest).map (.oneOf (charRanges inner) :: ·)
  | c :: cs => (readSigns (c = '/') cs).map (.char c :: ·)
termination_by cs => cs.length

/-- The character of a sign that stands for itself. -/
def GlobSign.char? : GlobSign → Option Char
  | .char c => some c
  | _ => none

/-- Reads one component. -/
def readComponent (cs : List Char) : Except GlobFault GlobComponent :=
  if cs = ['*', '*'] then .ok .anyDepth
  else
    (readSigns true cs).map fun signs =>
      match signs.mapM GlobSign.char? with
      | some chars => .literal (.ofList chars)
      | none => .wild signs

/-- The directory that a path starts from, by its leading components, and the components behind
it. -/
def takeBase : List (List Char) → List (List Char) × List (List Char)
  | ['.', '.'] :: parts => (['.', '.'] :: (takeBase parts).1, (takeBase parts).2)
  | parts => ([], parts)

/-- Reads a pattern in the normal form of paths. -/
def Glob.read (pattern : String) : Except GlobFault Glob := do
  let cs := pattern.toList
  let _ ← readSigns true cs
  match cs with
  | '/' :: cs => return ⟨"/", ← ((cs.splitOn '/').filter (· ≠ [])).mapM readComponent⟩
  | _ =>
    let (up, parts) := takeBase (cs.splitOn '/')
    let base := if up = [] then "." else .ofList (['/'].intercalate up)
    return ⟨base, ← parts.mapM readComponent⟩

/-! ## Matching -/

/-- Whether signs stand for the whole of a name. -/
def matchSigns : List GlobSign → List Char → Bool
  | [], cs => cs = []
  | .anyText :: signs, [] => matchSigns signs []
  | .anyText :: signs, c :: cs => matchSigns signs (c :: cs) || matchSigns (.anyText :: signs) cs
  | _ :: _, [] => false
  | .char a :: signs, c :: cs => a = c && matchSigns signs cs
  | .anyChar :: signs, _ :: cs => matchSigns signs cs
  | .oneOf ranges :: signs, c :: cs => ranges.any (·.mem c) && matchSigns signs cs
  | .noneOf ranges :: signs, c :: cs => !ranges.any (·.mem c) && matchSigns signs cs
termination_by signs cs => (signs.length, cs.length)

/-- Whether a component stands for a name. -/
def GlobComponent.matchesName (name : String) : GlobComponent → Bool
  | .wild signs => matchSigns signs name.toList
  | .literal n => n = name
  | .anyDepth => true

/-- The special entries that signs with a leading dot may stand for, the one above first. -/
def specialEntries (l : Location) (signs : List GlobSign) : List Location :=
  if signs.head? = some (.char '.') then
    let path (name : String) :=
      if Location.isHere l.path then l.path ++ "/" ++ name else Location.join l.path name
    [("..", l.up (path "..")), (".", { l with path := path "." })].filterMap fun (name, place) =>
      if matchSigns signs name.toList then some place else none
  else []

/-- The places that components lead to from a place, in the order of the names on the way. A
component without signs is looked up and not compared. -/
def Glob.walk : List GlobComponent → Location → List Location
  | [], l => [l]
  | .literal name :: cs, l =>
    match l.follow? name with
    | some next => walk cs next
    | none => []
  | .wild signs :: cs, l =>
    if l.tree.isDirectory then
      (specialEntries l signs ++ l.entries.filter fun e =>
        matchSigns signs e.tree.name.toList).flatMap (walk cs)
    else []
  | .anyDepth :: .anyDepth :: cs, l => walk (.anyDepth :: cs) l
  | [.anyDepth], l => l.below.filter fun e => e.tree.isDirectory
  | .anyDepth :: c :: cs, l =>
    (l.below.filter fun e => c.matchesName e.tree.name).flatMap (walk cs)

/-- The paths below a pattern's base directory that the pattern stands for. -/
def Glob.search (g : Glob) (base : FileTree) : List String :=
  (walk g.components ⟨g.base, base, []⟩).map Location.path

end Stencil.Path
