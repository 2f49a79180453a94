/-!
# File trees

Directories with their entries, and files with their contents. A place in a tree is known by the
path that leads to it and by the directories on the way.
-/

namespace Stencil

/-- A file or a directory with its name; the entries of a directory stand in the order of their
names. -/
inductive FileTree where
  | file (name content : String)
  | directory (name : String) (entries : List FileTree)
deriving Inhabited

namespace FileTree

/-- The name of a file or a directory. -/
def name : FileTree → String
  | file n _ => n
  | directory n _ => n

/-- Whether it is a directory. -/
def isDirectory : FileTree → Bool
  | file .. => false
  | directory .. => true

/-- The entries of a directory; a file has none. -/
def entries : FileTree → List FileTree
  | file .. => []
  | directory _ es => es

/-- The directory without a name and without entries. -/
def empty : FileTree := directory "" []

/-- The entry of a name. -/
def entry? (t : FileTree) (name : String) : Option FileTree :=
  t.entries.find? fun e => e.name = name

/-- Entries with one more, in the place of one that has its name already. -/
def placeEntry (e : FileTree) : List FileTree → List FileTree
  | [] => [e]
  | f :: fs =>
    if f.name = e.name then e :: fs
    else if e.name < f.name then e :: f :: fs
    else f :: placeEntry e fs

/-- The tree with a file or a directory put in at a path, and with the directories on the way. -/
def insertAt (t : FileTree) (node : String → FileTree) : (path : List String) → FileTree
  | [] => t
  | [n] => directory t.name (placeEntry (node n) t.entries)
  | n :: m :: path =>
    let inner := (t.entry? n).getD (directory n [])
    directory t.name (placeEntry (insertAt (directory n inner.entries) node (m :: path)) t.entries)

/-- What stands at a path. -/
def find? (t : FileTree) : (path : List String) → Option FileTree
  | [] => some t
  | n :: path => (t.entry? n).bind fun e => e.find? path

end FileTree

/-- A place in a file tree. -/
structure Location where
  path : String
  tree : FileTree
  /-- The directories on the way, the nearest one first. -/
  above : List FileTree
deriving Inhabited

namespace Location

/-- Whether a path says no more than where one is. -/
def isHere (path : String) : Bool := (path.toList.splitOn '/').all (· == ['.'])

/-- A path with one more component; what lies in the working directory is known by its name
alone. -/
def join (path name : String) : String :=
  if isHere path then name else if path.endsWith "/" then path ++ name else path ++ "/" ++ name

/-- The place of an entry. -/
def enter (l : Location) (e : FileTree) : Location := ⟨join l.path e.name, e, l.tree :: l.above⟩

/-- The places of the entries, in the order of their names. -/
def entries (l : Location) : List Location := l.tree.entries.map l.enter

/-- The directory above at a path; nothing is known of what lies above the outermost one. -/
def up (l : Location) (path : String) : Location :=
  match l.above with
  | [] => ⟨path, .empty, []⟩
  | t :: above => ⟨path, t, above⟩

/-- The place that one component leads to: a directory itself by a single dot, the one above it by
two dots, and an entry by its name. -/
def follow? (l : Location) (component : String) : Option Location :=
  if component = "." then
    if l.tree.isDirectory then some { l with path := join l.path component } else none
  else if component = ".." then
    if l.tree.isDirectory then some (l.up (join l.path component)) else none
  else (l.tree.entry? component).map l.enter

mutual

/-- The places below an entry of a directory, itself first. -/
def belowEntry (path : String) (above : List FileTree) : FileTree → List Location
  | .file n c => [⟨join path n, .file n c, above⟩]
  | .directory n es =>
    ⟨join path n, .directory n es, above⟩ ::
      belowEntries (join path n) (.directory n es :: above) es

/-- The places below the entries of a directory. -/
def belowEntries (path : String) (above : List FileTree) : List FileTree → List Location
  | [] => []
  | e :: es => belowEntry path above e ++ belowEntries path above es

end

/-- All places below a place, each directory before what it holds. -/
def below (l : Location) : List Location := belowEntries l.path (l.tree :: l.above) l.tree.entries

end Location

/-- Why a file cannot be read. -/
inductive ReadFault where
  | missing
  | notDirectory
  | isDirectory
  | denied
  | notText
deriving DecidableEq, Repr

/-- The wording of a fault. -/
def ReadFault.message : ReadFault → String
  | missing => "No such file or directory (os error 2)"
  | notDirectory => "Not a directory (os error 20)"
  | isDirectory => "Is a directory (os error 21)"
  | denied => "Permission denied (os error 13)"
  | notText => "stream did not contain valid UTF-8"

/-- The content of the file that components lead to from a place. -/
def Location.read (l : Location) : List String → Except ReadFault String
  | [] =>
    match l.tree with
    | .file _ content => .ok content
    | .directory .. => .error .isDirectory
  | c :: cs =>
    if !l.tree.isDirectory then .error .notDirectory
    else if c = "" ∨ c = "." then l.read cs
    else if c = ".." then (l.up l.path).read cs
    else
      match l.tree.entry? c with
      | some e => (l.enter e).read cs
      | none => .error .missing

/-- The content of the file at a path from a directory; nothing is known of absolute paths. -/
def FileTree.read (t : FileTree) (path : String) : Except ReadFault String :=
  let components := (path.toList.splitOn '/').map String.ofList
  if path = "" then .error .missing
  else Location.read ⟨".", if path.startsWith "/" then .empty else t, []⟩ components

end Stencil
