import Stencil.Toml.Number
import Stencil.Toml.Table

/-!
# Documents in TOML

A document is a sequence of lines: keys with values, and headers that open tables. `Toml.read` gives
what a document holds, or nothing if it is malformed.
-/

namespace Stencil.Toml

/-! ## Keys -/

/-- Whether a character may stand in a key without quotes. -/
def isBareKey (c : Char) : Bool := c.isAlphanum || c = '_' || c = '-'

/-- Drops blanks within a line. -/
def dropBlanks (cs : List Char) : List Char := cs.dropWhile isBlank

/-- One key. -/
def simpleKey : List Char → Option (String × List Char)
  | '"' :: cs => (basic cs).map fun r => (.ofList r.1, r.2)
  | '\'' :: cs => (literal cs).map fun r => (.ofList r.1, r.2)
  | cs =>
    let ks := cs.takeWhile isBareKey
    if ks = [] then none else some (.ofList ks, cs.dropWhile isBareKey)

/-- How deeply tables and lists may be nested. -/
def depthLimit : Nat := 79

/-- Keys with dots between them, at most so many. -/
def dottedKeys : (limit : Nat) → List Char → Option (List String × List Char)
  | 0, _ => none
  | limit + 1, cs => do
    let (k, cs) ← simpleKey (dropBlanks cs)
    match dropBlanks cs with
    | '.' :: cs =>
      let (ks, cs) ← dottedKeys limit cs
      return (k :: ks, cs)
    | cs => return ([k], cs)

/-- Dotted keys: those on the way and the last one. -/
def keyPath (cs : List Char) : Option ((List String × String) × List Char) := do
  let (ks, cs) ← dottedKeys depthLimit cs
  return ((ks.dropLast, ← ks.getLast?), cs)

/-! ## Values -/

/-- Drops a comment up to the end of its line. -/
def dropComment : List Char → Option (List Char)
  | '#' :: cs =>
    let rest := cs.dropWhile isPlain
    if rest = [] ∨ (lineEnd? rest).isSome then some rest else none
  | cs => some cs

/-- Drops blanks, ends of lines and comments. -/
def dropSpace : (fuel : Nat) → List Char → Option (List Char)
  | 0, cs => some cs
  | fuel + 1, cs =>
    match dropBlankLines cs with
    | '#' :: cs => (dropComment ('#' :: cs)).bind (dropSpace fuel)
    | cs => some cs

/-- Drops blanks, ends of lines and comments. -/
def dropAllSpace (cs : List Char) : Option (List Char) := dropSpace (cs.length + 1) cs

/-- The items of a list behind its opening bracket; a comma may follow the last one. -/
def items (item : List Char → Option (Datum × List Char)) :
    (fuel : Nat) → List Char → Option (List Datum × List Char)
  | 0, _ => none
  | fuel + 1, cs => do
    match ← dropAllSpace cs with
    | ']' :: cs => return ([], cs)
    | cs =>
      let (d, cs) ← item cs
      match ← dropAllSpace cs with
      | ']' :: cs => return ([d], cs)
      | ',' :: cs =>
        let (ds, cs) ← items item fuel cs
        return (d :: ds, cs)
      | _ => none

/-- A key with its value, and the rest behind the blanks. -/
def assignment (item : List Char → Option (Datum × List Char)) (cs : List Char) :
    Option ((List String × String) × Datum × List Char) := do
  let (path, cs) ← keyPath cs
  let (d, cs) ← item (dropBlanks (← expect '=' cs))
  return (path, d, dropBlanks cs)

/-- The keys with their values in a table within braces, added to those before. -/
def fields (item : List Char → Option (Datum × List Char)) :
    (fuel : Nat) → List Node → List Char → Option (List Node × List Char)
  | 0, _, _ => none
  | fuel + 1, done, cs => do
    let ((path, key), d, cs) ← assignment item cs
    let done ← Node.insert path key d done
    match cs with
    | '}' :: cs => return (done, cs)
    | ',' :: cs => fields item fuel done cs
    | _ => none

/-- A table behind its opening brace. -/
def inlineTable (item : List Char → Option (Datum × List Char)) (cs : List Char) :
    Option (Datum × List Char) :=
  match dropBlanks cs with
  | '}' :: cs => some (.table [], cs)
  | cs => (fields item (cs.length + 1) [] cs).map fun r => (.table (Node.entries r.1), r.2)

/-- A value that is neither a list nor a table. -/
def scalar : List Char → Option (Datum × List Char)
  | 't' :: 'r' :: 'u' :: 'e' :: cs => some (.bool true, cs)
  | 'f' :: 'a' :: 'l' :: 's' :: 'e' :: cs => some (.bool false, cs)
  | c :: cs =>
    if c = '"' ∨ c = '\'' then (text (c :: cs)).map fun r => (.text (.ofList r.1), r.2)
    else numberOrMoment (c :: cs)
  | [] => none

/-- A value that is nested at most so deeply. -/
def value : (depth : Nat) → List Char → Option (Datum × List Char)
  | 0, cs => scalar cs
  | depth + 1, cs =>
    match cs with
    | '[' :: cs => (items (value depth) (cs.length + 1) cs).map fun r => (.list r.1, r.2)
    | '\x7b' :: cs => inlineTable (value depth) cs
    | cs => scalar cs

/-! ## Lines -/

/-- What has been read: the tables, and the way to the one that is open. -/
structure Reading where
  root : List Node
  current : List String

/-- The rest behind blanks, a comment and the end of a line. -/
def lineRest (cs : List Char) : Option (List Char) := do
  match ← dropComment (dropBlanks cs) with
  | [] => return []
  | cs => lineEnd? cs

/-- Reads a header behind its first bracket. -/
def header (r : Reading) : List Char → Option (Reading × List Char)
  | '[' :: cs => do
    let ((path, key), cs) ← keyPath cs
    let cs ← expect ']' (← expect ']' cs)
    return (⟨← Node.openItem path key r.root, path ++ [key]⟩, cs)
  | cs => do
    let ((path, key), cs) ← keyPath cs
    let cs ← expect ']' cs
    return (⟨← Node.openTable path key r.root, path ++ [key]⟩, cs)

/-- Reads a key with its value into the open table. -/
def line (r : Reading) (cs : List Char) : Option (Reading × List Char) := do
  let ((path, key), d, cs) ← assignment (value depthLimit) cs
  let add (_ : Origin) (inner : List Node) : Option (List Node) := Node.insert path key d inner
  return ({ r with root := ← Node.update false add .header r.current r.root }, cs)

/-- Reads lines. -/
def lines : (fuel : Nat) → Reading → List Char → Option Reading
  | 0, r, _ => some r
  | fuel + 1, r, cs => do
    match ← dropAllSpace cs with
    | [] => return r
    | '[' :: cs =>
      let (r, cs) ← header r cs
      lines fuel r (← lineRest cs)
    | cs =>
      let (r, cs) ← line r cs
      lines fuel r (← lineRest cs)

/-- What a document holds; a mark of the byte order in front of it is dropped. -/
def read (document : String) : Option Datum := do
  let cs := match document.toList with
    | '\ufeff' :: cs => cs
    | cs => cs
  let r ← lines (cs.length + 1) ⟨[], []⟩ cs
  return .table (Node.entries r.root)

end Stencil.Toml
