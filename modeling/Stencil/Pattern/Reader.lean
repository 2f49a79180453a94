import Stencil.Pattern.Bracket
import Stencil.Pattern.Match
import Stencil.Pattern.Size
import Stencil.Text.Decimal

/-!
# Reading expressions

An expression is read from left to right. The groups that are open are kept with what was read
before them, the innermost first; a group brings back the flags at its end. `Expression.read` gives
the pattern of an expression and the numbers of its named groups.
-/

namespace Stencil.Pattern

/-- A part of an alternative. -/
inductive Item where
  /-- A pattern; `fresh` tells that no repetition sign has followed it yet. -/
  | part (p : Pattern) (fresh : Bool)
  /-- A setting of flags, which nothing can repeat. -/
  | setting

/-- What a part adds to its alternative. -/
def Item.pattern? : Item → Option Pattern
  | .part p _ => some p
  | .setting => none

/-- The contents of a group that is being read: the parts of the current alternative and the
alternatives before it, the latest first. -/
structure Contents where
  items : List Item
  branches : List Pattern

namespace Contents

/-- No contents yet. -/
def empty : Contents := ⟨[], []⟩

/-- The contents with one more part. -/
def push (c : Contents) (p : Pattern) : Contents := { c with items := .part p true :: c.items }

/-- The pattern of the current alternative. -/
def branch (c : Contents) : Pattern := Pattern.concat (c.items.filterMap Item.pattern?).reverse

/-- The contents where a new alternative begins. -/
def alternate (c : Contents) : Contents := ⟨[], c.branch :: c.branches⟩

/-- The pattern of all alternatives. -/
def close (c : Contents) : Pattern := Pattern.choice (c.branch :: c.branches).reverse

end Contents

/-- A group that is open: what was read before it, the flags to come back to and the number under
which it is remembered. -/
structure OpenGroup where
  outer : Contents
  flags : Flags
  index : Option Nat

/-- The state of reading an expression. -/
structure Reader where
  flags : Flags
  contents : Contents
  opened : List OpenGroup
  /-- How many groups are remembered so far. -/
  groups : Nat
  /-- The names of groups with their numbers, the latest first. -/
  names : List (String × Nat)
  rest : List Char

namespace Reader

/-- The state at the beginning of an expression. -/
def start (cs : List Char) : Reader := ⟨{}, .empty, [], 0, [], cs⟩

/-- Adds a part. -/
def push (r : Reader) (p : Pattern) (rest : List Char) : Reader :=
  { r with contents := r.contents.push p, rest }

/-- The set under the flags, as a part of a pattern. -/
def literal (r : Reader) (c : Char) : Pattern :=
  .one (.foldIf r.flags.ignoreCase r.flags.wide (.single c))

/-- The pattern of a dot. -/
def dot (r : Reader) : Except Fault Pattern :=
  if !r.flags.wide then .error .notText
  else if r.flags.dotAll then .ok (.one .all)
  else if r.flags.returns then .ok (.one (.complement (.ofChars ['\r', '\n'])))
  else .ok (.one (.complement (.single '\n')))

/-- The pattern of a caret. -/
def caret (r : Reader) : Pattern :=
  .check (if r.flags.multiLine then .lineStart r.flags.returns else .textStart)

/-- The pattern of a dollar sign. -/
def dollar (r : Reader) : Pattern :=
  .check (if r.flags.multiLine then .lineEnd r.flags.returns else .textEnd)

/-- The deepest nesting of groups. -/
def maxDepth : Nat := 245

/-- Opens a group. -/
def openGroup (r : Reader) (index : Option Nat) (flags : Flags) (rest : List Char) :
    Except Fault Reader :=
  if maxDepth ≤ r.opened.length then .error .tooManyGroups
  else .ok { r with
    contents := .empty, opened := ⟨r.contents, r.flags, index⟩ :: r.opened, flags, rest }

/-- Opens a group that is remembered. -/
def openCapture (r : Reader) (rest : List Char) : Except Fault Reader :=
  { r with groups := r.groups + 1 }.openGroup (some (r.groups + 1)) r.flags rest

/-- The characters of group names. -/
def isGroupNameChar (first : Bool) (c : Char) : Bool :=
  if first then c == '_' || Unicode.isAlphabetic c
  else c == '_' || c == '.' || c == '[' || c == ']' || Unicode.isAlphanumeric c

/-- Opens a group with a name. -/
def openNamed (r : Reader) (cs : List Char) : Except Fault Reader :=
  let written := cs.takeWhile (· ≠ '>')
  match cs.dropWhile (· ≠ '>'), written with
  | _ :: rest, c :: name =>
    let text := String.ofList written
    if !(isGroupNameChar true c && name.all (isGroupNameChar false)) then .error .badGroupName
    else if (r.names.lookup text).isSome then .error (.duplicateGroupName text)
    else { r with names := (text, r.groups + 1) :: r.names }.openCapture rest
  | _, _ => .error .badGroupName

/-- Reads the letters of flags. A minus sign turns those behind it off; no letter stands twice. -/
def readFlags (f : Flags) (seen : List Char) (on lastMinus : Bool) :
    List Char → Except Fault (Flags × Char × Bool × List Char)
  | [] => .error .badFlag
  | c :: cs =>
    if c = ':' ∨ c = ')' then
      if lastMinus then .error .badFlag else .ok (f, c, seen.isEmpty, cs)
    else if c = '-' then
      if on then readFlags f ('-' :: seen) false true cs else .error .badFlag
    else if seen.contains c then .error .badFlag
    else
      match f.set? c on with
      | some f => readFlags f (c :: seen) on false cs
      | none => .error .badFlag

/-- Whether a group looks ahead or behind. -/
def looksAround (cs : List Char) : Bool :=
  ["?=", "?!", "?<=", "?<!"].any fun s => s.toList.isPrefixOf cs

/-- Reads the beginning of a group behind its parenthesis. -/
def readGroup (r : Reader) (cs : List Char) : Except Fault Reader :=
  let cs := r.flags.trim cs
  if looksAround cs then .error .lookAround
  else
    match cs with
    | '?' :: 'P' :: '<' :: rest => r.openNamed rest
    | '?' :: '<' :: rest => r.openNamed rest
    | '?' :: rest => do
      let (flags, stop, bare, rest) ← readFlags r.flags [] true false rest
      if stop = ':' then r.openGroup none flags rest
      else if bare then throw .nothingToRepeat
      else return { r with
        flags, rest, contents := { r.contents with items := .setting :: r.contents.items } }
    | _ => r.openCapture cs

/-- Closes the innermost group. -/
def closeGroup (r : Reader) (rest : List Char) : Except Fault Reader :=
  match r.opened with
  | [] => .error .unopenedGroup
  | o :: opened =>
    let p := match o.index with
      | some index => .group index r.contents.close
      | none => r.contents.close
    .ok { r with contents := o.outer.push p, opened, flags := o.flags, rest }

/-- Repeats the last part. -/
def repeatLast (r : Reader) (min : Nat) (max : Option Nat) (lazy : Bool) (rest : List Char) :
    Except Fault Reader :=
  match r.contents.items with
  | .part p _ :: items =>
    let p := Pattern.repeated p min max (lazy == r.flags.swapGreed)
    .ok { r with contents := { r.contents with items := .part p false :: items }, rest }
  | _ => .error .nothingToRepeat

/-- Takes the question mark that makes a repetition lazy. -/
def takeLazy : List Char → Bool × List Char
  | '?' :: cs => (true, cs)
  | cs => (false, cs)

/-- The numbers of rounds that can be written. -/
def countLimit : Nat := UInt32.size

/-- Reads a number of rounds with the blanks around it. -/
def readCount (f : Flags) (cs : List Char) : Except Fault (Option Nat × List Char) :=
  let cs := cs.dropWhile Unicode.isSpace
  let inside (c : Char) : Bool := c.isDigit || (f.ignoreSpace && Unicode.isSpace c)
  let digits := (cs.takeWhile inside).filter Char.isDigit
  let rest := (cs.dropWhile inside).dropWhile Unicode.isSpace
  if digits.isEmpty then .ok (none, rest)
  else if countLimit ≤ Decimal.value digits then .error .badRepetition
  else .ok (some (Decimal.value digits), rest)

/-- Reads the upper bound of a counted repetition behind the lower one. -/
def readUpper (f : Flags) (min : Option Nat) (cs : List Char) :
    Except Fault (Option Nat × List Char) :=
  match cs with
  | ',' :: cs =>
    match f.trim cs with
    | '}' :: cs => .ok (none, '}' :: cs)
    | cs => do
      let (max, cs) ← readCount f cs
      if max.isNone then throw .badRepetition
      return (max, cs)
  | cs => .ok (min, cs)

/-- Reads a counted repetition behind its opening brace. -/
def readCounted (r : Reader) (cs : List Char) : Except Fault Reader := do
  let (min, cs) ← readCount r.flags (r.flags.trim cs)
  let (max, cs) ← readUpper r.flags min cs
  match min, cs with
  | some min, '}' :: cs =>
    if max.any (· < min) then throw .badRepetition
    let (lazy, cs) := takeLazy (r.flags.trim cs)
    r.repeatLast min max lazy cs
  | _, _ => throw .badRepetition

/-- Adds what an escape sequence stands for. -/
def pushAtom (r : Reader) (a : Atom) (rest : List Char) : Reader :=
  match a with
  | .literal c => r.push (r.literal c) rest
  | .set s => r.push (.one s) rest
  | .position a => r.push (.check a) rest

/-- Reads on behind a sign. -/
def readSign (r : Reader) (c : Char) (cs : List Char) : Except Fault Reader :=
  match c with
  | '(' => r.readGroup cs
  | ')' => r.closeGroup cs
  | '|' => .ok { r with contents := r.contents.alternate, rest := cs }
  | '[' => do
    let (s, cs) ← readBracket r.flags cs
    return r.push (.one s) cs
  | '?' => let (lazy, cs) := takeLazy cs; r.repeatLast 0 (some 1) lazy cs
  | '*' => let (lazy, cs) := takeLazy cs; r.repeatLast 0 none lazy cs
  | '+' => let (lazy, cs) := takeLazy cs; r.repeatLast 1 none lazy cs
  | '{' => r.readCounted cs
  | '\\' => do
    let (a, cs) ← readEscape r.flags cs
    return r.pushAtom a cs
  | '.' => do return r.push (← r.dot) cs
  | '^' => .ok (r.push r.caret cs)
  | '$' => .ok (r.push r.dollar cs)
  | c => .ok (r.push (r.literal c) cs)

/-- Reads one sign of an expression. -/
def step (r : Reader) : Except Fault Reader :=
  match r.flags.trim r.rest with
  | [] => .ok { r with rest := [] }
  | c :: cs => r.readSign c cs

/-- Reads signs to the end. The fuel bounds their number. -/
def run (step : Reader → Except Fault Reader) : (fuel : Nat) → Reader → Except Fault Reader
  | 0, r => .ok r
  | fuel + 1, r => if r.rest.isEmpty then .ok r else do run step fuel (← step r)

end Reader

/-- A pattern with the numbers of its named groups, the latest first. -/
structure Expression where
  pattern : Pattern
  names : List (String × Nat)
deriving DecidableEq, Repr

namespace Expression

/-- What a reader at the end of an expression has read. -/
def ofReader (r : Reader) : Except Fault Expression :=
  if !r.opened.isEmpty then .error .unclosedGroup
  else
    let pattern := r.contents.close
    if Pattern.sizeLimit < pattern.size then .error .tooLarge else .ok ⟨pattern, r.names⟩

/-- Reads an expression. -/
def readChars (cs : List Char) : Except Fault Expression := do
  ofReader (← Reader.run Reader.step (cs.length + 1) (.start cs))

/-- Reads an expression. -/
def read (s : String) : Except Fault Expression := readChars s.toList

/-- Where a named group lies in a match. -/
def named? (e : Expression) (f : Found) (name : String) : Option (Nat × Nat) :=
  (e.names.lookup name).bind f.stop.group?

end Expression

end Stencil.Pattern
