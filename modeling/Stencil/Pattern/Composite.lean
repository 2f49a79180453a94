import Stencil.Pattern.Backtrack
import Stencil.Pattern.Reader

/-!
# Composite expressions

The expression of a template is put together from text, from the expressions of tokens and from
references to groups that came before. It is read by rules of its own:

* a part is repeated once at most, and a plus sign behind that holds to the preferred way;
* nothing can repeat a position or nothing at all;
* a brace that begins no count is a brace;
* a flag that is set holds to the end of the expression, unless a group of flags ends before;
* a name may be given again, and then stands for the latest group of that name.

A composite expression that needs no backtracking is matched by lists of spots, every other one by
backtracking.
-/

namespace Stencil.Pattern

namespace Composite

/-- Drops comments in parentheses, and blanks and comments where the flags allow them. The fuel
bounds their number. -/
def trim (f : Flags) : (fuel : Nat) → List Char → Except Fault (List Char)
  | 0, cs => .ok cs
  | fuel + 1, cs =>
    match cs with
    | '(' :: '?' :: '#' :: cs => do trim f fuel (← comment cs)
    | '#' :: cs =>
      if f.ignoreSpace then trim f fuel ((cs.dropWhile (· ≠ '\n')).drop 1) else .ok ('#' :: cs)
    | c :: cs =>
      if f.ignoreSpace ∧ c ∈ [' ', '\r', '\n', '\t'] then trim f fuel cs else .ok (c :: cs)
    | [] => .ok []
where
  /-- Drops the rest of a comment in parentheses. -/
  comment : List Char → Except Fault (List Char)
    | [] => .error .unclosedGroup
    | ')' :: cs => .ok cs
    | '\\' :: _ :: cs => comment cs
    | _ :: cs => comment cs

/-- Drops what stands between two signs. -/
def skip (f : Flags) (cs : List Char) : Except Fault (List Char) := trim f (cs.length + 1) cs

/-- What an escape sequence stands for, and the way to write it in a bracket. -/
structure Escaped where
  atom : Atom
  written : List Char

/-- Reads hexadecimal digits, of a fixed count or at most eight in braces. -/
def readHex (count : Nat) (cs : List Char) : Except Fault (Char × List Char) := do
  if count ≤ cs.length ∧ (cs.take count).all (fun c => (hexValue? c).isSome) then
    let (n, cs) ← readHexDigits {} count 0 cs
    return (← ofCodePoint n, cs)
  else
    match cs with
    | '{' :: cs =>
      if 8 < (cs.takeWhile (· ≠ '}')).length then throw .badCodePoint
      let (n, cs) ← readHexBrace {} false 0 cs
      return (← ofCodePoint n, cs)
    | _ => throw .badCodePoint

/-- Reads what follows a backslash. -/
def readEscape (f : Flags) (inBracket : Bool) : List Char → Except Fault (Escaped × List Char)
  | [] => .error .trailingBackslash
  | c :: cs =>
    let literal (d : Char) (cs : List Char) : Except Fault (Escaped × List Char) :=
      .ok (⟨.literal d, quoteMeta d⟩, cs)
    let position (a : Assertion) : Except Fault (Escaped × List Char) :=
      if inBracket then .error (.unknownEscape c) else .ok (⟨.position a, []⟩, cs)
    if c.isDigit then .error .backreference
    else if c ∈ ['d', 's', 'w', 'D', 'S', 'W'] then do
      let (a, cs) ← Pattern.readEscape f (c :: cs)
      return (⟨a, ['\\', c]⟩, cs)
    else if c = 'p' ∨ c = 'P' then do
      let (a, rest) ← Pattern.readEscape { f with ignoreSpace := false } (c :: cs)
      return (⟨a, '\\' :: c :: cs.take (cs.length - rest.length)⟩, rest)
    else if c ∈ ['x', 'u', 'U'] then do
      let (d, cs) ← readHex (if c = 'x' then 2 else if c = 'u' then 4 else 8) cs
      literal d cs
    else
      match c with
      | 'A' => position .textStart
      | 'z' => position .textEnd
      | 'b' =>
        if inBracket then literal '\x08' cs
        else if cs.head? = some '{' then .error (.unknownEscape c)
        else position (.wordBoundary true)
      | 'B' => position (.notWordBoundary true)
      | '<' => if inBracket then literal '<' cs else position (.wordStart true)
      | '>' => if inBracket then literal '>' cs else position (.wordEnd true)
      | 'a' => literal '\x07' cs
      | 'f' => literal '\x0c' cs
      | 't' => literal '\t' cs
      | 'n' => literal '\n' cs
      | 'r' => literal '\r' cs
      | 'v' => literal '\x0b' cs
      | 'e' => literal '\x1b' cs
      | _ => if c.isAlpha then .error (.unknownEscape c) else literal c cs
where
  /-- A character as it is written in a bracket to stand for itself. -/
  quoteMeta (c : Char) : List Char := if isMeta c then ['\\', c] else [c]

/-- Takes the text of a bracketed set up to the bracket that closes it, with its escape sequences
written in their plain form, the latest character first. -/
def takeBracket (f : Flags) :
    (fuel depth : Nat) → (taken : List Char) → List Char → Except Fault (List Char × List Char)
  | 0, _, _, _ => .error .unclosedBracket
  | _ + 1, _, _, [] => .error .unclosedBracket
  | fuel + 1, depth, taken, c :: cs =>
    if c = '\\' then
      match readEscape f true cs with
      | .error e => .error e
      | .ok (e, cs) => takeBracket f fuel depth (e.written.reverse ++ taken) cs
    else if c = '[' then takeBracket f fuel (depth + 1) ('[' :: taken) cs
    else if c = ']' then
      if depth = 0 then .ok (']' :: taken, cs) else takeBracket f fuel (depth - 1) (']' :: taken) cs
    else takeBracket f fuel depth (c :: taken) cs

/-- Takes the signs that do not close a bracket at its beginning, the latest first. -/
def takeFront : List Char → List Char × List Char
  | '^' :: ']' :: cs => ([']', '^'], cs)
  | '^' :: cs => (['^'], cs)
  | ']' :: cs => ([']'], cs)
  | cs => ([], cs)

/-- Reads a bracketed set behind its opening bracket. -/
def readBracket (f : Flags) (cs : List Char) : Except Fault (CharSet × List Char) := do
  let (front, cs) := takeFront cs
  let (taken, rest) ← takeBracket f (cs.length + 1) 0 front cs
  match ← Pattern.readBracket { ignoreCase := f.ignoreCase } taken.reverse with
  | (s, []) => return (s, rest)
  | _ => throw .unclosedBracket

/-- The number at the beginning of a text, if it is one that can be counted to. -/
def number? (cs : List Char) : Option Nat :=
  let ds := cs.takeWhile Char.isDigit
  if ds.isEmpty ∨ UInt64.size ≤ Decimal.value ds then none else some (Decimal.value ds)

/-- Reads the lower bound of a counted repetition, which may be left out before a comma. -/
def readMin? (f : Flags) (cs : List Char) : Option (Nat × List Char) := do
  let cs ← (skip f cs).toOption
  if cs.head? = some ',' then some (0, cs)
  else (number? cs).map (·, cs.dropWhile Char.isDigit)

/-- Reads the upper bound of a counted repetition, if there is one, and the closing brace. -/
def readMax? (f : Flags) (cs : List Char) : Option (Option Nat × List Char) := do
  let cs ← (skip f cs).toOption
  let max := number? cs
  match ← (skip f (if max.isSome then cs.dropWhile Char.isDigit else cs)).toOption with
  | '}' :: cs => some (max, cs)
  | _ => none

/-- Reads the bounds of a counted repetition behind its opening brace, if they are well written. -/
def readCount? (f : Flags) (cs : List Char) : Option (Nat × Option Nat × List Char) := do
  let (min, cs) ← readMin? f cs
  match ← (skip f cs).toOption with
  | '}' :: cs => some (min, some min, cs)
  | ',' :: cs => (readMax? f cs).map fun (max, cs) => (min, max, cs)
  | _ => none

/-- Whether a pattern can be repeated. -/
def isRepeatable : Pattern → Bool
  | .empty | .check _ => false
  | _ => true

/-- Takes the plus sign that holds a repetition to its preferred way. -/
def takeHold (p : Pattern) : List Char → Pattern × List Char
  | '+' :: cs => (.atomic p, cs)
  | cs => (p, cs)

/-- Repeats the last part, which no repetition sign may have followed yet. -/
def repeatLast (r : Reader) (min : Nat) (max : Option Nat) (rest : List Char) :
    Except Fault Reader := do
  match r.contents.items with
  | .part p true :: items =>
    if !isRepeatable p then throw .nothingToRepeat
    let (lazy, rest) := Reader.takeLazy (← skip r.flags rest)
    let (p, rest) := takeHold (.repeated p min max (lazy == r.flags.swapGreed)) rest
    return { r with contents := { r.contents with items := .part p false :: items }, rest }
  | _ => throw .nothingToRepeat

/-- The characters of group names. -/
def isNameChar (c : Char) : Bool := c == '_' || Unicode.isAlphanumeric c

/-- Opens a group with a name. -/
def openNamed (r : Reader) (cs : List Char) : Except Fault Reader :=
  match cs.takeWhile isNameChar, cs.dropWhile isNameChar with
  | c :: name, '>' :: rest =>
    { r with names := (.ofList (c :: name), r.groups + 1) :: r.names }.openCapture rest
  | _, _ => .error .badGroupName

/-- Reads a reference to a named group. -/
def readReference (r : Reader) (cs : List Char) : Except Fault Reader :=
  match cs.takeWhile isNameChar, cs.dropWhile isNameChar with
  | c :: name, ')' :: rest =>
    let written := String.ofList (c :: name)
    match r.names.lookup written with
    | some index => .ok (r.push (.again index) rest)
    | none => .error (.unknownGroup written)
  | _, _ => .error .badGroupName

/-- Reads the letters of flags. -/
def readFlags (f : Flags) (any on lastMinus : Bool) :
    List Char → Except Fault (Flags × Char × List Char)
  | [] => .error .unclosedGroup
  | c :: cs =>
    if c = ')' then if !any ∨ lastMinus then .error .badFlag else .ok (f, c, cs)
    else if c = ':' then if lastMinus then .error .badFlag else .ok (f, c, cs)
    else if c = '-' then if on then readFlags f true false true cs else .error .badFlag
    else if c = 'u' then if on then readFlags f true on false cs else .error .badFlag
    else if c = 'R' then .error .badFlag
    else
      match f.set? c on with
      | some f => readFlags f true on false cs
      | none => .error .badFlag

/-- Groups nested as deeply as this are refused. -/
def maxDepth : Nat := 64

/-- Reads the beginning of a group behind its parenthesis. -/
def readGroup (r : Reader) (cs : List Char) : Except Fault Reader := do
  if maxDepth ≤ r.opened.length + 1 then throw .tooManyGroups
  match ← skip r.flags cs with
  | '?' :: 'P' :: '<' :: rest => openNamed r rest
  | '?' :: 'P' :: '=' :: rest => readReference r rest
  | '?' :: '<' :: rest => openNamed r rest
  | '?' :: rest =>
    let (flags, stop, rest) ← readFlags r.flags false true false rest
    if stop = ':' then r.openGroup none flags rest
    else
      return { r with
        flags, rest,
        contents := { r.contents with items := .part .empty true :: r.contents.items } }
  | cs => r.openCapture cs

/-- Closes the innermost group; one that is remembered leaves the flags as they are. -/
def closeGroup (r : Reader) (rest : List Char) : Except Fault Reader :=
  match r.opened with
  | [] => .error .unopenedGroup
  | o :: opened =>
    match o.index with
    | some index =>
      .ok { r with contents := o.outer.push (.group index r.contents.close), opened, rest }
    | none =>
      .ok { r with contents := o.outer.push r.contents.close, opened, flags := o.flags, rest }

/-- Whether a brace can begin a count here. -/
def expectsCount (r : Reader) : Bool :=
  match r.contents.items with
  | .part _ fresh :: _ => fresh
  | _ => false

/-- Reads on behind a sign. -/
def readSign (r : Reader) (c : Char) (cs : List Char) : Except Fault Reader :=
  match c with
  | '(' => readGroup r cs
  | ')' => closeGroup r cs
  | '|' => .ok { r with contents := r.contents.alternate, rest := cs }
  | '[' => do
    let (s, cs) ← readBracket r.flags cs
    return r.push (.one s) cs
  | '?' => repeatLast r 0 (some 1) cs
  | '*' => repeatLast r 0 none cs
  | '+' => repeatLast r 1 none cs
  | '{' =>
    match if expectsCount r then readCount? r.flags cs else none with
    | some (min, max, cs) => repeatLast r min max cs
    | none => .ok (r.push (r.literal '{') cs)
  | '\\' => do
    let (e, cs) ← readEscape r.flags false cs
    return r.pushAtom e.atom cs
  | '.' => do return r.push (← r.dot) cs
  | '^' => .ok (r.push r.caret cs)
  | '$' => .ok (r.push r.dollar cs)
  | c => .ok (r.push (r.literal c) cs)

/-- Reads one sign of a composite expression. -/
def step (r : Reader) : Except Fault Reader := do
  match ← skip r.flags r.rest with
  | [] => return { r with rest := [] }
  | c :: cs => readSign r c cs

/-- Reads a composite expression. -/
def readChars (cs : List Char) : Except Fault Expression := do
  Expression.ofReader (← Reader.run step (cs.length + 1) (.start cs))

/-- Reads a composite expression. -/
def read (s : String) : Except Fault Expression := readChars s.toList

end Composite

/-- The leftmost match of a composite expression. -/
def Expression.searchComposite (e : Expression) (text : Array Char) : Search :=
  if e.pattern.needsBacktracking then backtrack .standard text e.pattern
  else
    match search text e.pattern with
    | some f => .found f
    | none => .none

end Stencil.Pattern
