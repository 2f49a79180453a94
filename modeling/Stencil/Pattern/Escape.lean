import Stencil.Pattern.Basic
import Stencil.Pattern.Fault
import Stencil.Pattern.Flags

/-!
# Escape sequences

What a backslash and the characters after it stand for in an expression.
-/

namespace Stencil.Pattern

/-- What an escape sequence stands for. -/
inductive Atom where
  | literal (c : Char)
  | set (s : CharSet)
  | position (a : Assertion)
deriving Repr

/-- Characters that mean something in an expression when no backslash stands before them. -/
def isMeta (c : Char) : Bool :=
  c ∈ ['\\', '.', '+', '*', '?', '(', ')', '|', '[', ']', '{', '}', '^', '$', '#', '&', '-', '~']

/-- The value of a hexadecimal digit. -/
def hexValue? (c : Char) : Option Nat :=
  if c.isDigit then some (c.toNat - 48)
  else if 'a' ≤ c ∧ c ≤ 'f' then some (c.toNat - 87)
  else if 'A' ≤ c ∧ c ≤ 'F' then some (c.toNat - 55)
  else none

/-- The character of a code point. -/
def ofCodePoint (n : Nat) : Except Fault Char :=
  if n.isValidChar then .ok (Char.ofNat n) else .error .badCodePoint

/-- Reads exactly so many hexadecimal digits. -/
def readHexDigits (f : Flags) : (count value : Nat) → List Char → Except Fault (Nat × List Char)
  | 0, value, cs => .ok (value, cs)
  | _ + 1, _, [] => .error .badCodePoint
  | count + 1, value, c :: cs =>
    match hexValue? c with
    | some v => readHexDigits f count (16 * value + v) (f.trim cs)
    | none => .error .badCodePoint

/-- Reads hexadecimal digits up to a closing brace; `seen` tells whether there was one already. -/
def readHexBrace (f : Flags) (seen : Bool) (value : Nat) :
    List Char → Except Fault (Nat × List Char)
  | [] => .error .badCodePoint
  | c :: cs =>
    if c = '}' then if seen then .ok (value, cs) else .error .badCodePoint
    else if f.ignoreSpace && Unicode.isSpace c then readHexBrace f seen value cs
    else
      match hexValue? c with
      | some v => readHexBrace f true (16 * value + v) cs
      | none => .error .badCodePoint

/-- Reads a code point, in braces or of a fixed count of digits. -/
def readHex (f : Flags) (count : Nat) (cs : List Char) : Except Fault (Char × List Char) := do
  let (n, cs) ←
    match f.trim cs with
    | '{' :: cs => readHexBrace f false 0 cs
    | cs => readHexDigits f count 0 cs
  return (← ofCodePoint n, cs)

/-- Splits a text at the first occurrence of one that is not empty. -/
def splitAt? (separator : List Char) : List Char → Option (List Char × List Char)
  | [] => none
  | c :: cs =>
    if separator.isPrefixOf (c :: cs) then some ([], (c :: cs).drop separator.length)
    else (splitAt? separator cs).map fun (a, b) => (c :: a, b)

/-- The property that stands between the braces, and whether it is negated there. -/
def namedProperty? (written : List Char) : Option (Bool × Unicode.Property) :=
  match splitAt? ['!', '='] written with
  | some (kind, value) => (Unicode.Property.ofValue? kind value).map (true, ·)
  | none =>
    match splitAt? [':'] written with
    | some (kind, value) => (Unicode.Property.ofValue? kind value).map (false, ·)
    | none =>
      match splitAt? ['='] written with
      | some (kind, value) => (Unicode.Property.ofValue? kind value).map (false, ·)
      | none => (Unicode.Property.ofName? written).map (false, ·)

/-- Takes the text of a property, which is a single letter or stands in braces. -/
def takeProperty (f : Flags) (cs : List Char) : Except Fault (List Char × List Char) :=
  match f.trim cs with
  | [] => .error .trailingBackslash
  | '{' :: cs =>
    match cs.dropWhile (· ≠ '}') with
    | _ :: rest => .ok (cs.takeWhile (· ≠ '}'), rest)
    | [] => .error .trailingBackslash
  | c :: cs => if c = '\\' then .error .unknownProperty else .ok ([c], cs)

/-- Reads a property. -/
def readProperty (f : Flags) (negated : Bool)
    (cs : List Char) : Except Fault (Atom × List Char) := do
  if !f.wide then throw .unknownProperty
  let (written, cs) ← takeProperty f cs
  match namedProperty? written with
  | some (inner, p) =>
    let set := CharSet.foldIf f.ignoreCase true (.property p)
    return (.set (.complementIf (negated != inner) set), cs)
  | none => throw .unknownProperty

/-- The ASCII sets of the letter classes. -/
def asciiClass (letter : Char) : CharSet :=
  if letter = 'd' then .range '0' '9'
  else if letter = 's' then .union (.range '\t' '\r') (.single ' ')
  else .unions [.range '0' '9', .range 'A' 'Z', .single '_', .range 'a' 'z']

/-- The sets of the letter classes. -/
def letterClass (f : Flags) (letter : Char) : CharSet :=
  if !f.wide then asciiClass letter
  else if letter = 'd' then .property .digit
  else if letter = 's' then .property .whiteSpace
  else .property .word

/-- The special word boundaries. -/
def wordBoundary? (f : Flags) (name : List Char) : Option Assertion :=
  if name = "start".toList then some (.wordStart f.wide)
  else if name = "end".toList then some (.wordEnd f.wide)
  else if name = "start-half".toList then some (.wordStartHalf f.wide)
  else if name = "end-half".toList then some (.wordEndHalf f.wide)
  else none

/-- Reads what follows the letter of a word boundary. A brace may name a special one, but it may
also begin a repetition. -/
def readBoundary (f : Flags) (cs : List Char) : Except Fault (Atom × List Char) :=
  match cs with
  | '{' :: inner =>
    let isNameChar (c : Char) : Bool := c.isAlpha || c == '-'
    match f.trim inner with
    | [] => .error .badRepetition
    | c :: cs' =>
      if !isNameChar c then .ok (.position (.wordBoundary f.wide), cs)
      else
        match (c :: cs').dropWhile isNameChar with
        | '}' :: rest =>
          match wordBoundary? f ((c :: cs').takeWhile isNameChar) with
          | some a => .ok (.position a, rest)
          | none => .error .badRepetition
        | _ => .error .badRepetition
  | _ => .ok (.position (.wordBoundary f.wide), cs)

/-- Reads what follows a backslash. -/
def readEscape (f : Flags) : List Char → Except Fault (Atom × List Char)
  | [] => .error .trailingBackslash
  | c :: cs =>
    if c.isDigit then .error .backreference
    else if c ∈ ['x', 'u', 'U'] then do
      let (d, cs) ← readHex f (if c = 'x' then 2 else if c = 'u' then 4 else 8) cs
      return (.literal d, if f.ignoreSpace then f.trim cs else cs)
    else if c = 'p' ∨ c = 'P' then readProperty f (c = 'P') cs
    else if c ∈ ['d', 's', 'w'] then .ok (.set (letterClass f c), cs)
    else if c ∈ ['D', 'S', 'W'] then
      if f.wide then .ok (.set (.complement (letterClass f c.toLower)), cs) else .error .notText
    else if c = 'b' then readBoundary f cs
    else
      match c with
      | 'a' => .ok (.literal '\x07', cs)
      | 'f' => .ok (.literal '\x0c', cs)
      | 't' => .ok (.literal '\t', cs)
      | 'n' => .ok (.literal '\n', cs)
      | 'r' => .ok (.literal '\r', cs)
      | 'v' => .ok (.literal '\x0b', cs)
      | 'A' => .ok (.position .textStart, cs)
      | 'z' => .ok (.position .textEnd, cs)
      | 'B' => .ok (.position (.notWordBoundary f.wide), cs)
      | '<' => .ok (.position (.wordStart f.wide), cs)
      | '>' => .ok (.position (.wordEnd f.wide), cs)
      | _ =>
        if c.toNat < 128 && !c.isAlphanum then .ok (.literal c, cs) else .error (.unknownEscape c)

end Stencil.Pattern
