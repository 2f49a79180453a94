import Stencil.Pattern.Escape

/-!
# Bracketed sets

A set of characters in brackets: characters, ranges, escapes, named ASCII sets and further brackets,
which may be joined by intersection, difference and symmetric difference.
-/

namespace Stencil.Pattern

/-- How the parts of a bracket are joined. -/
inductive SetOperation where
  | intersection
  | difference
  | symmetricDifference
deriving DecidableEq, Repr

/-- Two sets joined. -/
def SetOperation.apply : SetOperation → CharSet → CharSet → CharSet
  | intersection, a, b => .intersection a b
  | difference, a, b => .difference a b
  | symmetricDifference, a, b => .union (.difference a b) (.difference b a)

/-- An open bracket: what stands left of the last operation, and the items since then, the latest
first. -/
structure Bracket where
  negated : Bool
  left : Option (SetOperation × CharSet)
  items : List CharSet

namespace Bracket

/-- A bracket with one more item. -/
def push (b : Bracket) (s : CharSet) : Bracket := { b with items := s :: b.items }

/-- The set that the bracket makes up so far. -/
def operand (f : Flags) (b : Bracket) : CharSet :=
  let right := CharSet.unions b.items.reverse
  match b.left with
  | none => right
  | some (op, left) =>
    op.apply (.foldIf f.ignoreCase f.wide left) (.foldIf f.ignoreCase f.wide right)

/-- The bracket after an operation sign. -/
def operate (f : Flags) (op : SetOperation) (b : Bracket) : Bracket :=
  { b with left := some (op, b.operand f), items := [] }

/-- The set of a closed bracket. -/
def close (f : Flags) (b : Bracket) : CharSet :=
  .complementIf b.negated (.foldIf f.ignoreCase f.wide (b.operand f))

end Bracket

/-- Hyphens at the beginning of a bracket stand for themselves. -/
def readHyphens (f : Flags) (b : Bracket) : List Char → Bracket × List Char
  | '-' :: cs =>
    if f.ignoreSpace then (b.push (.single '-'), f.trim cs)
    else readHyphens f (b.push (.single '-')) cs
  | cs => (b, cs)

/-- Takes the caret that negates a bracket. -/
def takeCaret (f : Flags) (cs : List Char) : Bool × List Char :=
  match f.trim cs with
  | '^' :: cs => (true, f.trim cs)
  | cs => (false, cs)

/-- Reads the beginning of a bracket behind its sign: a caret negates it, and then hyphens and a
closing bracket stand for themselves. -/
def openBracket (f : Flags) (cs : List Char) : Except Fault (Bracket × List Char) :=
  let (negated, cs) := takeCaret f cs
  if negated && !f.wide then .error .notText
  else
    match readHyphens f ⟨negated, none, []⟩ cs with
    | (b, ']' :: cs) =>
      if b.items.isEmpty then .ok (b.push (.single ']'), f.trim cs) else .ok (b, ']' :: cs)
    | r => .ok r

/-- The named ASCII sets. -/
def asciiSet? (name : String) : Option CharSet :=
  let digit := CharSet.range '0' '9'
  let upper := CharSet.range 'A' 'Z'
  let lower := CharSet.range 'a' 'z'
  match name with
  | "alnum" => some (.unions [digit, upper, lower])
  | "alpha" => some (.unions [upper, lower])
  | "ascii" => some (.range '\x00' '\x7f')
  | "blank" => some (.unions [.single '\t', .single ' '])
  | "cntrl" => some (.unions [.range '\x00' '\x1f', .single '\x7f'])
  | "digit" => some digit
  | "graph" => some (.range '!' '~')
  | "lower" => some lower
  | "print" => some (.range ' ' '~')
  | "punct" =>
    some (.unions [.range '!' '/', .range ':' '@', .range '[' (Char.ofNat 96), .range '{' '~'])
  | "space" => some (.unions [.range '\t' '\r', .single ' '])
  | "upper" => some upper
  | "word" => some (.unions [digit, upper, .single '_', lower])
  | "xdigit" => some (.unions [digit, .range 'A' 'F', .range 'a' 'f'])
  | _ => none

/-- Reads the name of an ASCII set, and what closes it. -/
def readAsciiName? (cs : List Char) : Option (CharSet × List Char) :=
  match cs.dropWhile (· ≠ ':') with
  | ':' :: ']' :: rest => (asciiSet? (.ofList (cs.takeWhile (· ≠ ':')))).map (·, rest)
  | _ => none

/-- Reads a named ASCII set behind its opening bracket, if there is one. -/
def readAsciiSet? (f : Flags) (cs : List Char) : Option (CharSet × List Char) :=
  let set (negated : Bool) (r : CharSet × List Char) : CharSet × List Char :=
    (.complementIf negated (.foldIf f.ignoreCase f.wide r.1), r.2)
  match cs with
  | ':' :: '^' :: cs => (readAsciiName? cs).map (set true)
  | ':' :: cs => (readAsciiName? cs).map (set false)
  | _ => none

/-- Reads one character, or an escape sequence. -/
def readMember (f : Flags) : List Char → Except Fault (Atom × List Char)
  | [] => .error .unclosedBracket
  | '\\' :: cs => readEscape f cs
  | c :: cs => .ok (.literal c, cs)

/-- The set of a member that stands alone. -/
def Atom.toSet : Atom → Except Fault CharSet
  | .literal c => .ok (.single c)
  | .set s => .ok s
  | .position _ => .error .badBracketItem

/-- Reads a member and, behind a hyphen, the end of a range. -/
def readRange (f : Flags) (cs : List Char) : Except Fault (CharSet × List Char) := do
  let (first, cs) ← readMember f cs
  match f.trim cs with
  | [] => throw .unclosedBracket
  | '-' :: rest =>
    match f.trim rest with
    | [] => throw .unclosedBracket
    | c :: rest =>
      if c = ']' ∨ c = '-' then return (← first.toSet, '-' :: c :: rest)
      let (last, cs) ← readMember f (c :: rest)
      match first, last with
      | .literal a, .literal b => if a ≤ b then return (.range a b, cs) else throw .reversedRange
      | _, _ => throw .badBracketItem
  | cs => return (← first.toSet, cs)

/-- Reads on in a bracket that stands in others, innermost first. The fuel bounds the items. -/
def readBracketItems (f : Flags) :
    (fuel : Nat) → Bracket → List Bracket → List Char → Except Fault (CharSet × List Char)
  | 0, _, _, _ => .error .unclosedBracket
  | fuel + 1, b, outer, cs =>
    match f.trim cs with
    | [] => .error .unclosedBracket
    | '[' :: cs =>
      match readAsciiSet? f cs with
      | some (s, cs) => readBracketItems f fuel (b.push s) outer cs
      | none => do
        let (inner, cs) ← openBracket f cs
        readBracketItems f fuel inner (b :: outer) cs
    | ']' :: cs =>
      match outer with
      | [] => .ok (b.close f, cs)
      | o :: outer => readBracketItems f fuel (o.push (b.close f)) outer cs
    | '&' :: '&' :: cs => readBracketItems f fuel (b.operate f .intersection) outer cs
    | '-' :: '-' :: cs => readBracketItems f fuel (b.operate f .difference) outer cs
    | '~' :: '~' :: cs => readBracketItems f fuel (b.operate f .symmetricDifference) outer cs
    | cs => do
      let (s, cs) ← readRange f cs
      readBracketItems f fuel (b.push s) outer cs

/-- Reads a bracketed set behind its opening bracket. -/
def readBracket (f : Flags) (cs : List Char) : Except Fault (CharSet × List Char) := do
  let (b, rest) ← openBracket f cs
  readBracketItems f (cs.length + 1) b [] rest

end Stencil.Pattern
