import Stencil.Pattern.CharSet

/-!
# Patterns

Patterns of text: characters out of a set, positions with a property, and what can be put together
from them. A group remembers where it matched; a later part may ask for the same text again.
-/

namespace Stencil

/-- A property of a position between two characters. -/
inductive Assertion where
  | textStart
  | textEnd
  /-- A line starts here; lines may also end in a carriage return. -/
  | lineStart (returns : Bool)
  /-- A line ends here; lines may also end in a carriage return. -/
  | lineEnd (returns : Bool)
  /-- Of the characters around the position, exactly one belongs to a word. -/
  | wordBoundary (wide : Bool)
  | notWordBoundary (wide : Bool)
  | wordStart (wide : Bool)
  | wordEnd (wide : Bool)
  /-- No word character stands before the position. -/
  | wordStartHalf (wide : Bool)
  /-- No word character stands behind the position. -/
  | wordEndHalf (wide : Bool)
deriving DecidableEq, Repr

namespace Assertion

/-- Whether a neighbouring character, if there is one, belongs to a word. -/
def isWordAt (wide : Bool) : Option Char → Bool
  | none => false
  | some c => Unicode.isWord c && (wide || c.toNat < 128)

/-- Whether a position has the property, by the characters before and behind it. -/
def holds (before behind : Option Char) : Assertion → Bool
  | textStart => before.isNone
  | textEnd => behind.isNone
  | lineStart false => before.isNone || before == some '\n'
  | lineStart true =>
    before.isNone || before == some '\n' || (before == some '\r' && behind != some '\n')
  | lineEnd false => behind.isNone || behind == some '\n'
  | lineEnd true =>
    behind.isNone || behind == some '\r' || (behind == some '\n' && before != some '\r')
  | wordBoundary wide => isWordAt wide before != isWordAt wide behind
  | notWordBoundary wide => isWordAt wide before == isWordAt wide behind
  | wordStart wide => !isWordAt wide before && isWordAt wide behind
  | wordEnd wide => isWordAt wide before && !isWordAt wide behind
  | wordStartHalf wide => !isWordAt wide before
  | wordEndHalf wide => !isWordAt wide behind

/-- Whether the property is one of words. -/
def concernsWords : Assertion → Bool
  | wordBoundary _ | notWordBoundary _ | wordStart _ | wordEnd _ => true
  | _ => false

end Assertion

/-- A pattern of text. -/
inductive Pattern where
  | empty
  /-- One character of a set. -/
  | one (s : CharSet)
  | check (a : Assertion)
  | seq (p q : Pattern)
  /-- The first pattern is preferred to the second. -/
  | alt (p q : Pattern)
  /-- Remembers where the pattern matched under a number. -/
  | group (index : Nat) (p : Pattern)
  /-- As many rounds as possible if it is greedy, or else as few; no limit if `max` is absent. -/
  | repeated (p : Pattern) (min : Nat) (max : Option Nat) (greedy : Bool)
  /-- The text of a group again. -/
  | again (index : Nat)
  /-- The preferred way to match and no other. -/
  | atomic (p : Pattern)
deriving DecidableEq, Repr

namespace Pattern

/-- The pattern of one character. -/
def char (c : Char) : Pattern := one (.single c)

/-- Patterns one behind the other. -/
def concat : List Pattern → Pattern
  | [] => empty
  | [p] => p
  | p :: ps => seq p (concat ps)

/-- Alternative patterns, the earlier ones preferred. -/
def choice : List Pattern → Pattern
  | [] => empty
  | [p] => p
  | p :: ps => alt p (choice ps)

section

variable {P : Pattern → Prop}

/-- What passes on to two patterns one behind the other holds of so many, if it holds of each. -/
theorem concat_of_forall (hempty : P empty) (hseq : ∀ {p q}, P p → P q → P (seq p q)) :
    ∀ {ps : List Pattern}, (∀ p ∈ ps, P p) → P (concat ps)
  | [], _ => hempty
  | [p], h => h p (List.mem_cons_self ..)
  | p :: q :: ps, h =>
    have hrest : P (concat (q :: ps)) :=
      concat_of_forall hempty hseq fun r hr => h r (List.mem_cons_of_mem _ hr)
    hseq (h p (List.mem_cons_self ..)) hrest

/-- So it is with alternatives. -/
theorem choice_of_forall (hempty : P empty) (halt : ∀ {p q}, P p → P q → P (alt p q)) :
    ∀ {ps : List Pattern}, (∀ p ∈ ps, P p) → P (choice ps)
  | [], _ => hempty
  | [p], h => h p (List.mem_cons_self ..)
  | p :: q :: ps, h =>
    have hrest : P (choice (q :: ps)) :=
      choice_of_forall hempty halt fun r hr => h r (List.mem_cons_of_mem _ hr)
    halt (h p (List.mem_cons_self ..)) hrest

end

/-- The pattern of exactly this text. -/
def ofChars (cs : List Char) : Pattern := concat (cs.map char)

/-- Whether matching may have to take back what a part has matched: a text is asked for again, a
preferred way is held to, or words are looked at. -/
def needsBacktracking : Pattern → Bool
  | empty | one _ => false
  | check a => a.concernsWords
  | seq p q | alt p q => p.needsBacktracking || q.needsBacktracking
  | group _ p | repeated p _ _ _ => p.needsBacktracking
  | again _ | atomic _ => true

end Pattern

/-- A position in a text on the way of matching, with the ends of the groups passed so far: the
start of group `i` under `2 * i`, its end under `2 * i + 1`, the latest ones first. -/
structure Spot where
  pos : Nat
  marks : List (Nat × Nat)
deriving DecidableEq, Repr, Inhabited

namespace Spot

/-- The spot with a position remembered under a number. -/
def mark (s : Spot) (slot : Nat) : Spot := { s with marks := (slot, s.pos) :: s.marks }

/-- The spot so many characters further on. -/
def advance (s : Spot) (count : Nat) : Spot := { s with pos := s.pos + count }

/-- Where a group started and ended. -/
def group? (s : Spot) (index : Nat) : Option (Nat × Nat) :=
  match s.marks.lookup (2 * index), s.marks.lookup (2 * index + 1) with
  | some start, some stop => some (start, stop)
  | _, _ => none

/-- The spot behind a repetition of the text between two positions, if the spot stands before
one. -/
def past? (text : Array Char) (s : Spot) (start stop : Nat) : Option Spot :=
  let e := s.advance (stop - start)
  if e.pos ≤ text.size ∧ text.extract start stop = text.extract s.pos e.pos then some e else none

/-- The character before the spot. -/
def before (text : Array Char) (s : Spot) : Option Char :=
  if s.pos = 0 then none else text[s.pos - 1]?

/-- The character behind the spot. -/
def behind (text : Array Char) (s : Spot) : Option Char := text[s.pos]?

/-- Whether a property holds at the spot. -/
def satisfies (text : Array Char) (s : Spot) (a : Assertion) : Bool :=
  a.holds (s.before text) (s.behind text)

end Spot

end Stencil
