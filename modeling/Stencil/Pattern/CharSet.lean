import Stencil.Unicode.Folding
import Stencil.Unicode.Property

/-!
# Sets of characters

The sets that an expression can write: ranges, named properties, and what set operations make of
them. `mem` gives each its meaning.
-/

namespace Stencil

/-- A set of characters. -/
inductive CharSet where
  | nothing
  /-- The characters from the first to the last. -/
  | range (first last : Char)
  | property (p : Unicode.Property)
  | union (a b : CharSet)
  | intersection (a b : CharSet)
  | difference (a b : CharSet)
  | complement (a : CharSet)
  /-- All characters that differ from a member at most in case; among ASCII letters alone unless
  `wide` is set. -/
  | fold (wide : Bool) (a : CharSet)
deriving DecidableEq, Repr

namespace CharSet

/-- The characters that count as one with a character, itself left out. -/
def alike (wide : Bool) (c : Char) : List Char :=
  if wide then Unicode.Folding.others c
  else (Unicode.Folding.others c).filter fun d => c.toNat < 128 && d.toNat < 128

/-- Whether a character belongs to a set. -/
def mem : CharSet → Char → Bool
  | nothing, _ => false
  | range first last, c => first ≤ c && c ≤ last
  | property p, c => p.holds c
  | union a b, c => a.mem c || b.mem c
  | intersection a b, c => a.mem c && b.mem c
  | difference a b, c => a.mem c && !b.mem c
  | complement a, c => !a.mem c
  | fold wide a, c => a.mem c || (alike wide c).any a.mem

/-- The set of one character. -/
def single (c : Char) : CharSet := range c c

/-- All characters. -/
def all : CharSet := complement nothing

/-- The union of a list of sets. -/
def unions : List CharSet → CharSet
  | [] => nothing
  | [a] => a
  | a :: as => union a (unions as)

@[simp] theorem mem_single (c d : Char) : (single c).mem d = decide (d = c) := by
  by_cases h : d = c
  · simp [single, mem, h]
  · have : ¬(c ≤ d ∧ d ≤ c) := fun h' => h (Char.le_antisymm h'.2 h'.1)
    rw [single, mem, ← Bool.decide_and, decide_eq_false this, decide_eq_false h]

/-- The set of a list of characters. -/
def ofChars (cs : List Char) : CharSet := unions (cs.map single)

/-- A set as it is under a flag that makes letter case irrelevant. -/
def foldIf (ignoreCase wide : Bool) (a : CharSet) : CharSet := if ignoreCase then fold wide a else a

/-- A set or, if it is negated, all other characters. -/
def complementIf (negated : Bool) (a : CharSet) : CharSet := if negated then complement a else a

end CharSet

end Stencil
