import Stencil.Text.Words

/-!
# Sets of code points

A set of code points as a list of ranges in increasing order.
-/

namespace Stencil.Unicode

/-- Ranges of code points, first and last, in increasing order. -/
structure RangeSet where
  ranges : List (Nat × Nat)
deriving DecidableEq, Repr

namespace RangeSet

/-- Whether a code point lies in one of the ranges, which are in increasing order. -/
def memRanges (n : Nat) : List (Nat × Nat) → Bool
  | [] => false
  | (lo, hi) :: rs => if n ≤ hi then decide (lo ≤ n) else memRanges n rs

/-- Whether a character belongs to the set. -/
def mem (s : RangeSet) (c : Char) : Bool := memRanges c.toNat s.ranges

/-- The ranges of a list of gaps and lengths, from a code point on. -/
def rangesFrom (start : Nat) : List Nat → List (Nat × Nat)
  | gap :: length :: rest =>
    (start + gap, start + gap + length - 1) :: rangesFrom (start + gap + length) rest
  | _ => []

/-- The number that digits stand for. -/
def readNumber (cs : List Char) : Nat := cs.foldl (fun v c => 10 * v + (c.toNat - 48)) 0

/-- The set written as gaps and lengths by turns. -/
def ofGaps (written : String) : RangeSet :=
  ⟨rangesFrom 0 ((words written).map readNumber)⟩

end RangeSet

end Stencil.Unicode
