import Stencil.Pattern.Basic

/-!
# Sizes of patterns

How much room a pattern takes when every round of a counted repetition is written out. Patterns
beyond a limit are refused.
-/

namespace Stencil

namespace CharSet

/-- How many ranges the ASCII members of a set form, and whether any other character belongs to it;
the latter by the look of the set. -/
def reachesBeyondAscii : CharSet → Bool
  | nothing => false
  | range _ last => 128 ≤ last.toNat
  | property p => p != .ascii
  | union a b => a.reachesBeyondAscii || b.reachesBeyondAscii
  | intersection a b => a.reachesBeyondAscii && b.reachesBeyondAscii
  | difference a _ => a.reachesBeyondAscii
  | complement _ => true
  | fold _ a => a.reachesBeyondAscii

/-- How many ranges of characters a set has beyond ASCII, about. -/
def wideRanges : CharSet → Nat
  | nothing => 0
  | range _ last => if 128 ≤ last.toNat then 3 else 0
  | property .digit => 120
  | property .whiteSpace => 12
  | property .any | property .ascii => 3
  | property _ => 1200
  | union a b | intersection a b | difference a b => a.wideRanges + b.wideRanges
  | complement a => a.wideRanges + 8
  | fold _ a => a.wideRanges

/-- How many stretches of members the ASCII characters hold. -/
def asciiRanges (s : CharSet) : Nat :=
  let members := (List.range 128).map fun n => s.mem (Char.ofNat n)
  ((members.zip (false :: members)).filter fun (here, before) => here && !before).length

/-- The room that a set takes. -/
def size (s : CharSet) : Nat :=
  if s.reachesBeyondAscii then 40 * (s.wideRanges + 1)
  else
    let n := s.asciiRanges
    if n ≤ 1 then 32 else 32 + 8 * n

end CharSet

namespace Pattern

/-- The room that a pattern takes. -/
def size : Pattern → Nat
  | empty => 32
  | one s => s.size
  | check _ => 32
  | seq p q => p.size + q.size
  | alt p q => p.size + q.size + 40
  | group _ p => p.size + 64
  | repeated p min max _ =>
    match max with
    | none => (if min = 0 then 1 else min) * p.size + 40
    | some max => min * p.size + (max - min) * (p.size + 40) + 32
  | again _ => 32
  | atomic p => p.size + 32

/-- The most room that a pattern may take. -/
def sizeLimit : Nat := 10 * 1024 * 1024

end Pattern

end Stencil
