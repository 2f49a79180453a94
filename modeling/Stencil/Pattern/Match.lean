import Std.Data.HashSet
import Stencil.Pattern.Basic

/-!
# Matching by lists of spots

`Pattern.run` takes a pattern and the spots from which it is tried, the preferred ones first, and
gives the spots at which it can end, again the preferred ones first. No two of them have the same
position: what follows depends on the position alone, so only the first way to reach it can count.
Each position is taken up once, and the time that matching takes is bounded by a power of the
length of the text.

It is meant for patterns that ask for no earlier text again.
-/

namespace Stencil

namespace Pattern

/-- The spots whose position has not come up before. -/
def distinctFrom (seen : Std.HashSet Nat) : List Spot → List Spot
  | [] => []
  | s :: ss =>
    if seen.contains s.pos then distinctFrom seen ss
    else s :: distinctFrom (seen.insert s.pos) ss

/-- The first spot of each position. -/
def distinct : List Spot → List Spot
  | [] => []
  | [s] => [s]
  | ss => distinctFrom ∅ ss

/-- A number of rounds that have to be made. -/
def mandatory (round : List Spot → List Spot) : Nat → List Spot → List Spot
  | 0, ss => ss
  | n + 1, ss => if ss.isEmpty then [] else mandatory round n (round ss)

/-- Which spots the rounds of a loop have been tried from, by the number of rounds still allowed
and the position, and where they can end, the latest first. -/
structure Rounds where
  tried : Std.HashSet (Nat × Nat)
  ends : List Spot

/-- Adds an end. -/
def Rounds.finish (r : Rounds) (s : Spot) : Rounds := { r with ends := s :: r.ends }

/-- Whether rounds were tried from a spot already. -/
def Rounds.known (r : Rounds) (left : Option Nat) (s : Spot) : Bool :=
  r.tried.contains (left.getD 0, s.pos)

/-- Notes that rounds are tried from a spot. -/
def Rounds.note (r : Rounds) (left : Option Nat) (s : Spot) : Rounds :=
  { r with tried := r.tried.insert (left.getD 0, s.pos) }

/-- All ends of further rounds from a spot, of which `left` are allowed. A round that gets no
further ends the loop. The fuel bounds how often a round can get further. -/
def optional (round : List Spot → List Spot) (greedy : Bool) :
    (fuel : Nat) → (left : Option Nat) → Spot → Rounds → Rounds
  | 0, _, s, r => r.finish s
  | fuel + 1, left, s, r =>
    if r.known left s then r
    else if left = some 0 then (r.note left s).finish s
    else
      let further (r : Rounds) : Rounds :=
        (round [s]).foldl (fun r e =>
          if e.pos = s.pos then r.finish e
          else optional round greedy fuel (left.map (· - 1)) e r) r
      if greedy then (further (r.note left s)).finish s else further ((r.note left s).finish s)

/-- Where a pattern can end that is tried from the given spots. -/
def run (text : Array Char) : Pattern → List Spot → List Spot
  | empty, ss => ss
  | one set, ss =>
    ss.filterMap fun s =>
      match text[s.pos]? with
      | some c => if set.mem c then some (s.advance 1) else none
      | none => none
  | check a, ss => ss.filter (·.satisfies text a)
  | seq p q, ss => run text q (run text p ss)
  | alt p q, ss => distinct (ss.flatMap fun s => run text p [s] ++ run text q [s])
  | group index p, ss =>
    (run text p (ss.map (·.mark (2 * index)))).map (·.mark (2 * index + 1))
  | repeated p min max greedy, ss =>
    let start := mandatory (run text p) min ss
    if max = some min then start
    else
      let left := max.map (· - min)
      let rounds := start.foldl
        (fun r s => optional (run text p) greedy (text.size + 1) left s r) ⟨∅, []⟩
      distinct rounds.ends.reverse
  | again index, ss =>
    ss.filterMap fun s =>
      (s.group? index).bind fun (start, stop) => s.past? text start stop
  | atomic p, ss => distinct (ss.flatMap fun s => (run text p [s]).take 1)

/-- Where a match starts, and the spot at its end. -/
structure Found where
  start : Nat
  stop : Spot
deriving DecidableEq, Repr

/-- The leftmost match that starts at one of `count` positions from `start` on. -/
def searchFrom (text : Array Char) (p : Pattern) (start : Nat) : (count : Nat) → Option Found
  | 0 => none
  | count + 1 =>
    match run text p [⟨start, []⟩] with
    | s :: _ => some ⟨start, s⟩
    | [] => searchFrom text p (start + 1) count

/-- The leftmost match, and of those the preferred one. -/
def search (text : Array Char) (p : Pattern) : Option Found := searchFrom text p 0 (text.size + 1)

end Pattern

end Stencil
