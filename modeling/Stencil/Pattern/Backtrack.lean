import Stencil.Pattern.Match

/-!
# Matching by backtracking

`Pattern.tryFrom` follows the preferred way of a pattern and takes back its last choice whenever it
can get no further. Every choice taken back is counted, and so are the choices that are open, which
can still be taken back; matching is given up when there are too many of either. Unlike matching by
lists, it can ask for the text of a group again.
-/

namespace Stencil.Pattern

/-- What a search can run out of. -/
inductive Exhaustion where
  /-- Too many choices had to be taken back. -/
  | takenBack
  /-- Too many choices were open at once. -/
  | opened
deriving DecidableEq, Repr

/-- The wording of an exhaustion. -/
def Exhaustion.message : Exhaustion → String
  | takenBack => "Max limit for backtracking count exceeded"
  | opened => "Max stack size exceeded for backtracking"

/-- How many choices may be taken back, and how many may be open at once. -/
structure Limits where
  takenBack : Nat
  opened : Nat

/-- The limits of every search. -/
def Limits.standard : Limits := ⟨1000000, 1000000⟩

/-- The choices that have been taken back so far, and those that are open. -/
structure Effort where
  takenBack : Nat
  opened : Nat
deriving DecidableEq, Repr

/-- One more choice is open. -/
def Effort.branch (w : Effort) : Effort := { w with opened := w.opened + 1 }

/-- What an attempt comes to. -/
inductive Attempt where
  | found (s : Spot)
  /-- There is no match; so many choices have been taken back. -/
  | failed (count : Nat)
  | givenUp (why : Exhaustion)
deriving DecidableEq, Repr

/-- What an attempt does at the end of a pattern, given the effort so far. -/
abbrev Next := Spot → Effort → Attempt

/-- Takes back a choice after a failure, and goes on with the other one. -/
def Attempt.orElse (limit : Nat) (first : Attempt) (second : Nat → Attempt) : Attempt :=
  match first with
  | found s => .found s
  | givenUp why => .givenUp why
  | failed count => if limit < count + 1 then .givenUp .takenBack else second (count + 1)

/-- Tries the preferred of two ways first, and keeps the choice open while it does. -/
def prefer (limits : Limits) (firstIsBetter : Bool) (a b : Effort → Attempt) (w : Effort) :
    Attempt :=
  if limits.opened ≤ w.opened then .givenUp .opened
  else if firstIsBetter then
    (a w.branch).orElse limits.takenBack fun count => b ⟨count, w.opened⟩
  else (b w.branch).orElse limits.takenBack fun count => a ⟨count, w.opened⟩

section

variable {limits : Limits} {w : Effort} {a b : Effort → Attempt}

theorem prefer_of_le (h : limits.opened ≤ w.opened) (greedy : Bool) :
    prefer limits greedy a b w = .givenUp .opened := if_pos h

theorem prefer_true (h : w.opened < limits.opened) :
    prefer limits true a b w =
      (a w.branch).orElse limits.takenBack fun count => b ⟨count, w.opened⟩ :=
  if_neg (Nat.not_le.2 h)

theorem prefer_false (h : w.opened < limits.opened) :
    prefer limits false a b w =
      (b w.branch).orElse limits.takenBack fun count => a ⟨count, w.opened⟩ :=
  if_neg (Nat.not_le.2 h)

end

/-- A number of rounds that have to be made. -/
def mustRepeat (round : Next → Next) : Nat → Next → Next
  | 0, k => k
  | n + 1, k => round (mustRepeat round n k)

/-- Further rounds, of which `left` are allowed. Without a limit, a round that gets no further is a
failure. The fuel bounds the rounds that can be made. -/
def mayRepeat (limits : Limits) (round : Next → Next) (greedy : Bool) :
    (fuel : Nat) → (left : Option Nat) → Next → Next
  | 0, _, k => k
  | fuel + 1, left, k => fun s w =>
    if left = some 0 then k s w
    else
      prefer limits greedy
        (round (fun e w =>
          if left = none ∧ e.pos = s.pos then .failed w.takenBack
          else mayRepeat limits round greedy fuel (left.map (· - 1)) k e w) s)
        (k s) w

/-- Tries a pattern from a spot and goes on with `k` at its end. -/
def tryFrom (limits : Limits) (text : Array Char) : Pattern → Next → Next
  | empty, k => k
  | one set, k => fun s w =>
    match text[s.pos]? with
    | some c => if set.mem c then k (s.advance 1) w else .failed w.takenBack
    | none => .failed w.takenBack
  | check a, k => fun s w => if s.satisfies text a then k s w else .failed w.takenBack
  | seq p q, k => tryFrom limits text p (tryFrom limits text q k)
  | alt p q, k => fun s w =>
    prefer limits true (tryFrom limits text p k s) (tryFrom limits text q k s) w
  | group index p, k => fun s w =>
    tryFrom limits text p (fun e w => k (e.mark (2 * index + 1)) w) (s.mark (2 * index)) w
  | repeated p min max greedy, k =>
    mustRepeat (tryFrom limits text p) min
      (mayRepeat limits (tryFrom limits text p) greedy
        (match max with | some m => m - min + 1 | none => text.size + 2) (max.map (· - min)) k)
  | again index, k => fun s w =>
    match (s.group? index).bind fun (start, stop) => s.past? text start stop with
    | some e => k e w
    | none => .failed w.takenBack
  | atomic p, k => fun s w =>
    match tryFrom limits text p (fun e _ => .found e) s w with
    | .found e => k e w
    | a => a

/-- What a search by backtracking comes to. -/
inductive Search where
  | found (f : Found)
  | none
  | givenUp (why : Exhaustion)
deriving DecidableEq, Repr

/-- Tries one position after the other from `start` on. Meanwhile the choice of a later position is
open. -/
def backtrackFrom (limits : Limits) (text : Array Char) (p : Pattern) (start : Nat) :
    (positions count : Nat) → Search
  | 0, _ => .none
  | positions + 1, count =>
    match tryFrom limits text p (fun e _ => .found e) ⟨start, []⟩ ⟨count, 1⟩ with
    | .found s => .found ⟨start, s⟩
    | .givenUp why => .givenUp why
    | .failed count =>
      if positions = 0 then .none
      else if limits.takenBack < count + 1 then .givenUp .takenBack
      else backtrackFrom limits text p (start + 1) positions (count + 1)

/-- The leftmost match found by backtracking, unless too many choices have to be taken back or are
open at once. -/
def backtrack (limits : Limits) (text : Array Char) (p : Pattern) : Search :=
  backtrackFrom limits text p 0 (text.size + 1) 0

end Stencil.Pattern
