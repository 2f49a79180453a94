/-!
# Tables of runs

A property of all code points as a list of runs, written as a mark and a length each. `mark` gives
the mark of the run that a code point lies in.
-/

namespace Stencil.Unicode

/-- Runs by their first code points, in increasing order. -/
structure RunTable where
  runs : Array (Nat × Char)

namespace RunTable

/-- One step of reading a written table: where the last run starts, its mark and the digits of its
length so far, and the runs in front of it, the last one first. -/
structure Reading where
  start : Nat
  mark : Option Char
  length : Option Nat
  done : List (Nat × Char)

/-- The code point behind the last run. -/
def Reading.next (r : Reading) : Nat := r.start + r.length.getD 1

/-- Takes one more character of a written table; blanks mean nothing. -/
def Reading.step (r : Reading) (c : Char) : Reading :=
  if c.isWhitespace then r
  else if c.isDigit then { r with length := some (10 * r.length.getD 0 + (c.toNat - 48)) }
  else
    match r.mark with
    | none => { r with mark := some c }
    | some m => { start := r.next, mark := some c, length := none, done := (r.start, m) :: r.done }

/-- Reads a table. A mark without a length is a run of one. -/
def decode (written : String) : RunTable :=
  let r := written.toList.foldl Reading.step ⟨0, none, none, []⟩
  let all := match r.mark with
    | none => r.done
    | some m => (r.start, m) :: r.done
  ⟨all.reverse.toArray⟩

/-- The last of the runs `lo` to `hi - 1` that starts at a code point or before it; `lo` is taken to
be such a run. -/
def search (t : RunTable) (n lo hi : Nat) : Nat :=
  if h : hi ≤ lo + 1 then lo
  else
    let mid := (lo + hi) / 2
    if (t.runs[mid]?.map (·.1)).getD 0 ≤ n then search t n mid hi else search t n lo mid
termination_by hi - lo

/-- The mark of the run that a code point lies in. -/
def mark (t : RunTable) (n : Nat) : Char :=
  (t.runs[t.search n 0 t.runs.size]?.map (·.2)).getD ' '

end RunTable

end Stencil.Unicode
