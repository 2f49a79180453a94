import Stencil.Unicode.Property

/-!
# Lines

The lines of a text, each with the character that it starts at. Every kind of vertical space ends a
line, and a carriage return together with a line feed does so once.
-/

namespace Stencil.Report

/-- Whether a character ends a line. -/
def isLineEnd (c : Char) : Bool :=
  c ∈ ['\r', '\n', '\x0b', '\x0c', '\u0085', '\u2028', '\u2029']

/-- The characters up to the first end of a line, that included, and the rest. -/
def takeLine : List Char → List Char × List Char
  | [] => ([], [])
  | '\r' :: '\n' :: cs => (['\r', '\n'], cs)
  | c :: cs =>
    if isLineEnd c then ([c], cs)
    else
      let (line, rest) := takeLine cs
      (c :: line, rest)

theorem takeLine_append (cs : List Char) : (takeLine cs).1 ++ (takeLine cs).2 = cs := by
  fun_induction takeLine cs <;> simp_all

theorem takeLine_ne_nil (c : Char) (cs : List Char) : (takeLine (c :: cs)).1 ≠ [] := by
  unfold takeLine
  split <;> simp_all
  split <;> simp

theorem length_takeLine_lt (c : Char) (cs : List Char) :
    (takeLine (c :: cs)).2.length < (c :: cs).length := by
  have h := congrArg List.length (takeLine_append (c :: cs))
  have h' := List.length_pos_iff.2 (takeLine_ne_nil c cs)
  simp only [List.length_append] at h
  omega

/-- The lines of a text with their ends; nothing follows the last end. -/
def lines : List Char → List (List Char)
  | [] => []
  | c :: cs => (takeLine (c :: cs)).1 :: lines (takeLine (c :: cs)).2
termination_by cs => cs.length
decreasing_by exact length_takeLine_lt c cs

/-- A place in a text: the number of its line and the column in it, both from zero, and the line. -/
structure Place where
  line : Nat
  column : Nat
  chars : List Char
deriving DecidableEq, Repr

/-- The place of a character, the lines from number `line` on being `ls`. What lies behind the last
line belongs to it. -/
def locate (line index : Nat) : List (List Char) → Option Place
  | [] => none
  | [l] => some ⟨line, index, l⟩
  | l :: ls =>
    if index < l.length then some ⟨line, index, l⟩ else locate (line + 1) (index - l.length) ls

end Stencil.Report
