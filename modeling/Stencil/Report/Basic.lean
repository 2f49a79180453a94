import Stencil.Report.Columns
import Stencil.Report.Source
import Stencil.Template.Diagnosis

/-!
# Reports

A diagnosis as text for a reader: `explain` puts a caret under the failing character, `report` draws
a box around the line that holds it and an arrow to what is wrong.
-/

namespace Stencil.Diagnosis

/-- So many spaces. -/
def spaces (n : Nat) : String := .ofList (List.replicate n ' ')

/-- The failing segment, the pattern, the text, and a caret under the character that fails. -/
def explain (d : Diagnosis) (t : Template) (s : String) : String :=
  let lead := "Pattern: "
  let indent := spaces lead.length
  String.intercalate "\n"
    [d.headline t, lead ++ t.pattern false, indent ++ s, indent ++ spaces d.charIndex ++ "^"]

/-- The characters of a line as they are shown. -/
def shownLine (index : Nat) : List Char → List Char
  | [] => []
  | c :: cs => (Report.shown index c).1 ++ shownLine (index + 1) cs

/-- One row of an arrow: each column as wide as the character above it, which is one column behind
the end of the line. The mark of a column fills the first of its columns, the tail the others. -/
def arrowRow (mark : Nat → Char × Char) (index : Nat) : (columns : Nat) → List Char → List Char
  | 0, _ => []
  | columns + 1, above =>
    let width := match above with
      | [] => 1
      | c :: _ => (Report.shown index c).2
    let cell := match width with
      | 0 => []
      | n + 1 => (mark index).1 :: List.replicate n (mark index).2
    cell ++ arrowRow mark (index + 1) columns (above.drop 1)

/-- The line without the blanks at its end. -/
def trimEnd (cs : List Char) : List Char := (cs.reverse.dropWhile Unicode.isSpace).reverse

/-- The row under the line: a mark under the failing character, or a bar where there is none. -/
def markRow (column : Nat) (onCharacter : Bool) (above : List Char) : List Char :=
  let mark (i : Nat) : Char × Char :=
    if i ≠ column then (' ', ' ') else if onCharacter then ('┬', '─') else ('│', ' ')
  arrowRow mark 0 (column + (if onCharacter then 3 else 2)) above

/-- The row of the arrow that points to the message. -/
def messageRow (column : Nat) (onCharacter : Bool) (above : List Char) : List Char :=
  let mark (i : Nat) : Char × Char :=
    if i < column then (' ', ' ') else if i = column then ('╰', '─') else ('─', '─')
  arrowRow mark 0 (column + (if onCharacter then 3 else 2)) above

/-- The box around the failing line. -/
def box (d : Diagnosis) (t : Template) (source : String) (place : Report.Place)
    (onCharacter : Bool) : List String :=
  let number := Decimal.ofNat (place.line + 1)
  let margin := spaces (number.length + 2)
  let line := trimEnd place.chars
  [margin ++ "╭─[" ++ source ++ ":" ++ number ++ ":" ++ Decimal.ofNat (place.column + 1) ++ "]",
    margin ++ "│",
    " " ++ number ++ " │ " ++ .ofList (shownLine 0 line),
    margin ++ "│ " ++ .ofList (markRow place.column onCharacter line),
    margin ++ "│ " ++ .ofList (messageRow place.column onCharacter line) ++ " " ++ d.headline t,
    margin ++ "│ ",
    margin ++ "│ Note: Pattern: " ++ t.pattern false,
    .ofList (List.replicate (number.length + 2) '─') ++ "╯"]

/-- The cause, and the failing line in a box; an empty text has no line to show. -/
def report (d : Diagnosis) (t : Template) (s source : String) : String :=
  let length := s.toList.length
  let column := min d.charIndex length
  let shown := match Report.locate 0 column (Report.lines s.toList) with
    | some place => d.box t source place (column < length)
    | none => []
  String.join ((("Error: " ++ d.cause.message) :: shown).map (· ++ "\n"))

end Stencil.Diagnosis
