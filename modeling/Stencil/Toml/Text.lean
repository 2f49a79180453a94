/-!
# Texts in TOML

The four ways to write a text: between quotation marks, with escapes, or between apostrophes, as it
stands; and either of them over several lines between three marks. Each reader takes what follows
the opening mark and gives the text and the rest; the rest is shorter.
-/

namespace Stencil.Toml

/-- Whether a character may stand in a text or a comment: no control character but a tab. -/
def isPlain (c : Char) : Bool := c = '\t' || (' ' ≤ c && c ≠ '\x7f')

/-- The value of a hexadecimal digit. -/
def hexValue? (c : Char) : Option Nat :=
  if c.isDigit then some (c.toNat - 48)
  else if 'a' ≤ c ∧ c ≤ 'f' then some (c.toNat - 87)
  else if 'A' ≤ c ∧ c ≤ 'F' then some (c.toNat - 55)
  else none

/-- The character whose code point is written in hexadecimal digits. -/
def codePoint? (digits : List Char) : Option Char := do
  let values ← digits.mapM hexValue?
  let n := values.foldl (fun n d => 16 * n + d) 0
  if h : n.isValidChar then some (Char.ofNatAux n h) else none

/-- A number of digits of a code point, and the rest. -/
def takeCodePoint (count : Nat) (cs : List Char) : Option (Char × List Char) :=
  if count ≤ cs.length then (codePoint? (cs.take count)).map fun c => (c, cs.drop count) else none

/-- The character that an escape stands for, given what follows the backslash, and the rest. -/
def escape? : List Char → Option (Char × List Char)
  | 'b' :: cs => some ('\x08', cs)
  | 't' :: cs => some ('\t', cs)
  | 'n' :: cs => some ('\n', cs)
  | 'f' :: cs => some ('\x0c', cs)
  | 'r' :: cs => some ('\r', cs)
  | '"' :: cs => some ('"', cs)
  | '\\' :: cs => some ('\\', cs)
  | 'u' :: cs => takeCodePoint 4 cs
  | 'U' :: cs => takeCodePoint 8 cs
  | _ => none

theorem length_takeCodePoint {count : Nat} {cs rest : List Char} {c : Char}
    (h : takeCodePoint count cs = some (c, rest)) : rest.length ≤ cs.length := by
  unfold takeCodePoint at h
  split at h
  · simp only [Option.map_eq_some_iff, Prod.mk.injEq] at h
    obtain ⟨_, _, _, rfl⟩ := h
    simp
  · simp at h

theorem length_escape {cs rest : List Char} {c : Char} (h : escape? cs = some (c, rest)) :
    rest.length < cs.length := by
  unfold escape? at h
  split at h
  case h_8 => exact Nat.lt_succ_of_le (length_takeCodePoint h)
  case h_9 => exact Nat.lt_succ_of_le (length_takeCodePoint h)
  case h_10 => simp at h
  all_goals
    simp only [Option.some.injEq, Prod.mk.injEq] at h
    simp [← h.2]

/-- Puts a character in front of a text that was read. -/
def prepend (c : Char) : Option (List Char × List Char) → Option (List Char × List Char) :=
  Option.map fun r => (c :: r.1, r.2)

/-- A text with escapes, up to the quotation mark. -/
def basic : List Char → Option (List Char × List Char)
  | [] => none
  | '"' :: cs => some ([], cs)
  | '\\' :: cs =>
    match h : escape? cs with
    | none => none
    | some (c, rest) =>
      have := length_escape h
      prepend c (basic rest)
  | c :: cs => if isPlain c then prepend c (basic cs) else none
termination_by cs => cs.length

/-- A text as it stands, up to the apostrophe. -/
def literal : List Char → Option (List Char × List Char)
  | [] => none
  | '\'' :: cs => some ([], cs)
  | c :: cs => if isPlain c then prepend c (literal cs) else none

/-- Whether a character is a blank within a line. -/
def isBlank (c : Char) : Bool := c = ' ' || c = '\t'

/-- The rest behind the end of a line, if there is one. -/
def lineEnd? : List Char → Option (List Char)
  | '\n' :: cs => some cs
  | '\r' :: '\n' :: cs => some cs
  | _ => none

/-- Drops blanks and ends of lines. -/
def dropBlankLines : List Char → List Char
  | '\n' :: cs => dropBlankLines cs
  | '\r' :: '\n' :: cs => dropBlankLines cs
  | ' ' :: cs => dropBlankLines cs
  | '\t' :: cs => dropBlankLines cs
  | cs => cs

/-- The rest behind a backslash at the end of a line, which takes all blank space with it. -/
def continuation? (cs : List Char) : Option (List Char) :=
  (lineEnd? (cs.dropWhile isBlank)).map dropBlankLines

theorem length_dropBlankLines (cs : List Char) : (dropBlankLines cs).length ≤ cs.length := by
  fun_induction dropBlankLines cs <;> simp_all <;> omega

theorem length_lineEnd {cs rest : List Char} (h : lineEnd? cs = some rest) :
    rest.length < cs.length := by
  unfold lineEnd? at h
  split at h
  · cases h
    exact Nat.lt_succ_self _
  · cases h
    exact Nat.lt_succ_of_lt (Nat.lt_succ_self _)
  · cases h

theorem length_continuation {cs rest : List Char} (h : continuation? cs = some rest) :
    rest.length < cs.length := by
  simp only [continuation?, Option.map_eq_some_iff] at h
  obtain ⟨mid, hmid, rfl⟩ := h
  have h₁ := length_lineEnd hmid
  have h₂ := length_dropBlankLines mid
  have h₃ := (List.dropWhile_suffix (l := cs) isBlank).length_le
  omega

/-- A text with escapes over several lines, up to three quotation marks; one or two more in front of
them belong to the text. -/
def multiBasic : List Char → Option (List Char × List Char)
  | [] => none
  | '"' :: '"' :: '"' :: '"' :: '"' :: cs => some (['"', '"'], cs)
  | '"' :: '"' :: '"' :: '"' :: cs => some (['"'], cs)
  | '"' :: '"' :: '"' :: cs => some ([], cs)
  | '\\' :: cs =>
    match h : continuation? cs with
    | some rest =>
      have := length_continuation h
      multiBasic rest
    | none =>
      match h : escape? cs with
      | none => none
      | some (c, rest) =>
        have := length_escape h
        prepend c (multiBasic rest)
  | '\r' :: '\n' :: cs => prepend '\n' (multiBasic cs)
  | c :: cs => if isPlain c ∨ c = '\n' then prepend c (multiBasic cs) else none
termination_by cs => cs.length

/-- A text as it stands over several lines, up to three apostrophes; one or two more in front of
them belong to the text. -/
def multiLiteral : List Char → Option (List Char × List Char)
  | [] => none
  | '\'' :: '\'' :: '\'' :: '\'' :: '\'' :: cs => some (['\'', '\''], cs)
  | '\'' :: '\'' :: '\'' :: '\'' :: cs => some (['\''], cs)
  | '\'' :: '\'' :: '\'' :: cs => some ([], cs)
  | '\r' :: '\n' :: cs => prepend '\n' (multiLiteral cs)
  | c :: cs => if isPlain c ∨ c = '\n' then prepend c (multiLiteral cs) else none

/-- Drops the end of a line that follows an opening mark at once. -/
def dropFirstLineEnd (cs : List Char) : List Char := (lineEnd? cs).getD cs

/-- A text in any of the four ways, its opening mark included. -/
def text : List Char → Option (List Char × List Char)
  | '"' :: '"' :: '"' :: cs => multiBasic (dropFirstLineEnd cs)
  | '"' :: cs => basic cs
  | '\'' :: '\'' :: '\'' :: cs => multiLiteral (dropFirstLineEnd cs)
  | '\'' :: cs => literal cs
  | _ => none

end Stencil.Toml
