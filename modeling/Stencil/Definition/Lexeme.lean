import Stencil.Text.Name
import Stencil.Text.Offset
import Stencil.Text.Words

/-!
# Lexemes of a definition

A definition such as `\x7b@root\x7d/\x7bshot\x7d.exr` is read as a list of lexemes. A placeholder is
an opening brace, at most one ASCII symbol, a non-empty run of name characters and dots, and a
closing brace. Where a placeholder breaks off, what was read of it is one lexeme; but a brace is a
lexeme of its own unless a name character follows it, or a symbol or a dot with more of a name
behind it.

`scan_chars` says that nothing is lost: the lexemes, written one after the other, are the text.
-/

namespace Stencil.Definition

/-- A reference to a token, or by way of a symbol to something else. -/
structure Placeholder where
  /-- The character in front of the name, such as `@` for templates. -/
  symbol : Option Char
  name : String
deriving DecidableEq, Repr, Inhabited

namespace Placeholder

/-- What stands between the braces: the first character is a symbol unless it can stand in a
name. -/
def ofInner : List Char → Placeholder
  | [] => ⟨none, ""⟩
  | c :: cs => if isNameChar c then ⟨none, String.ofList (c :: cs)⟩ else ⟨some c, String.ofList cs⟩

/-- The characters between the braces. -/
def inner (p : Placeholder) : List Char := p.symbol.toList ++ p.name.toList

/-- A placeholder as it is written. -/
def chars (p : Placeholder) : List Char := '{' :: (p.inner ++ ['}'])

@[simp] theorem inner_ofInner (cs : List Char) : (ofInner cs).inner = cs := by
  cases cs with
  | nil => rfl
  | cons c cs => by_cases h : isNameChar c = true <;> simp [ofInner, inner, h]

end Placeholder

/-- The smallest parts of a definition. -/
inductive Lexeme where
  | placeholder (p : Placeholder)
  | text (s : String)
  /-- An opening brace alone. -/
  | brace
  /-- The beginning of a placeholder that breaks off. -/
  | broken (s : String)
deriving DecidableEq, Repr, Inhabited

/-- A lexeme as it is written. -/
def Lexeme.chars : Lexeme → List Char
  | .placeholder p => p.chars
  | .text s => s.toList
  | .brace => ['{']
  | .broken s => s.toList

/-- The characters a placeholder's name is made of. -/
def isReferenceChar (c : Char) : Bool := isNameChar c || c == '.'

/-- The characters that may stand as a symbol in front of a name. A dot may too, but it is read as
part of the run that follows. -/
def isSymbol (c : Char) : Bool :=
  c.toNat < 128 &&
    !(isReferenceChar c || c == '{' || c == '}' || c == ' ' || c == '\t' || c == '\r' || c == '\n')

/-- What may follow a brace: at most one symbol, then the run of a name, then all else. -/
def splitInner : List Char → List Char × List Char × List Char
  | [] => ([], [], [])
  | c :: cs =>
    if isSymbol c then ([c], cs.takeWhile isReferenceChar, cs.dropWhile isReferenceChar)
    else ([], (c :: cs).takeWhile isReferenceChar, (c :: cs).dropWhile isReferenceChar)

theorem splitInner_append (cs : List Char) :
    (splitInner cs).1 ++ (splitInner cs).2.1 ++ (splitInner cs).2.2 = cs := by
  cases cs with
  | nil => rfl
  | cons c cs =>
    by_cases h : isSymbol c = true
    · simp [splitInner, h]
    · simp only [splitInner, h, Bool.false_eq_true, if_false, List.nil_append]
      exact List.takeWhile_append_dropWhile

/-- Whether the characters after a brace belong to it although no placeholder comes of them. -/
def clings : List Char → Bool
  | [] => false
  | [c] => isNameChar c
  | _ => true

/-- The lexeme of a brace with characters after it that make no placeholder. -/
def breakOff (taken rest : List Char) : Lexeme × List Char :=
  if clings taken then (.broken (.ofList ('{' :: taken)), rest) else (.brace, taken ++ rest)

theorem breakOff_chars (taken rest : List Char) :
    (breakOff taken rest).1.chars ++ (breakOff taken rest).2 = '{' :: (taken ++ rest) := by
  unfold breakOff
  split <;> simp only [Lexeme.chars, String.toList_ofList, List.cons_append, List.nil_append]

/-- The lexeme of a brace, a symbol and a run of name characters, by what follows them. -/
def closeBrace (sym run : List Char) : List Char → Lexeme × List Char
  | '}' :: rest =>
    if run = [] then breakOff sym ('}' :: rest) else (.placeholder (.ofInner (sym ++ run)), rest)
  | rest => breakOff (sym ++ run) rest

theorem closeBrace_chars (sym run rest : List Char) :
    (closeBrace sym run rest).1.chars ++ (closeBrace sym run rest).2 =
      '{' :: (sym ++ run ++ rest) := by
  unfold closeBrace
  split
  · by_cases hr : run = []
    · simp only [hr, if_true, breakOff_chars, List.append_nil]
    · simp [hr, Lexeme.chars, Placeholder.chars]
  · exact breakOff_chars ..

/-- The lexeme that an opening brace begins, and what follows it. -/
def afterBrace (cs : List Char) : Lexeme × List Char :=
  closeBrace (splitInner cs).1 (splitInner cs).2.1 (splitInner cs).2.2

theorem afterBrace_chars (cs : List Char) :
    (afterBrace cs).1.chars ++ (afterBrace cs).2 = '{' :: cs := by
  rw [afterBrace, closeBrace_chars, splitInner_append]

/-- Every lexeme holds a character. -/
theorem closeBrace_ne_nil (sym run rest : List Char) : (closeBrace sym run rest).1.chars ≠ [] := by
  unfold closeBrace breakOff
  repeat' split
  all_goals simp [Lexeme.chars, Placeholder.chars]

theorem length_afterBrace (cs : List Char) : (afterBrace cs).2.length ≤ cs.length := by
  have h := congrArg List.length (afterBrace_chars cs)
  have h' := List.length_pos_iff.2 (closeBrace_ne_nil (splitInner cs).1 (splitInner cs).2.1
    (splitInner cs).2.2)
  rw [← afterBrace] at h'
  simp only [List.length_append, List.length_cons] at h
  omega

theorem length_dropWhile_le {α : Type} (p : α → Bool) (xs : List α) :
    (xs.dropWhile p).length ≤ xs.length :=
  (List.dropWhile_sublist p).length_le

/-- Characters of literal text, which ends at the next opening brace. -/
def notBrace (c : Char) : Bool := c != '{'

/-- The lexemes of a definition, from left to right. -/
def scan : List Char → List Lexeme
  | [] => []
  | c :: cs =>
    if c = '{' then (afterBrace cs).1 :: scan (afterBrace cs).2
    else .text (.ofList (c :: cs.takeWhile notBrace)) :: scan (cs.dropWhile notBrace)
termination_by cs => cs.length
decreasing_by
  · have := length_afterBrace cs
    simp only [List.length_cons]
    omega
  · have := length_dropWhile_le notBrace cs
    simp only [List.length_cons]
    omega

/-- The lexemes of a text, written one after the other, are that text. -/
theorem scan_chars (cs : List Char) : (scan cs).flatMap Lexeme.chars = cs := by
  fun_induction scan cs with
  | case1 => rfl
  | case2 cs ih => rw [List.flatMap_cons, ih, afterBrace_chars]
  | case3 c cs _ ih =>
    rw [List.flatMap_cons, ih, Lexeme.chars, String.toList_ofList, List.cons_append,
      List.takeWhile_append_dropWhile]

/-- The lexemes with the byte offsets at which they start and end. -/
def scanSpans (s : String) : List (Lexeme × Nat × Nat) :=
  let lexemes := scan s.toList
  lexemes.zip (byteSpans 0 (lexemes.map Lexeme.chars))

end Stencil.Definition
