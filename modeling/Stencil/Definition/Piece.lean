import Stencil.Definition.Lexeme

/-!
# Pieces of a definition

A definition taken apart into literal text and placeholders. Neighbouring literal text is one piece,
and so are braces that open no placeholder. `chars_pieces` says that the pieces, written one after
the other, are the definition.
-/

namespace Stencil.Definition

/-- The symbol in front of a reference to a template. -/
def templateSymbol : Char := '@'

/-- Literal text or a placeholder. -/
inductive Piece where
  | literal (text : String)
  | placeholder (p : Placeholder)
deriving DecidableEq, Repr, Inhabited

/-- A piece as it is written. -/
def Piece.chars : Piece → List Char
  | .literal s => s.toList
  | .placeholder p => p.chars

/-- Puts literal text in front of pieces, joined to the literal that stands there already. -/
def consLiteral (s : String) : List Piece → List Piece
  | .literal s' :: ps => .literal (s ++ s') :: ps
  | ps => .literal s :: ps

/-- The pieces that lexemes make up. -/
def joinLexemes : List Lexeme → List Piece
  | [] => []
  | .placeholder p :: ls => .placeholder p :: joinLexemes ls
  | .text s :: ls => consLiteral s (joinLexemes ls)
  | .brace :: ls => consLiteral "\x7b" (joinLexemes ls)
  | .broken s :: ls => consLiteral s (joinLexemes ls)

/-- The pieces of a definition. -/
def pieces (definition : String) : List Piece := joinLexemes (scan definition.toList)

theorem chars_consLiteral (s : String) (ps : List Piece) :
    (consLiteral s ps).flatMap Piece.chars = s.toList ++ ps.flatMap Piece.chars := by
  cases ps with
  | nil => simp [consLiteral, Piece.chars]
  | cons p ps => cases p <;> simp [consLiteral, Piece.chars]

theorem chars_joinLexemes (ls : List Lexeme) :
    (joinLexemes ls).flatMap Piece.chars = ls.flatMap Lexeme.chars := by
  induction ls with
  | nil => rfl
  | cons l ls ih =>
    cases l <;> simp [joinLexemes, chars_consLiteral, Piece.chars, Lexeme.chars, ih]

/-- The pieces of a definition, written one after the other, are the definition. -/
theorem chars_pieces (definition : String) :
    (pieces definition).flatMap Piece.chars = definition.toList := by
  rw [pieces, chars_joinLexemes, scan_chars]

end Stencil.Definition
