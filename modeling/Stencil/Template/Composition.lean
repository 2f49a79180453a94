import Stencil.Template.Segment

/-!
# Composite expressions

The expression of a template is put together from those of its segments. The first occurrence of a
token is a group of the token's name; every later one asks for the text of that group again.
-/

namespace Stencil.Segment

/-- A token as it stands where its name is new. -/
def groupOf (t : Token) : String := "(?P<" ++ t.name ++ ">" ++ t.regex ++ ")"

/-- A token as it stands where its name has occurred. -/
def recallOf (t : Token) : String := "(?P=" ++ t.name ++ ")"

/-- An expression, and the names of the tokens that have occurred in it. -/
structure Composition where
  names : List String
  regex : String
deriving DecidableEq, Repr, Inhabited

namespace Composition

/-- Nothing has been put together. -/
def empty : Composition := ⟨[], ""⟩

/-- Adds literal text. -/
def addLiteral (c : Composition) (s : String) : Composition :=
  { c with regex := c.regex ++ Pattern.quoteComposite s }

/-- Adds a token. -/
def addToken (c : Composition) (t : Token) : Composition :=
  if t.name ∈ c.names then { c with regex := c.regex ++ recallOf t }
  else ⟨c.names ++ [t.name], c.regex ++ groupOf t⟩

end Composition

mutual

/-- Adds a segment to an expression. -/
def compose (c : Composition) : Segment → Composition
  | .literal s => c.addLiteral s
  | .token t => c.addToken t
  | .template _ _ ss => composeAll c ss

/-- Adds segments to an expression. -/
def composeAll (c : Composition) : List Segment → Composition
  | [] => c
  | s :: ss => composeAll (compose c s) ss

end

/-- The expression of segments, without anchors. -/
def regexAll (ss : List Segment) : String := (composeAll .empty ss).regex

end Stencil.Segment
