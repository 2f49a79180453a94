import Stencil.Pattern.Escape

/-!
# Literal text in expressions

Text is put into an expression with a backslash before each character that would mean something
there.
-/

namespace Stencil.Pattern

/-- Puts a backslash before each of the special characters. -/
def quoteChars (special : Char → Bool) : List Char → List Char
  | [] => []
  | c :: cs => if special c then '\\' :: c :: quoteChars special cs else c :: quoteChars special cs

/-- Text as it is put into an expression. -/
def quote (s : String) : String := .ofList (quoteChars isMeta s.toList)

/-- Characters that mean something in a composite expression. -/
def isCompositeMeta (c : Char) : Bool :=
  c ∈ ['\\', '.', '+', '*', '?', '(', ')', '|', '[', ']', '{', '}', '^', '$', '#']

/-- Text as it is put into a composite expression. -/
def quoteComposite (s : String) : String := .ofList (quoteChars isCompositeMeta s.toList)

end Stencil.Pattern
