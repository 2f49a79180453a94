import Stencil.Unicode.Property

/-!
# Flags of expressions

The flags under which a part of an expression is read, and the blanks and comments that one of them
allows.
-/

namespace Stencil.Pattern

/-- The flags under which a part of an expression is read. -/
structure Flags where
  ignoreCase : Bool := false
  multiLine : Bool := false
  dotAll : Bool := false
  swapGreed : Bool := false
  ignoreSpace : Bool := false
  returns : Bool := false
  wide : Bool := true
deriving DecidableEq, Repr, Inhabited

mutual

/-- Drops blanks and comments. -/
def skipBlanks : List Char → List Char
  | [] => []
  | c :: cs =>
    if Unicode.isSpace c then skipBlanks cs else if c = '#' then skipComment cs else c :: cs

/-- Drops the rest of a comment, and the blanks and comments behind it. -/
def skipComment : List Char → List Char
  | [] => []
  | c :: cs => if c = '\n' then skipBlanks cs else skipComment cs

end

/-- Drops blanks and comments where the flags allow them. -/
def Flags.trim (f : Flags) (cs : List Char) : List Char :=
  if f.ignoreSpace then skipBlanks cs else cs

/-- Sets the flag that a letter stands for. -/
def Flags.set? (f : Flags) (letter : Char) (on : Bool) : Option Flags :=
  match letter with
  | 'i' => some { f with ignoreCase := on }
  | 'm' => some { f with multiLine := on }
  | 's' => some { f with dotAll := on }
  | 'U' => some { f with swapGreed := on }
  | 'x' => some { f with ignoreSpace := on }
  | 'R' => some { f with returns := on }
  | 'u' => some { f with wide := on }
  | _ => none

end Stencil.Pattern
