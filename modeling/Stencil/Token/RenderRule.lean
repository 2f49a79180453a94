import Stencil.Value

/-!
# Render rules

A render rule turns a value into text. It is written as a spec: a fill character and an alignment,
a zero flag, a width and a type, each of which may be absent.

* The alignment is `<`, `>`, `^`, or `=` for padding between the sign and the digits.
* A zero in front of the width, with no alignment given, fills with zeros after the sign.
* The type is `d` for integers or `s` for text; without it any value is rendered.

`0=3d` renders 5 as `005`, and `x>6` renders `abcd` as `xxabcd`.
-/

namespace Stencil

/-- Where a value stands within its width. -/
inductive Align where
  | left
  | right
  | center
  /-- The padding stands between the sign and the digits. -/
  | afterSign
deriving DecidableEq, Repr, Inhabited

namespace Align

/-- The alignment that a character stands for. -/
def ofChar? : Char → Option Align
  | '<' => some .left
  | '>' => some .right
  | '^' => some .center
  | '=' => some .afterSign
  | _ => none

/-- The character of an alignment. -/
def char : Align → Char
  | .left => '<'
  | .right => '>'
  | .center => '^'
  | .afterSign => '='

@[simp] theorem ofChar?_char (a : Align) : ofChar? a.char = some a := by cases a <;> rfl

theorem ofChar?_eq_some_iff {c : Char} {a : Align} : ofChar? c = some a ↔ c = a.char := by
  constructor
  · intro h
    unfold ofChar? at h
    split at h <;> simp at h <;> subst h <;> rfl
  · rintro rfl
    exact ofChar?_char a

end Align

/-- The type of value that a rule accepts. -/
inductive RenderType where
  | int
  | text
deriving DecidableEq, Repr, Inhabited

/-- The letter of a type. -/
def RenderType.char : RenderType → Char
  | .int => 'd'
  | .text => 's'

/-- How values are turned into text. -/
structure RenderRule where
  /-- The spec as it was written. -/
  spec : String
  fill : Option Char
  align : Option Align
  width : Nat
  type : Option RenderType
deriving DecidableEq, Repr, Inhabited

namespace RenderRule

/-- The widest padding that a spec may ask for. -/
def maxWidth : Nat := 4096

/-- Widths from here on cannot even be read. -/
def widthLimit : Nat := UInt64.size

/-- Why a spec is refused. -/
inductive Fault where
  | widthUnreadable
  | widthExceeds (width : Nat)
  | unknownType (c : Char)
  | trailing
  | textAfterSign
deriving DecidableEq, Repr, Inhabited

/-- The wording of a fault. -/
def Fault.message : Fault → String
  | .widthUnreadable => "width is too large"
  | .widthExceeds width => "width " ++ Decimal.ofNat width ++ " exceeds " ++ Decimal.ofNat maxWidth
  | .unknownType c => "unsupported type '" ++ String.singleton c ++ "'"
  | .trailing => "unexpected trailing characters"
  | .textAfterSign => "'=' alignment is not allowed for strings"

/-- Reads a fill character and an alignment, the pair of both before the alignment alone. -/
def readAlign : List Char → Option Char × Option Align × List Char
  | [] => (none, none, [])
  | [c] =>
    match Align.ofChar? c with
    | some a => (none, some a, [])
    | none => (none, none, [c])
  | c :: d :: cs =>
    match Align.ofChar? d with
    | some a => (some c, some a, cs)
    | none =>
      match Align.ofChar? c with
      | some a => (none, some a, d :: cs)
      | none => (none, none, c :: d :: cs)

/-- Takes the zero flag, which counts only where no alignment was given. -/
def readZero : Option Char × Option Align × List Char → Option Char × Option Align × List Char
  | (fill, align, '0' :: cs) =>
    if fill = none ∧ align = none then (some '0', some .afterSign, cs) else (fill, align, cs)
  | r => r

/-- Reads the width; no digits are a width of zero. -/
def readWidth (cs : List Char) : Except Fault (Nat × List Char) :=
  let ds := cs.takeWhile Char.isDigit
  let width := Decimal.value ds
  if widthLimit ≤ width then .error .widthUnreadable
  else if maxWidth < width then .error (.widthExceeds width)
  else .ok (width, cs.dropWhile Char.isDigit)

/-- Reads the type, behind which nothing may follow. -/
def readType : List Char → Except Fault (Option RenderType)
  | [] => .ok none
  | 'd' :: cs => if cs = [] then .ok (some .int) else .error .trailing
  | 's' :: cs => if cs = [] then .ok (some .text) else .error .trailing
  | c :: _ => .error (.unknownType c)

/-- Reads a spec. -/
def parse (spec : String) : Except Fault RenderRule := do
  let (fill, align, cs) := readZero (readAlign spec.toList)
  let (width, cs) ← readWidth cs
  let type ← readType cs
  if type = some .text ∧ align = some .afterSign then .error .textAfterSign
  else .ok { spec, fill, align, width, type }

/-- The letter of a type, or nothing. -/
def typeChars (type : Option RenderType) : List Char := (type.map RenderType.char).toList

/-- The spec that padding options make up. -/
def paddedSpec (fill align : Char) (width : Nat) (type : Option RenderType) : String :=
  .ofList (fill :: align :: (Decimal.digits width ++ typeChars type))

/-- The rule of padding options, read from the spec that they make up. -/
def padded (fill align : Char) (width : Nat) (type : Option RenderType) : Except Fault RenderRule :=
  parse (paddedSpec fill align width type)

/-- The rule that asks for a type and does not pad. -/
def typed (type : Option RenderType) : RenderRule :=
  { spec := .ofList (typeChars type), fill := none, align := none, width := 0, type }

/-- Why a rule refuses a value. -/
inductive Refusal where
  | expectedText
  | expectedInt
  | textAfterSign
deriving DecidableEq, Repr, Inhabited

/-- The wording of a refusal. -/
def Refusal.message : Refusal → String
  | .expectedText => "expected a string value"
  | .expectedInt => "expected an integer value"
  | .textAfterSign => "'=' alignment is not allowed for strings"

/-- The sign and the body of a value that the rule accepts. -/
def body (rule : RenderRule) : Value → Except Refusal (List Char × List Char)
  | .int n =>
    if rule.type = some .text then .error .expectedText
    else .ok (Decimal.sign n.toInt, Decimal.digits n.toInt.natAbs)
  | .text s =>
    if rule.type = some .int then .error .expectedInt
    else if rule.align = some .afterSign then .error .textAfterSign
    else .ok ([], s.toList)

/-- Integers stand at the right and text at the left where no alignment is given. -/
def defaultAlign : Value → Align
  | .int _ => .right
  | .text _ => .left

/-- A sign and a body filled up by `pad` characters. -/
def fillUp (fill : Char) (pad : Nat) (sign body : List Char) : Align → List Char
  | .left => sign ++ body ++ List.replicate pad fill
  | .right => List.replicate pad fill ++ sign ++ body
  | .center => List.replicate (pad / 2) fill ++ sign ++ body ++ List.replicate (pad - pad / 2) fill
  | .afterSign => sign ++ List.replicate pad fill ++ body

/-- Renders a value to at least the rule's width. -/
def render (rule : RenderRule) (v : Value) : Except Refusal String := do
  let (sign, body) ← rule.body v
  let pad := rule.width - (sign.length + body.length)
  return .ofList (fillUp (rule.fill.getD ' ') pad sign body (rule.align.getD (defaultAlign v)))

end RenderRule

end Stencil
