import Stencil.BuildError

/-!
# Padding

The least and the greatest width of a token, as they are given and as they bound a repetition.
-/

namespace Stencil

/-- The bounds of a width, as they are given. -/
structure PaddingBounds where
  padmin : Option Int64
  padmax : Option Int64
deriving DecidableEq

/-- The bounds of a width that are in order. -/
structure Padding where
  min : Option Nat
  max : Option Nat
deriving DecidableEq, Repr

namespace Padding

/-- A bound that is not negative. -/
def check (bound : PaddingBound) : Option Int64 → Except BuildError (Option Nat)
  | none => .ok none
  | some v =>
    if v.toInt < 0 then .error (.negativePadding bound v) else .ok (some v.toInt.toNat)

/-- The bounds, if none is negative and the greatest is not below the least. -/
def ofBounds (bounds : PaddingBounds) : Except BuildError Padding := do
  let min ← check .padmin bounds.padmin
  let max ← check .padmax bounds.padmax
  match bounds.padmin, bounds.padmax with
  | some lo, some hi =>
    if hi.toInt < lo.toInt then .error (.invalidPadding lo hi) else .ok ⟨min, max⟩
  | _, _ => .ok ⟨min, max⟩

/-- The repetition that holds a class to the bounds; at least one where there are none. -/
def quantifier (p : Padding) : String :=
  match p.min, p.max with
  | some lo, some hi => "\x7b" ++ Decimal.ofNat lo ++ "," ++ Decimal.ofNat hi ++ "\x7d"
  | some lo, none => "\x7b" ++ Decimal.ofNat lo ++ ",\x7d"
  | none, some hi => "\x7b0," ++ Decimal.ofNat hi ++ "\x7d"
  | none, none => "+"

/-- One less, where that is possible. -/
def pred? : Nat → Option Nat
  | 0 => none
  | n + 1 => some n

/-- The bounds of what follows one fixed character. -/
def behindFirst (p : Padding) : Padding := ⟨p.min.bind pred?, p.max.bind pred?⟩

end Padding

end Stencil
