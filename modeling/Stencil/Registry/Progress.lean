/-!
# Templates under construction

The keys of the templates that are being built, outermost first. A key is held once at most: to
start one that is held already is a cycle.
-/

namespace Stencil

/-- The keys of the templates under construction, outermost first. -/
structure Progress where
  keys : List String
deriving DecidableEq, Repr, Inhabited

namespace Progress

/-- Nothing is under construction. -/
def empty : Progress := ⟨[]⟩

/-- Whether a key is held. -/
def isHeld (p : Progress) (key : String) : Bool := p.keys.contains key

/-- How many keys are held. -/
def depth (p : Progress) : Nat := p.keys.length

/-- Takes up a key; the error is the chain of keys that leads back to it. -/
def start (p : Progress) (key : String) : Except (List String) Progress :=
  if p.isHeld key then .error (p.keys ++ [key]) else .ok ⟨p.keys ++ [key]⟩

/-- Drops the last occurrence of a key. -/
def finish (p : Progress) (key : String) : Progress := ⟨(p.keys.reverse.erase key).reverse⟩

end Progress

end Stencil
