/-!
# Events

What happens on the way to a result, for readers who want to follow it.
-/

namespace Stencil

/-- Something that happened. -/
inductive Event where
  | tokenRegistered (name kind regex : String)
  /-- The construction of a template was taken up, so many constructions deep. -/
  | templateStarted (key : String) (depth : Nat)
  /-- The expression of a template is about to be read. -/
  | templateComposed (name regex : String)
  | templateRegistered (group display : String)
  | searchStarted (name pattern : String)
  /-- A path that was found does not match, for the reason given. -/
  | pathSkipped (path reason : String)
deriving DecidableEq, Repr, Inhabited

end Stencil
