import Stencil.Token.Case
import Stencil.Token.Padding

/-!
# Options of tokens

What a token can be built from. An explicit expression excludes choices, padding bounds and a case.
-/

namespace Stencil

/-- The case of a name, or an error that names it. -/
def Case.read (name : String) : Except BuildError Case :=
  match ofName? name with
  | some c => .ok c
  | none => .error (.unknownCase name)

/-- What a token is built from. -/
structure TokenOptions where
  /-- The tag of the token's kind. -/
  kind : String
  regex : Option String
  choices : Option (List Value)
  padmin : Option Int64
  padmax : Option Int64
  padalign : Option Char
  padchar : Option Char
  padstrict : Option Bool
  letterCase : Option Case
  formatSpec : Option String
  description : Option String
  default : Option Value
deriving DecidableEq, Inhabited

namespace TokenOptions

/-- The options that give nothing but the kind. -/
def ofKind (kind : String) : TokenOptions :=
  { kind, regex := none, choices := none, padmin := none, padmax := none, padalign := none,
    padchar := none, padstrict := none, letterCase := none, formatSpec := none, description := none,
    default := none }

/-- Whether one of the options is given that an explicit expression excludes. -/
def constrains (o : TokenOptions) : Bool :=
  o.choices.isSome || o.padmin.isSome || o.padmax.isSome || o.letterCase.isSome

/-- The padding bounds, if they are in order. -/
def padding (o : TokenOptions) : Except BuildError Padding :=
  Padding.ofBounds ⟨o.padmin, o.padmax⟩

end TokenOptions

end Stencil
