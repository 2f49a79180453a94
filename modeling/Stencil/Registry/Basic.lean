import Stencil.Catalog.Basic
import Stencil.Event
import Stencil.Template.Basic

/-!
# Registries

A registry holds tokens by name and templates by group and name. A name is given once: nothing that
is registered is ever replaced. Building something may fail on the way, and then what was registered
before the failure stays.
-/

namespace Stencil

/-- Tokens and templates by their names, and the kinds that tokens can be of. -/
structure Registry where
  tokens : NameMap Token
  templates : NameMap (NameMap Template)
  kinds : KindRegistry

namespace Registry

/-- The registry that holds nothing but the built-in kinds. -/
def empty : Registry := ⟨.empty, .empty, .builtIn⟩

/-- The token of a name. -/
def token? (r : Registry) (name : String) : Option Token := r.tokens.get? name

/-- The template of a group and a name. -/
def template? (r : Registry) (group name : String) : Option Template :=
  (r.templates.get? group).bind fun g => g.get? name

/-- The token of a name, or an error that names it. -/
def token (r : Registry) (name : String) : Except BuildError Token :=
  match r.token? name with
  | some t => .ok t
  | none => .error (.missingToken name)

/-- The template of a group and a name, or an error that names it. -/
def template (r : Registry) (group name : String) : Except BuildError Template :=
  match r.template? group name with
  | some t => .ok t
  | none => .error (.missingTemplate group name)

/-- Whether a token of this name is registered. -/
def hasToken (r : Registry) (name : String) : Bool := (r.token? name).isSome

/-- Whether a template of this group and name is registered. -/
def hasTemplate (r : Registry) (group name : String) : Bool := (r.template? group name).isSome

/-- The registry with a further kind. -/
def withKind (r : Registry) (k : Kind) : Registry := { r with kinds := r.kinds.register k }

/-- The registry with a token under its name. -/
def addToken (r : Registry) (t : Token) : Registry := { r with tokens := r.tokens.insert t.name t }

/-- The registry with a template under a group and its name. -/
def addTemplate (r : Registry) (group : String) (t : Template) : Registry :=
  { r with
    templates := r.templates.insert group (((r.templates.get? group).getD .empty).insert t.name t) }

theorem token?_addToken (r : Registry) (t : Token) (name : String) :
    (r.addToken t).token? name = if t.name = name then some t else r.token? name :=
  NameMap.get?_insert ..

theorem template?_addTemplate (r : Registry) (group group' name : String) (t : Template) :
    (r.addTemplate group t).template? group' name =
      if group = group' ∧ t.name = name then some t else r.template? group' name := by
  simp only [template?, addTemplate, NameMap.get?_insert]
  by_cases h : group = group'
  · subst h
    by_cases h' : t.name = name
    · simp [NameMap.get?_insert, h']
    · cases r.templates.get? group <;> simp [NameMap.get?_insert, h']
  · simp [h]

end Registry

/-! ## Building -/

/-- What building works on: the registry, and what has happened, the latest first. -/
structure Session where
  registry : Registry
  events : List Event

/-- The session in which nothing has happened. -/
def Session.empty : Session := ⟨.empty, []⟩

/-- A step that may change a session and may fail. -/
abbrev Build (α : Type) := ExceptT BuildError (StateM Session) α

namespace Build

/-- Notes that something has happened. -/
def note (e : Event) : Build Unit := modify fun s => { s with events := e :: s.events }

/-- The result of a step, and the session it leaves behind. -/
def outcome {α : Type} (b : Build α) (s : Session) : Except BuildError α × Session :=
  (ExceptT.run b).run s

/-- Registers a token whose name is new. -/
def insertToken (t : Token) : Build Token := do
  if (← get).registry.hasToken t.name then throw (.tokenExists t.name)
  note (.tokenRegistered t.name t.kind.tag t.regex)
  modify fun s => { s with registry := s.registry.addToken t }
  return t

/-- Builds a token from options and registers it. -/
def createToken (name : String) (o : TokenOptions) : Build Token := do
  if (← get).registry.hasToken name then throw (.tokenExists name)
  let kind ← (← get).registry.kinds.get o.kind
  let token ← Token.ofOptions name kind o
  insertToken token

/-- Registers a template whose name is new in its group. -/
def insertTemplate (group : String) (t : Template) : Build Template := do
  if (← get).registry.hasTemplate group t.name then throw (.templateExists group t.name)
  note (.templateRegistered group t.display)
  modify fun s => { s with registry := s.registry.addTemplate group t }
  return t

end Build

end Stencil
