import Stencil.Template.Kind
import Stencil.Token.Options

/-!
# Catalogs of definitions

A catalog defines tokens by name and templates by group and name. A token is defined by its kind
alone or by all its options, a template by its definition string and perhaps a kind.
-/

namespace Stencil

/-- How a token is defined. -/
inductive TokenEntry where
  | kind (tag : String)
  | options (o : TokenOptions)
deriving DecidableEq

/-- The options of a token's definition. -/
def TokenEntry.toOptions : TokenEntry → TokenOptions
  | .kind tag => .ofKind tag
  | .options o => o

/-- How a template is defined. -/
structure TemplateEntry where
  /-- The definition string, such as `{@root}_{shot}`. -/
  definition : String
  /-- Takes precedence over the kind of the group. -/
  kind : Option TemplateKind
deriving DecidableEq, Repr

/-- The entry of a definition string alone. -/
def TemplateEntry.ofString (definition : String) : TemplateEntry := ⟨definition, none⟩

/-- Definitions of templates, by group and name. -/
abbrev TemplateTable := NameMap (NameMap TemplateEntry)

/-- The definition of a template, if the table has one. -/
def TemplateTable.find? (t : TemplateTable) (group name : String) : Option TemplateEntry :=
  (t.get? group).bind fun g => g.get? name

/-- Definitions of tokens and templates. -/
structure Catalog where
  tokens : NameMap TokenEntry
  templates : TemplateTable
deriving DecidableEq

namespace Catalog

/-- The catalog without definitions. -/
def empty : Catalog := ⟨.empty, .empty⟩

/-- The catalog with a token's definition set. -/
def withToken (c : Catalog) (name : String) (e : TokenEntry) : Catalog :=
  { c with tokens := c.tokens.insert name e }

/-- The catalog with a template's definition set. -/
def withTemplate (c : Catalog) (group name : String) (e : TemplateEntry) : Catalog :=
  { c with
    templates := c.templates.insert group (((c.templates.get? group).getD .empty).insert name e) }

end Catalog

end Stencil
