import Stencil.Catalog.Basic
import Stencil.Datum

/-!
# Shapes of definitions

Which structured data stand for options of tokens, definitions of templates and whole catalogs. Keys
that a record does not know are refused; a catalog ignores them.
-/

namespace Stencil

/-- An integer or a text. -/
def Value.ofDatum? : Datum → Option Value
  | .int n => some (.int n)
  | .text s => some (.text s)
  | _ => none

/-- The keys of a token's options. -/
def TokenOptions.keys : List String :=
  ["type", "regex", "choices", "padmin", "padmax", "padalign", "padchar", "padstrict", "case",
    "format_spec", "description", "default"]

/-- The options of a token; only the kind has to be there. -/
def TokenOptions.ofDatum? (d : Datum) : Option TokenOptions := do
  let [some kind, regex, choices, padmin, padmax, padalign, padchar, padstrict, letterCase,
      formatSpec, description, default] ← d.record? keys keys.length
    | none
  return {
    kind := ← kind.text?
    regex := ← Datum.optional Datum.text? regex
    choices := ← Datum.optional (fun c => do (← c.list?).mapM Value.ofDatum?) choices
    padmin := ← Datum.optional Datum.int? padmin
    padmax := ← Datum.optional Datum.int? padmax
    padalign := ← Datum.optional Datum.char? padalign
    padchar := ← Datum.optional Datum.char? padchar
    padstrict := ← Datum.optional Datum.bool? padstrict
    letterCase := ← Datum.optional (fun c => c.choice?.bind Case.ofName?) letterCase
    formatSpec := ← Datum.optional Datum.text? formatSpec
    description := ← Datum.optional Datum.text? description
    default := ← Datum.optional Value.ofDatum? default }

/-- The tag of a kind alone, or options. -/
def TokenEntry.ofDatum? : Datum → Option TokenEntry
  | .text tag => some (.kind tag)
  | d => (TokenOptions.ofDatum? d).map .options

/-- A definition string alone, or with a kind. -/
def TemplateEntry.ofDatum? : Datum → Option TemplateEntry
  | .text definition => some (.ofString definition)
  | d => do
    let [some definition, kind] ← d.record? ["string", "type"] 1 | none
    return ⟨← definition.text?,
      ← Datum.optional (fun k => k.choice?.bind TemplateKind.ofName?) kind⟩

/-- Definitions of templates by group and name. -/
def TemplateTable.ofDatum? (d : Datum) : Option TemplateTable := do
  let groups ← d.mapTable fun g => (g.mapTable TemplateEntry.ofDatum?).map NameMap.ofList
  return .ofList groups

/-- The keys of a catalog. -/
def Catalog.keys : List String := ["tokens", "templates"]

/-- A catalog, in which both tables may be absent. Entries of other keys do not matter. -/
def Catalog.ofDatum? (d : Datum) : Option Catalog := do
  let known : Datum := match d with
    | .table entries => .table (entries.filter fun e => keys.contains e.1)
    | d => d
  let [tokens, templates] ← known.record? keys 0 | none
  let tokens ← match tokens with
    | some t => (t.mapTable TokenEntry.ofDatum?).map NameMap.ofList
    | none => some .empty
  let templates ← match templates with
    | some t => TemplateTable.ofDatum? t
    | none => some .empty
  return ⟨tokens, templates⟩

end Stencil
