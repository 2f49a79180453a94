import Stencil.Command.Option
import Stencil.Template.Kind

/-!
# Invocations

What the program can be asked to do, and how arguments ask for it. The definitions file has to be
named before the command.
-/

namespace Stencil.Command

/-- What to do with the definitions. -/
inductive Task where
  | format (template group : String) (fields : List String)
  | parse (template group input : String) (diagnose : Bool)
  | pattern (template group : String) (withSpecs : Bool)
  | paths (template group : String) (fields wildcards : List String)
  | list
deriving DecidableEq, Repr

/-- What the program is asked to do. -/
structure Invocation where
  /-- The path of the definitions file. -/
  definitions : String
  verbosity : Nat
  task : Task
deriving DecidableEq, Repr

/-- The group of templates where none is given. -/
def defaultGroup : String := "template"

/-- The operands of a command, as they are shown in its help. -/
structure Operand where
  name : String
  many : Bool
  help : String
deriving Repr

/-- A command by its name. -/
structure CommandEntry where
  name : String
  help : String
  operands : List Operand
  options : List OptionSpec
deriving Repr

/-- The option of the group. -/
def groupOption (group : String) : OptionSpec := ⟨"group", 'g', .single true, "", some group⟩

/-- The operand of the template. -/
def templateOperand : Operand := ⟨"TEMPLATE", false, ""⟩

/-- The operands of values. -/
def fieldsOperand : Operand := ⟨"FIELDS", true, "Field values as KEY=VALUE"⟩

/-- The commands, in the order in which they are listed. -/
def entries : List CommandEntry := [
  ⟨"format", "Format fields into a string", [templateOperand, fieldsOperand],
    [groupOption defaultGroup]⟩,
  ⟨"parse", "Parse a string into fields", [templateOperand, ⟨"INPUT", false, ""⟩],
    [groupOption defaultGroup,
      ⟨"debug", 'd', .switch, "Point at the first segment that fails to match", none⟩]⟩,
  ⟨"pattern", "Show a template's placeholder pattern", [templateOperand],
    [groupOption defaultGroup, ⟨"specs", 's', .switch, "Include each token's format spec", none⟩]⟩,
  ⟨"paths", "Search the filesystem with a path template", [templateOperand, fieldsOperand],
    [⟨"wildcard", 'w', .many, "Fields to match with a wildcard", none⟩,
      groupOption TemplateKind.pathGroup]⟩,
  ⟨"list", "List tokens and templates", [], []⟩]

/-- The options in front of the command. -/
def mainOptions : List OptionSpec := [
  ⟨"config", 'c', .single false, "Token and template definitions (TOML format)", none⟩,
  ⟨"verbose", 'v', .count, "Log more (-v info, -vv debug, -vvv trace); RUST_LOG takes precedence",
    none⟩]

/-- The arguments of a command. -/
def CommandEntry.spec (e : CommandEntry) : CommandSpec :=
  ⟨e.options, if e.operands.any (·.many) then none else some e.operands.length, false⟩

/-- The arguments in front of the command. -/
def mainSpec : CommandSpec := ⟨mainOptions, none, true⟩

/-- The task of a command with its arguments; operands may be missing. -/
def CommandEntry.task? (e : CommandEntry) (g : Given) : Option Task :=
  match e.name, g.operands with
  | "format", template :: fields => some (.format template (g.valueOr "group" defaultGroup) fields)
  | "parse", [template, input] =>
    some (.parse template (g.valueOr "group" defaultGroup) input (g.has "debug"))
  | "pattern", [template] =>
    some (.pattern template (g.valueOr "group" defaultGroup) (g.has "specs"))
  | "paths", template :: fields =>
    some (.paths template (g.valueOr "group" TemplateKind.pathGroup) fields (g.values "wildcard"))
  | "list", [] => some .list
  | _, _ => none

/-- What arguments ask for. -/
inductive Request where
  | run (i : Invocation)
  /-- The help of a command, or of all of them. -/
  | help (command : Option String)
  | misuse
deriving DecidableEq, Repr

/-- A request for help on the commands that follow. -/
def helpRequest : List String → Request
  | [] => .help none
  | [name] => if name = "help" ∨ entries.any (·.name == name) then .help (some name) else .misuse
  | _ => .misuse

/-- What the arguments of a command ask for. -/
def CommandEntry.request (e : CommandEntry) (outer : Given) : Request :=
  match scan e.spec .empty outer.rest with
  | .error .help => .help (some e.name)
  | .error .misuse => .misuse
  | .ok g =>
    match e.task? g, (outer.values "config").getLast? with
    | some task, some definitions => .run ⟨definitions, (outer.values "verbose").length, task⟩
    | _, _ => .misuse

/-- What arguments ask for. -/
def Request.ofArguments (arguments : List String) : Request :=
  match scan mainSpec .empty arguments with
  | .error .help => .help none
  | .error .misuse => .misuse
  | .ok g =>
    match g.operands with
    | [] => .misuse
    | name :: _ =>
      if name = "help" then helpRequest g.rest
      else
        match entries.find? fun e => e.name = name with
        | none => .misuse
        | some e => e.request g

end Stencil.Command
