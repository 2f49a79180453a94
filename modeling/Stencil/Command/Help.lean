import Stencil.Command.Invocation

/-!
# Help

The texts that explain the program and its commands: what it does, how it is used, and lists of
commands, operands and options in two columns.
-/

namespace Stencil.Command

/-- What the program is called. -/
def programName : String := "template-resolver"

/-- Two columns, the first as wide as its widest entry. -/
def columns (rows : List (String × String)) : List String :=
  let width := rows.foldl (fun w r => max w r.1.length) 0
  rows.map fun r => "  " ++ r.1 ++ String.ofList (List.replicate (width - r.1.length + 2) ' ') ++
    r.2

/-- A part of a help text under its title, if it has rows. -/
def part (title : String) (rows : List (String × String)) : List String :=
  if rows.isEmpty then [] else "" :: (title ++ ":") :: columns rows

/-- An option as it is written. -/
def OptionSpec.written (o : OptionSpec) : String :=
  let long := "-" ++ String.singleton o.letter ++ ", --" ++ o.name
  match o.usage with
  | .switch => long
  | .count => long ++ "..."
  | .single _ | .many => long ++ " <" ++ o.name.map Char.toUpper ++ ">"

/-- What an option means, with its default. -/
def OptionSpec.meaning (o : OptionSpec) : String :=
  match o.default with
  | none => o.help
  | some d => o.help ++ (if o.help = "" then "" else " ") ++ "[default: " ++ d ++ "]"

/-- The rows of options, the one for help last. -/
def optionRows (options : List OptionSpec) : List (String × String) :=
  options.map (fun o => (o.written, o.meaning)) ++ [("-h, --help", "Print help")]

/-- An operand as it is written. -/
def Operand.written (o : Operand) : String :=
  if o.many then "[" ++ o.name ++ "]..." else "<" ++ o.name ++ ">"

/-- What the help command does. -/
def helpOfHelp : String := "Print this message or the help of the given subcommand(s)"

/-- The help of the program. -/
def mainHelp : List String :=
  ["Format and parse strings through named templates", "",
    "Usage: " ++ programName ++ " [OPTIONS] --config <CONFIG> <COMMAND>"] ++
    part "Commands" (entries.map (fun e => (e.name, e.help)) ++ [("help", helpOfHelp)]) ++
    part "Options" (optionRows mainOptions)

/-- The use of a command. -/
def usageLine (command : List String) : String :=
  "Usage: " ++ " ".intercalate ([programName, "--config <CONFIG>"] ++ command)

/-- The help of a command. -/
def CommandEntry.helpLines (e : CommandEntry) : List String :=
  [e.help, "",
    usageLine ([e.name] ++ (if e.options.isEmpty then [] else ["[OPTIONS]"]) ++
      e.operands.map Operand.written)] ++
    part "Arguments" (e.operands.map fun o => (o.written, o.help)) ++
    part "Options" (optionRows e.options)

/-- The help of a command of this name, or of all of them. -/
def helpLines : Option String → List String
  | none => mainHelp
  | some name =>
    match entries.find? fun e => e.name = name with
    | some e => e.helpLines
    | none =>
      [helpOfHelp, "", usageLine ["help", "[COMMAND]..."]] ++
        part "Arguments" [("[COMMAND]...", "Print help for the subcommand(s)")]

/-- What is said of arguments that ask for nothing. -/
def misuseLines : List String :=
  ["error: the arguments do not make up a command", "",
    "Usage: " ++ programName ++ " [OPTIONS] --config <CONFIG> <COMMAND>", "",
    "For more information, try '--help'."]

end Stencil.Command
