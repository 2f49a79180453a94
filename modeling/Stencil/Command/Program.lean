import Stencil.Catalog.Source
import Stencil.Command.Help
import Stencil.Command.Log
import Stencil.Registry.Definition
import Stencil.Report.Basic
import Stencil.Template.Search

/-!
# The program

What the program does with its arguments. It looks at the world outside in three ways only: it asks
for variables, it reads the definitions file, and it looks through directories. `Program` says what
comes after each of them, so that the same program can be run on a disk and on a file tree.
-/

namespace Stencil.Command

/-- What the program leaves behind. -/
structure Transcript where
  code : Nat
  output : List String
  /-- The lines of the log and of errors. -/
  errors : List String
deriving DecidableEq, Repr, Inhabited

/-- A program that may look at the world outside. -/
inductive Program where
  | finish (t : Transcript)
  /-- Asks for variables; no other ones will matter. -/
  | askVariables (names : List String) (next : Definition.Environment → Program)
  | readFile (path : String) (next : Except ReadFault String → Program)
  /-- Looks through a directory as deeply as components of a pattern lead. -/
  | lookThrough (base : String) (components : List Path.GlobComponent) (next : FileTree → Program)

/-- Runs a program on variables and on the files of the working directory; nothing is known of other
directories. -/
def Program.run (env : Definition.Environment) (files : FileTree) : Program → Transcript
  | finish t => t
  | askVariables _ next => (next env).run env files
  | readFile path next => (next (files.read path)).run env files
  | lookThrough base _ next => (next (if base = "." then files else .empty)).run env files

/-! ## Tasks -/

/-- The outcome of a task: the events, and lines of output or an error. -/
structure Outcome where
  events : List Event
  result : Except String (List String)

/-- Values given as names and texts, each read by the token of the name. -/
def readFields (r : Registry) : List String → Fields → Except String Fields
  | [], fields => .ok fields
  | argument :: rest, fields => do
    let cs := argument.toList
    if '=' ∉ cs then throw ("Expected KEY=VALUE, got '" ++ argument ++ "'")
    let name := String.ofList (cs.takeWhile (· ≠ '='))
    let text := String.ofList ((cs.dropWhile (· ≠ '=')).drop 1)
    let token ← (r.token name).mapError BuildError.message
    let value ← (token.parse text).mapError ReadError.message
    readFields r rest (fields.insert name value)

/-- The template of a group and a name, or the wording of the error. -/
def findTemplate (r : Registry) (group name : String) : Except String Template :=
  (r.template group name).mapError BuildError.message

/-- The lines that show values. -/
def fieldLines (fields : Fields) : List String :=
  fields.entries.map fun e => e.1 ++ "=" ++ e.2.display

/-- The lines that show all tokens and templates. -/
def listLines (r : Registry) : List String :=
  r.tokens.values.map (fun t => "token " ++ t.name ++ " (" ++ t.kind.tag ++ "): " ++ t.regex) ++
    r.templates.entries.flatMap fun g => g.2.values.map fun t => g.1 ++ "." ++ t.display

/-- Formats values. -/
def formatTask (r : Registry) (template group : String) (fields : List String) :
    Except String (List String) := do
  let t ← findTemplate r group template
  let fields ← readFields r fields .empty
  let text ← (t.format fields .standard).mapError FormatError.message
  return [text]

/-- Parses a text. -/
def parseTask (r : Registry) (template group input : String) (diagnose : Bool) :
    Except String (List String) := do
  let t ← findTemplate r group template
  let fields ←
    if diagnose then (t.diagnose input).mapError fun d => d.report t input "input"
    else (t.parse input).mapError ParseError.message
  return fieldLines fields

/-- Shows a pattern. -/
def patternTask (r : Registry) (template group : String) (withSpecs : Bool) :
    Except String (List String) := do
  let t ← findTemplate r group template
  return [t.pattern withSpecs]

/-- A search that can be made: the template and the pattern of its paths. -/
def preparePaths (r : Registry) (template group : String) (fields wildcards : List String) :
    Except String (Template × String) := do
  let t ← findTemplate r group template
  if t.kind ≠ .path then throw ("'" ++ t.name ++ "' is not a path template")
  let fields ← readFields r fields .empty
  let pattern ← (t.searchPattern fields wildcards).mapError FormatError.message
  return (t, pattern)

/-- The event of a path that was passed over. -/
def skippedEvent? : Template.Candidate → Option Event
  | .accepted .. => none
  | .skipped path reason => some (.pathSkipped path reason.message)

/-- What a search comes to. -/
def searchOutcome (candidates : List Template.Candidate) : Outcome :=
  ⟨(candidates.filterMap skippedEvent?).reverse,
    .ok ((candidates.filterMap Template.Candidate.accepted?).map (·.1))⟩

/-- Searches for paths. -/
def pathsTask (r : Registry) (template group : String) (fields wildcards : List String)
    (finish : Outcome → Program) : Program :=
  match preparePaths r template group fields wildcards with
  | .error message => finish ⟨[], .error message⟩
  | .ok (t, pattern) =>
    let started := Event.searchStarted t.name pattern
    match Path.Glob.read pattern with
    | .error fault => finish ⟨[started], .error (SearchError.glob fault).message⟩
    | .ok g =>
      .lookThrough g.base g.components fun base =>
        let found := searchOutcome (t.candidates g base)
        finish { found with events := found.events ++ [started] }

/-- Does a task. -/
def perform (r : Registry) (task : Task) (finish : Outcome → Program) : Program :=
  match task with
  | .format template group fields => finish ⟨[], formatTask r template group fields⟩
  | .parse template group input diagnose => finish ⟨[], parseTask r template group input diagnose⟩
  | .pattern template group withSpecs => finish ⟨[], patternTask r template group withSpecs⟩
  | .paths template group fields wildcards => pathsTask r template group fields wildcards finish
  | .list => finish ⟨[], .ok (listLines r)⟩

/-! ## The whole run -/

/-- The names of the variables in the definitions of a catalog. -/
def variablesOf (c : Catalog) : List String :=
  c.templates.values.flatMap fun g => g.values.flatMap fun e =>
    Definition.variableNames e.definition

/-- The end of a run: the warnings and the log, and then the error if there is one. -/
def conclude (filter : Filter) (warnings : List String) (earlier : List Event) (o : Outcome) :
    Program :=
  let log := warnings ++ filter.lines (o.events ++ earlier)
  match o.result with
  | .ok lines => .finish ⟨0, lines, log⟩
  | .error message => .finish ⟨1, [], log ++ ["Error: " ++ message]⟩

/-- The variable that says what is logged. -/
def logVariable : String := "RUST_LOG"

/-- The filter of a run, and what was wrong with its directives. -/
def filterOf (env : Definition.Environment) (verbosity : Nat) : Filter × List String :=
  let standard := Filter.upTo (.ofVerbosity verbosity)
  match env logVariable with
  | none => (standard, [])
  | some written =>
    let (filter, faults) := standard.extend written
    (filter, faults.map fun f => "warning: " ++ f ++ ", ignoring it")

/-- The end of a run whose definitions cannot be used. -/
def Invocation.refuse (i : Invocation) (log : List String) (message : String) : Program :=
  .finish ⟨1, [], log ++ ["Error loading definitions '" ++ i.definitions ++ "': " ++ message]⟩

/-- Registers what a catalog defines, and does the task. -/
def Invocation.useCatalog (i : Invocation) (filter : Filter) (warnings : List String)
    (c : Catalog) : Program :=
  .askVariables (variablesOf c) fun env =>
    match (Build.load env c).outcome .empty with
    | (.error e, session) => i.refuse (warnings ++ filter.lines session.events) e.message
    | (.ok (), session) => perform session.registry i.task (conclude filter warnings session.events)

/-- Reads the definitions of an invocation, and does its task. -/
def Invocation.program (i : Invocation) : Program :=
  .askVariables [logVariable] fun env =>
    let (filter, warnings) := filterOf env i.verbosity
    .readFile i.definitions fun content =>
      match content with
      | .error fault => i.refuse warnings ("Failed to read definitions file: " ++ fault.message)
      | .ok text =>
        match Catalog.read text with
        | none =>
          i.refuse warnings "Failed to parse definitions TOML: the document is not a catalog"
        | some c => i.useCatalog filter warnings c

/-- The program with arguments. -/
def program (arguments : List String) : Program :=
  match Request.ofArguments arguments with
  | .run i => i.program
  | .help command => .finish ⟨0, helpLines command, []⟩
  | .misuse => .finish ⟨2, [], misuseLines⟩

end Stencil.Command
