import Stencil.Event
import Stencil.Pattern.Reader

/-!
# Logs

Events as lines of a log, each with a level and the part of the program it comes from. A filter says
up to which level the events of which parts are shown; the directive with the longest name counts.
-/

namespace Stencil.Command

/-- How detailed an event is. -/
inductive Level where
  | off
  | error
  | warn
  | info
  | debug
  | trace
deriving DecidableEq, Repr, Inhabited

namespace Level

/-- The place of a level among all of them. -/
def rank : Level → Nat
  | off => 0
  | error => 1
  | warn => 2
  | info => 3
  | debug => 4
  | trace => 5

/-- The name of a level. -/
def name : Level → String
  | off => "OFF"
  | error => "ERROR"
  | warn => "WARN"
  | info => "INFO"
  | debug => "DEBUG"
  | trace => "TRACE"

/-- The level of a name, in letters of either case. -/
def ofName? (s : String) : Option Level :=
  [off, error, warn, info, debug, trace].find? fun l => l.name = s.map Char.toUpper

/-- The level that is asked for by so many requests for more. -/
def ofVerbosity : Nat → Level
  | 0 => warn
  | 1 => info
  | 2 => debug
  | _ => trace

end Level

/-! ## Events -/

/-- The level of an event. -/
def eventLevel : Event → Level
  | .templateStarted .. | .templateComposed .. => .trace
  | .tokenRegistered .. | .templateRegistered .. | .searchStarted .. | .pathSkipped .. => .debug

/-- The part of the program that an event comes from. -/
def eventSource : Event → String
  | .templateComposed .. => "template_resolver::template"
  | .searchStarted .. | .pathSkipped .. => "template_resolver::template::path"
  | _ => "template_resolver::resolver"

/-- An event in words. -/
def eventMessage : Event → String
  | .tokenRegistered name kind regex =>
    "registered token '" ++ name ++ "' (" ++ kind ++ "): " ++ regex
  | .templateStarted key depth =>
    "building template " ++ key ++ " (depth " ++ Decimal.ofNat depth ++ ")"
  | .templateComposed name regex => "compiling template '" ++ name ++ "': " ++ regex
  | .templateRegistered group display => "registered template " ++ group ++ "." ++ display
  | .searchStarted name pattern => "searching '" ++ name ++ "' with " ++ pattern
  | .pathSkipped path reason => "skipping " ++ path ++ ": " ++ reason

/-- An event as it stands in a log: further lines are indented. -/
def eventLine (e : Event) : String :=
  "[" ++ (eventLevel e).name ++ " " ++ eventSource e ++ "] " ++
    .ofList ((eventMessage e).toList.flatMap fun c => if c = '\n' then "\n    ".toList else [c])

/-! ## Filters -/

/-- The level up to which the events of some parts are shown, or of all parts if there is no
name. -/
structure Directive where
  source : Option String
  level : Level
deriving DecidableEq, Repr

/-- Which events are shown. -/
structure Filter where
  directives : List Directive
  /-- An expression that messages have to match. -/
  message : Option Pattern.Expression

namespace Filter

/-- The filter that shows all events up to a level. -/
def upTo (level : Level) : Filter := ⟨[⟨none, level⟩], none⟩

/-- Puts in a directive in place of one for the same parts. -/
def insert (f : Filter) (d : Directive) : Filter :=
  if f.directives.any (·.source == d.source) then
    { f with directives := f.directives.map fun e => if e.source = d.source then d else e }
  else { f with directives := f.directives ++ [d] }

/-- How much a directive says about the part it is for. -/
def weight (d : Directive) : Nat := (d.source.map String.utf8ByteSize).getD 0

/-- Of two directives the one that says more, or the later one. -/
def heavier (found : Option Directive) (d : Directive) : Option Directive :=
  match found with
  | none => some d
  | some e => if weight e ≤ weight d then some d else some e

/-- The directive that counts for a part. -/
def directive? (f : Filter) (source : String) : Option Directive :=
  (f.directives.filter fun d => d.source.all fun s => source.startsWith s).foldl heavier none

/-- Whether an event is shown. -/
def shows (f : Filter) (e : Event) : Bool :=
  (f.directive? (eventSource e)).any (fun d => (eventLevel e).rank ≤ d.level.rank) &&
    f.message.all fun m => (Pattern.search (eventMessage e).toList.toArray m.pattern).isSome

/-- The lines of the events that are shown, the latest one being the first of the list. -/
def lines (f : Filter) (events : List Event) : List String :=
  (events.reverse.filter f.shows).map eventLine

/-! ### Reading -/

/-- A text without the blanks around it. -/
def trim (cs : List Char) : List Char :=
  ((cs.dropWhile Unicode.isSpace).reverse.dropWhile Unicode.isSpace).reverse

/-- Reads a directive: a level, a name, or both with an equals sign between them. The error is what
cannot be read. -/
def readDirective (cs : List Char) : Except String Directive :=
  match cs.splitOn '=' with
  | [one] =>
    match Level.ofName? (.ofList one) with
    | some level => .ok ⟨none, level⟩
    | none => .ok ⟨some (.ofList one), .trace⟩
  | [name, level] =>
    let level := trim level
    if level = [] then .ok ⟨some (.ofList name), .trace⟩
    else
      match Level.ofName? (.ofList level) with
      | some level => .ok ⟨some (.ofList name), level⟩
      | none => .error (.ofList level)
  | _ => .error (.ofList cs)

/-- Puts in the directives of a list, and notes what is wrong with the others. -/
def addDirectives (f : Filter) (cs : List Char) : Filter × List String :=
  (((cs.splitOn ',').map trim).filter (· ≠ [])).foldl
    (fun (f, warnings) part =>
      match readDirective part with
      | .ok d => (f.insert d, warnings)
      | .error bad => (f, warnings ++ ["invalid logging spec '" ++ bad ++ "'"]))
    (f, [])

/-- Reads further directives, and behind a slash the expression for messages. What cannot be read is
left out with a warning. -/
def extend (f : Filter) (written : String) : Filter × List String :=
  match written.toList.splitOn '/' with
  | [mods] => f.addDirectives mods
  | [mods, message] =>
    let (f, warnings) := f.addDirectives mods
    match Pattern.Expression.readChars message with
    | .ok e => ({ f with message := some e }, warnings)
    | .error fault => (f, warnings ++ ["invalid regex filter - " ++ fault.message])
  | _ => (f, ["invalid logging spec '" ++ written ++ "' (too many '/'s)"])

end Filter

end Stencil.Command
