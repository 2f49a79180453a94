/-!
# Options and operands

The arguments of a command are options, by a letter or by a long name, and operands. `scan` tells
them apart from left to right: what is wrong first decides, and a request for help ends the scan at
once. Letters can be written in one word, and the value of an option stands behind it or joined to
it.
-/

namespace Stencil.Command

/-- How an option is used. -/
inductive Usage where
  /-- A switch that can be given once. -/
  | switch
  /-- A switch whose occurrences are counted. -/
  | count
  /-- An option with a value that can be given once; an empty value may be refused. -/
  | single (emptyAllowed : Bool)
  /-- An option with a value that can be given again. -/
  | many
deriving DecidableEq, Repr

/-- An option of a command. -/
structure OptionSpec where
  name : String
  letter : Char
  usage : Usage
  help : String
  /-- The value where the option is not given. -/
  default : Option String
deriving Repr

/-- Whether an option has a value. -/
def OptionSpec.hasValue (o : OptionSpec) : Bool :=
  match o.usage with
  | .switch | .count => false
  | .single _ | .many => true

/-- Whether an option can be given again. -/
def OptionSpec.canRepeat (o : OptionSpec) : Bool :=
  match o.usage with
  | .count | .many => true
  | .switch | .single _ => false

/-- What the arguments of a command are. -/
structure CommandSpec where
  options : List OptionSpec
  /-- How many operands there can be; no limit if it is absent. -/
  maxOperands : Option Nat
  /-- Whether everything behind the first operand belongs to another command. -/
  stopsAtOperand : Bool

/-- Why a scan ends before the arguments do. -/
inductive Ending where
  | help
  | misuse
deriving DecidableEq, Repr

/-- The options with their values and the operands found so far, and what is left for another
command. -/
structure Given where
  options : List (String × String)
  operands : List String
  rest : List String
deriving DecidableEq, Repr, Inhabited

namespace Given

/-- Nothing was found. -/
def empty : Given := ⟨[], [], []⟩

/-- The values of an option, in order. -/
def values (g : Given) (name : String) : List String :=
  g.options.filterMap fun o => if o.1 = name then some o.2 else none

/-- The last value of an option, or its default. -/
def valueOr (g : Given) (name default : String) : String := ((g.values name).getLast?).getD default

/-- Whether an option was given. -/
def has (g : Given) (name : String) : Bool := g.options.any (·.1 == name)

/-- Adds an occurrence of an option, if it can be there. -/
def addOption (g : Given) (o : OptionSpec) (value : String) : Except Ending Given :=
  if g.has o.name && !o.canRepeat then .error .misuse
  else if o.usage = .single false ∧ value = "" then .error .misuse
  else .ok { g with options := g.options ++ [(o.name, value)] }

/-- Adds an operand, if there can be one more. -/
def addOperand (g : Given) (c : CommandSpec) (operand : String) : Except Ending Given :=
  if c.maxOperands.any fun n => n ≤ g.operands.length then .error .misuse
  else .ok { g with operands := g.operands ++ [operand] }

end Given

/-- Whether an argument reads as an option; a single dash is an operand. -/
def looksLikeOption (argument : String) : Bool := argument.startsWith "-" && argument ≠ "-"

/-- The value that is the next argument, unless that reads as an option. -/
def nextValue : List String → Except Ending (String × List String)
  | [] => .error .misuse
  | a :: as => if looksLikeOption a then .error .misuse else .ok (a, as)

theorem length_nextValue {as rest : List String} {v : String} (h : nextValue as = .ok (v, rest)) :
    rest.length < as.length := by
  unfold nextValue at h
  split at h
  · simp at h
  · split at h
    · simp at h
    · simp only [Except.ok.injEq, Prod.mk.injEq] at h
      simp [← h.2]

/-- A long option: its name, and the value that is joined to it. -/
def longParts (cs : List Char) : String × Option String :=
  let name := cs.takeWhile (· ≠ '=')
  (.ofList name,
    if name.length < cs.length then some (.ofList (cs.drop (name.length + 1))) else none)

/-- What a word of letters comes to: switches, and at the end perhaps an option whose value is
joined to it or is the next argument. -/
def letters (c : CommandSpec) (g : Given) :
    List Char → Except Ending (Given × Option OptionSpec)
  | [] => .ok (g, none)
  | letter :: cs =>
    if letter = 'h' then .error .help
    else
      match c.options.find? fun o => o.letter = letter with
      | none => .error .misuse
      | some o =>
        if o.hasValue then
          match cs with
          | [] => .ok (g, some o)
          | '=' :: value => (g.addOption o (.ofList value)).map fun g => (g, none)
          | value => (g.addOption o (.ofList value)).map fun g => (g, none)
        else
          match g.addOption o "" with
          | .error e => .error e
          | .ok g => letters c g cs

/-- Adds operands. -/
def addOperands (c : CommandSpec) (g : Given) : List String → Except Ending Given
  | [] => .ok g
  | a :: as =>
    match g.addOperand c a with
    | .error e => .error e
    | .ok g => addOperands c g as

/-- Tells options and operands apart. Behind two dashes there are only operands. -/
def scan (c : CommandSpec) (g : Given) : List String → Except Ending Given
  | [] => .ok g
  | a :: as =>
    match a.toList with
    | ['-', '-'] => if c.stopsAtOperand then .error .misuse else addOperands c g as
    | '-' :: '-' :: cs =>
      let (name, joined) := longParts cs
      if name = "help" then .error (if joined.isNone then .help else .misuse)
      else
        match c.options.find? fun o => o.name = name with
        | none => .error .misuse
        | some o =>
          match o.hasValue, joined with
          | false, none =>
            match g.addOption o "" with
            | .error e => .error e
            | .ok g => scan c g as
          | false, some _ => .error .misuse
          | true, some value =>
            match g.addOption o value with
            | .error e => .error e
            | .ok g => scan c g as
          | true, none =>
            match h : nextValue as with
            | .error e => .error e
            | .ok (value, rest) =>
              have := length_nextValue h
              match g.addOption o value with
              | .error e => .error e
              | .ok g => scan c g rest
    | '-' :: c' :: cs =>
      match letters c g (c' :: cs) with
      | .error e => .error e
      | .ok (g, none) => scan c g as
      | .ok (g, some o) =>
        match h : nextValue as with
        | .error e => .error e
        | .ok (value, rest) =>
          have := length_nextValue h
          match g.addOption o value with
          | .error e => .error e
          | .ok g => scan c g rest
    | _ =>
      if c.stopsAtOperand then .ok { g with operands := [a], rest := as }
      else
        match g.addOperand c a with
        | .error e => .error e
        | .ok g => scan c g as
termination_by as => as.length

end Stencil.Command
