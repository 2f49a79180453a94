import Stencil.Definition.Lexeme

/-!
# Variables in a definition

A definition may name variables of the environment, as a dollar sign with a name, or with a name in
braces. They are replaced once, from left to right, before anything else is read; a variable that
is not set stays as it is written.
-/

namespace Stencil.Definition

/-- The variables that are set. -/
abbrev Environment := String → Option String

/-- The parts of a text that may name variables. -/
inductive Chunk where
  | text (s : String)
  | variable (name : String) (braced : Bool)
  /-- A dollar sign that names nothing. -/
  | dollar
  /-- A name in braces that breaks off. -/
  | broken (s : String)
deriving DecidableEq, Repr, Inhabited

/-- A chunk as it is written. -/
def Chunk.chars : Chunk → List Char
  | .text s => s.toList
  | .variable name false => '$' :: name.toList
  | .variable name true => '$' :: '{' :: (name.toList ++ ['}'])
  | .dollar => ['$']
  | .broken s => s.toList

/-- The chunk of a dollar sign, a brace and a run of name characters, by what follows them. -/
def closeVariable (name : List Char) : List Char → Chunk × List Char
  | '}' :: rest => (.variable (.ofList name) true, rest)
  | rest => (.broken (.ofList ('$' :: '{' :: name)), rest)

theorem closeVariable_chars (name rest : List Char) :
    (closeVariable name rest).1.chars ++ (closeVariable name rest).2 =
      '$' :: '{' :: (name ++ rest) := by
  unfold closeVariable
  split
  · simp [Chunk.chars]
  · simp only [Chunk.chars, String.toList_ofList, List.cons_append]

/-- The chunk that a dollar sign begins, and what follows it. -/
def afterDollar : List Char → Chunk × List Char
  | [] => (.dollar, [])
  | c :: cs =>
    if c = '{' then
      if cs.takeWhile isNameChar = [] then (.dollar, c :: cs)
      else closeVariable (cs.takeWhile isNameChar) (cs.dropWhile isNameChar)
    else if isNameChar c then
      (.variable (.ofList (c :: cs.takeWhile isNameChar)) false, cs.dropWhile isNameChar)
    else (.dollar, c :: cs)

theorem afterDollar_chars (cs : List Char) :
    (afterDollar cs).1.chars ++ (afterDollar cs).2 = '$' :: cs := by
  cases cs with
  | nil => rfl
  | cons c cs =>
    have h := List.takeWhile_append_dropWhile (p := isNameChar) (l := cs)
    simp only [afterDollar]
    by_cases hc : c = '{'
    · rw [if_pos hc]
      by_cases ht : cs.takeWhile isNameChar = []
      · rw [if_pos ht]
        rfl
      · rw [if_neg ht, closeVariable_chars, h, hc]
    · rw [if_neg hc]
      by_cases hn : isNameChar c = true
      · rw [if_pos hn]
        simp only [Chunk.chars, String.toList_ofList, List.cons_append, h]
      · rw [if_neg hn]
        rfl

/-- Every chunk that a dollar sign begins holds a character. -/
theorem afterDollar_ne_nil (cs : List Char) : (afterDollar cs).1.chars ≠ [] := by
  unfold afterDollar closeVariable
  repeat' split
  all_goals simp [Chunk.chars]

theorem length_afterDollar (cs : List Char) : (afterDollar cs).2.length ≤ cs.length := by
  have h := congrArg List.length (afterDollar_chars cs)
  have h' := List.length_pos_iff.2 (afterDollar_ne_nil cs)
  simp only [List.length_append, List.length_cons] at h
  omega

/-- Characters of plain text, which ends at the next dollar sign. -/
def notDollar (c : Char) : Bool := c != '$'

/-- The chunks of a text, from left to right. -/
def chunks : List Char → List Chunk
  | [] => []
  | c :: cs =>
    if c = '$' then (afterDollar cs).1 :: chunks (afterDollar cs).2
    else .text (.ofList (c :: cs.takeWhile notDollar)) :: chunks (cs.dropWhile notDollar)
termination_by cs => cs.length
decreasing_by
  · have := length_afterDollar cs
    simp only [List.length_cons]
    omega
  · have := length_dropWhile_le notDollar cs
    simp only [List.length_cons]
    omega

/-- The chunks of a text, written one after the other, are that text. -/
theorem chunks_chars (cs : List Char) : (chunks cs).flatMap Chunk.chars = cs := by
  fun_induction chunks cs with
  | case1 => rfl
  | case2 cs ih => rw [List.flatMap_cons, ih, afterDollar_chars]
  | case3 c cs _ ih =>
    rw [List.flatMap_cons, ih, Chunk.chars, String.toList_ofList, List.cons_append,
      List.takeWhile_append_dropWhile]

/-- The chunks with the byte offsets at which they start and end. -/
def chunkSpans (s : String) : List (Chunk × Nat × Nat) :=
  let cs := chunks s.toList
  cs.zip (byteSpans 0 (cs.map Chunk.chars))

/-- What stands in place of a chunk. -/
def Chunk.expand (env : Environment) : Chunk → List Char
  | .variable name braced =>
    match env name with
    | some value => value.toList
    | none => (Chunk.variable name braced).chars
  | c => c.chars

/-- Replaces the variables that are set. -/
def expandVariables (env : Environment) (s : String) : String :=
  .ofList ((chunks s.toList).flatMap (Chunk.expand env))

/-- The name of the variable that a chunk stands for. -/
def Chunk.name? : Chunk → Option String
  | .variable name _ => some name
  | _ => none

/-- The names of the variables in a text. -/
def variableNames (s : String) : List String := (chunks s.toList).filterMap Chunk.name?

theorem Chunk.expand_congr {env env' : Environment} {c : Chunk}
    (h : ∀ name ∈ c.name?, env name = env' name) : c.expand env = c.expand env' := by
  match c with
  | .variable name braced => simp [Chunk.expand, h name rfl]
  | .text _ => rfl
  | .dollar => rfl
  | .broken _ => rfl

/-- Only the variables that a text names matter to it. -/
theorem expandVariables_congr {env env' : Environment} {s : String}
    (h : ∀ name ∈ variableNames s, env name = env' name) :
    expandVariables env s = expandVariables env' s := by
  have same : ∀ c ∈ chunks s.toList, c.expand env = c.expand env' := fun c hc =>
    Chunk.expand_congr fun name hn => h name (List.mem_filterMap.2 ⟨c, hc, hn⟩)
  rw [expandVariables, expandVariables, List.flatMap_def, List.flatMap_def,
    List.map_congr_left same]

end Stencil.Definition
