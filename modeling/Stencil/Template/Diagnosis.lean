import Stencil.Template.Parse

/-!
# Diagnosis

Where and why a text stops matching a template. The segments are tried as a sequence of groups, all
of them first and then fewer and fewer from the end, until the beginning of the text matches: the
segment behind those is the one that fails.
-/

namespace Stencil

/-- Why a text stops matching. -/
inductive Mismatch where
  /-- The expression of the first segments, so many of them, cannot be read. -/
  | unreadable (fault : Pattern.Fault)
  /-- A token's text stands for no value. -/
  | value (e : ReadError)
  /-- Not even the first segment matches. -/
  | nowhere
  /-- The segment of this number is the first that fails; the label names it. -/
  | segment (index : Nat) (label : String)
  /-- Two occurrences of a token stand for different values. -/
  | repetition (token : String) (previous later : Value)
  /-- All segments match, and text is left over. -/
  | excess
deriving DecidableEq

/-- Where and why a text stops matching, and what was read before. -/
structure Diagnosis where
  cause : Mismatch
  charIndex : Nat
  segmentIndex : Nat
  fields : Fields
deriving DecidableEq

/-- The wording of a diagnosis. -/
def Mismatch.message : Mismatch → String
  | unreadable fault => fault.message
  | value e => e.message
  | nowhere => "String does not match at all"
  | segment index label => "Match fails at segment (" ++ Decimal.ofNat index ++ ") " ++ label
  | repetition token previous later =>
    "Mismatched values for token \x7b" ++ token ++ "\x7d: " ++ previous.display ++
      " != " ++ later.display
  | excess => "Template matches string with remainder"

namespace Segment

/-- The expression of a flat segment alone. -/
def ownRegex : Segment → String
  | .literal s => Pattern.quote s
  | .token t => t.regex
  | .template _ _ ss => regexAll ss

/-- What a failing segment is called. -/
def label : Segment → String
  | .literal s => "'" ++ s ++ "'"
  | .token t => placeholder false t
  | .template name _ _ => "\x7b@" ++ name ++ "\x7d"

/-- The byte from which on a text stops matching a segment that is tried from a byte: a literal may
go along for a while. -/
def breakOffset : Segment → (cs : List Char) → (start : Nat) → Nat
  | .literal s, cs, start => divergence s.toList cs start
  | _, _, start => start

end Segment

namespace Template

/-- The name of the group of a segment. -/
def groupName (index : Nat) : String := "s" ++ Decimal.ofNat index

/-- The expression of the first segments, each in a group of its own. -/
def groupsRegex (segments : List Segment) : String :=
  "^" ++ String.join (segments.mapIdx fun i s => "(?P<" ++ groupName i ++ ">" ++ s.ownRegex ++ ")")

/-- The values of the tokens among segments, given where each segment matched: the first value that
cannot be read or that differs from an earlier one of the same token ends it. -/
def readGroups (text : Array Char) (group? : Nat → Option (Nat × Nat)) :
    (index : Nat) → List Segment → Fields → Except Diagnosis Fields
  | _, [], fields => .ok fields
  | index, .token t :: ss, fields =>
    match group? index with
    | none => readGroups text group? (index + 1) ss fields
    | some (start, stop) =>
      let charIndex := charOffset text.toList (byteOffset text.toList start)
      match t.readValue (.ofList (text.extract start stop).toList) with
      | .error e => .error ⟨.value e, charIndex, index, fields⟩
      | .ok v =>
        match fields.get? t.name with
        | none => readGroups text group? (index + 1) ss (fields.insert t.name v)
        | some previous =>
          if previous = v then readGroups text group? (index + 1) ss fields
          else .error ⟨.repetition t.name previous v, charIndex, index, fields.erase t.name⟩
  | index, _ :: ss, fields => readGroups text group? (index + 1) ss fields

/-- What follows from a match of the first `count` segments and no more. -/
def diagnoseMatch (text : Array Char) (segments : List Segment) (count : Nat)
    (group? : Nat → Option (Nat × Nat)) (stop : Nat) : Except Diagnosis Fields := do
  let fields ← readGroups text group? 0 (segments.take count) .empty
  let reached := byteOffset text.toList stop
  match segments[count]? with
  | none =>
    if reached = byteLength text.toList then return fields
    else throw ⟨.excess, charOffset text.toList reached, count, fields⟩
  | some next =>
    let broken := next.breakOffset text.toList reached
    throw ⟨.segment count next.label, charOffset text.toList broken, count, fields⟩

/-- Tries the first `count` segments, then fewer and fewer. -/
def diagnoseFrom (text : Array Char) (segments : List Segment) :
    (count : Nat) → Except Diagnosis Fields
  | 0 => .error ⟨.nowhere, 0, 0, .empty⟩
  | count + 1 =>
    match Pattern.Expression.read (groupsRegex (segments.take (count + 1))) with
    | .error fault => .error ⟨.unreadable fault, 0, 0, .empty⟩
    | .ok e =>
      match Pattern.search text e.pattern with
      | none => diagnoseFrom text segments count
      | some f =>
        diagnoseMatch text segments (count + 1) (fun i => e.named? f (groupName i)) f.stop.pos

/-- The values of the tokens in a text that matches as a whole, or else where and why it stops
matching. -/
def diagnose (t : Template) (s : String) : Except Diagnosis Fields :=
  let segments := t.flat
  diagnoseFrom (t.kind.prepare s.toList).toArray segments segments.length

end Template

/-- The failing segment in words, or the cause where there is none. -/
def Diagnosis.headline (d : Diagnosis) (t : Template) : String :=
  match t.flat[d.segmentIndex]? with
  | some (.literal s) => "String '" ++ s ++ "' does not match"
  | some (.token u) => "Token '" ++ u.name ++ "' does not match: " ++ u.description
  | some (.template name _ _) => "Template '" ++ name ++ "' does not match"
  | none => d.cause.message

end Stencil
