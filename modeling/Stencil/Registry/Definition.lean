import Stencil.Definition.Piece
import Stencil.Definition.Variable
import Stencil.Registry.Basic
import Stencil.Registry.Progress

/-!
# Templates from definitions

A template is built from a definition string: variables are put in, and the pieces become segments.
A reference to a template that is not registered is followed through a table of definitions, and
what it leads to is built and registered first. A reference that leads back to a template under
construction is an error, so the definitions under construction are all different and building ends.
-/

namespace Stencil

/-- The name that a template is known by while it is under construction. -/
def templateKey (group name : String) : String := group ++ "." ++ name

/-- The group and the name that a reference in a template of a group leads to. -/
def referenceTarget (group : String) (reference : String) : String × String :=
  let cs := reference.toList
  if '.' ∈ cs then (.ofList (cs.takeWhile (· ≠ '.')), .ofList ((cs.dropWhile (· ≠ '.')).drop 1))
  else (group, reference)

/-- A text with a dot is split at the first one. -/
theorem exists_split_dot {cs : List Char} (h : '.' ∈ cs) :
    ∃ rest, cs.dropWhile (· ≠ '.') = '.' :: rest ∧ cs = cs.takeWhile (· ≠ '.') ++ '.' :: rest ∧
      '.' ∉ cs.takeWhile (· ≠ '.') := by
  induction cs with
  | nil => cases h
  | cons c cs ih =>
    by_cases hc : c = '.'
    · subst hc
      exact ⟨cs, by simp, by simp, by simp⟩
    · obtain ⟨rest, hdrop, hsplit, htake⟩ := ih ((List.mem_cons.1 h).resolve_left (Ne.symm hc))
      have htakes : (c :: cs).takeWhile (· ≠ '.') = c :: cs.takeWhile (· ≠ '.') := by simp [hc]
      refine ⟨rest, by simpa [hc] using hdrop, ?_, ?_⟩
      · rw [htakes, List.cons_append, ← hsplit]
      · rw [htakes]
        exact List.not_mem_cons_of_ne_of_not_mem (Ne.symm hc) htake

/-- A reference without a dot stays in the group, and one with a dot is the key of what it leads to,
split at the first dot. -/
theorem referenceTarget_cases (group reference : String) :
    ('.' ∉ reference.toList ∧ referenceTarget group reference = (group, reference)) ∨
      ∃ g n, reference = templateKey g n ∧ '.' ∉ g.toList ∧
        referenceTarget group reference = (g, n) := by
  by_cases hdot : '.' ∈ reference.toList
  · obtain ⟨rest, hdrop, hsplit, htake⟩ := exists_split_dot hdot
    refine .inr ⟨_, _, String.toList_inj.1 ?_, ?_, if_pos hdot⟩
    · rw [hdrop]
      simpa [templateKey] using hsplit
    · rwa [String.toList_ofList]
  · exact .inl ⟨hdot, if_neg hdot⟩

namespace TemplateTable

/-- The keys of the definitions. -/
def keys (t : TemplateTable) : List String :=
  t.entries.flatMap fun g => g.2.entries.map fun e => templateKey g.1 e.1

/-- How many definitions are not under construction. -/
def openCount (t : TemplateTable) (p : Progress) : Nat := t.keys.countP fun k => !p.isHeld k

end TemplateTable

theorem NameMap.mem_of_find {α : Type} {name : String} {v : α} :
    ∀ {es : List (String × α)}, NameMap.find name es = some v → (name, v) ∈ es
  | [], h => by simp [NameMap.find] at h
  | (n, w) :: es, h => by
    by_cases hn : n = name
    · simp [NameMap.find, hn] at h
      simp [hn, h]
    · simp only [NameMap.find, if_neg hn] at h
      exact List.mem_cons_of_mem _ (NameMap.mem_of_find h)

theorem TemplateTable.mem_keys {t : TemplateTable} {group name : String} {e : TemplateEntry}
    (h : t.find? group name = some e) : templateKey group name ∈ t.keys := by
  simp only [TemplateTable.find?, Option.bind_eq_some_iff] at h
  obtain ⟨g, hg, he⟩ := h
  exact List.mem_flatMap.2 ⟨(group, g), NameMap.mem_of_find hg,
    List.mem_map.2 ⟨(name, e), NameMap.mem_of_find he, rfl⟩⟩

theorem countP_lt_countP {α : Type} {p q : α → Bool} {x : α} (hpq : ∀ y, q y → p y) (hp : p x)
    (hq : ¬ q x) : ∀ {xs : List α}, x ∈ xs → xs.countP q < xs.countP p
  | [], h => by simp at h
  | y :: ys, h => by
    have mono : ys.countP q ≤ ys.countP p := List.countP_mono_left fun z _ => hpq z
    by_cases hxy : x = y
    · subst hxy
      simp only [List.countP_cons, hp, hq]
      simp
      omega
    · have ih := countP_lt_countP hpq hp hq ((List.mem_cons.1 h).resolve_left hxy)
      have hy := hpq y
      simp only [List.countP_cons]
      split
      · next hqy =>
        rw [if_pos (hy hqy)]
        exact Nat.succ_lt_succ ih
      · exact Nat.lt_of_lt_of_le ih (Nat.le_add_right _ _)

theorem Progress.start_ok {p p' : Progress} {key : String} (h : p.start key = .ok p') :
    p.isHeld key = false ∧ p' = ⟨p.keys ++ [key]⟩ := by
  unfold Progress.start at h
  split at h
  · simp at h
  · next hn => exact ⟨by simpa using hn, (Except.ok.inj h).symm⟩

/-- To take up a definition of the table leaves fewer that can be taken up. -/
theorem TemplateTable.openCount_lt {t : TemplateTable} {group name : String} {e : TemplateEntry}
    {p p' : Progress} (he : t.find? group name = some e)
    (hp : p.start (templateKey group name) = .ok p') : t.openCount p' < t.openCount p := by
  obtain ⟨free, rfl⟩ := Progress.start_ok hp
  refine countP_lt_countP (x := templateKey group name) ?_ ?_ ?_ (TemplateTable.mem_keys he)
  · intro y hy
    simp only [Progress.isHeld, Bool.not_eq_true', List.contains_eq_mem, decide_eq_false_iff_not,
      List.mem_append, not_or] at hy ⊢
    exact hy.1
  · simp [free]
  · simp [Progress.isHeld]

namespace Build

/-- Reads the expressions of a template and registers it. -/
def finishTemplate (group name : String) (kind : Option TemplateKind) (segments : List Segment) :
    Build Template := do
  note (.templateComposed name (Segment.regexAll segments))
  let template ← Template.create name (kind.getD (.ofGroup group)) segments
  insertTemplate group template

/-- The pieces of a definition string with its variables put in. -/
def piecesOf (env : Definition.Environment) (definition : String) : List Definition.Piece :=
  Definition.pieces (Definition.expandVariables env definition)

/-- Builds the segments of a template of a group from the pieces of its definition, and before them
the templates that they refer to. -/
def buildSegments (env : Definition.Environment) (table : TemplateTable) (p : Progress)
    (group : String) : List Definition.Piece → Build (List Segment)
  | [] => return []
  | .literal s :: ps => do
    let rest ← buildSegments env table p group ps
    return .literal s :: rest
  | .placeholder ⟨none, name⟩ :: ps => do
    let token ← (← get).registry.token name
    let rest ← buildSegments env table p group ps
    return .token token :: rest
  | .placeholder ⟨some symbol, reference⟩ :: ps => do
    if symbol ≠ Definition.templateSymbol then throw (.unknownSymbol symbol)
    let target := referenceTarget group reference
    let template ←
      match (← get).registry.template? target.1 target.2 with
      | some t => pure t
      | none =>
        match he : table.find? target.1 target.2 with
        | none => throw (.missingTemplate target.1 target.2)
        | some e =>
          match hp : p.start (templateKey target.1 target.2) with
          | .error chain => throw (.circularReference chain)
          | .ok p' => do
            have := TemplateTable.openCount_lt he hp
            note (.templateStarted (templateKey target.1 target.2) p'.depth)
            let segments ← buildSegments env table p' target.1 (piecesOf env e.definition)
            finishTemplate target.1 target.2 e.kind segments
    let rest ← buildSegments env table p group ps
    return template.toSegment :: rest
termination_by pieces => (table.openCount p, pieces.length)

/-- Builds a template from its definition and registers it. References that lead to nothing
registered are followed through the table. -/
def createTemplate (env : Definition.Environment) (table : TemplateTable) (group name : String)
    (e : TemplateEntry) : Build Template := do
  if (← get).registry.hasTemplate group name then throw (.templateExists group name)
  match Progress.empty.start (templateKey group name) with
  | .error chain => throw (.circularReference chain)
  | .ok p =>
    note (.templateStarted (templateKey group name) p.depth)
    let segments ← buildSegments env table p group (piecesOf env e.definition)
    finishTemplate group name e.kind segments

/-- Registers all tokens of a catalog, and then all its templates that are not registered yet. -/
def load (env : Definition.Environment) (c : Catalog) : Build Unit := do
  for (name, entry) in c.tokens.entries do
    let _ ← createToken name entry.toOptions
  for (group, entries) in c.templates.entries do
    for (name, entry) in entries.entries do
      unless (← get).registry.hasTemplate group name do
        let _ ← createTemplate env c.templates group name entry

end Build

end Stencil
