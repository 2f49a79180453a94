import Mathlib.Data.List.TakeWhile
import Mathlib.Data.String.Basic
import Mathlib.Logic.Relation
import Stencil.Registry.Definition

/-!
# Well-formed catalogs

The templates of a catalog refer to one another (`Refers`), and what a definition stands for is
found by following its references, if these do not go round in a circle (`Denotes`). A catalog is
well-formed if every token can be built, every placeholder has something to stand for, no template
refers back to itself, and the expression of every template can be read. No registry occurs in any
of this.

Templates under construction are told apart by a key that is written together from a group and a
name. Different templates can have the same key, but then the group of one of them has a dot in it
and comes after the group of the other one (`lt_of_templateKey_eq`).
-/

namespace Stencil

open Definition Build

/-! ## Keys and targets -/

/-- A reference stays in its group or leads to a group without a dot. -/
theorem referenceTarget_group (group reference : String) :
    (referenceTarget group reference).1 = group ∨
    '.' ∉ (referenceTarget group reference).1.toList := by
  rcases referenceTarget_cases group reference with ⟨-, h⟩ | ⟨g, n, -, hg, h⟩
  · exact .inl (by rw [h])
  · exact .inr (by rwa [h])

theorem templateKey_toList (group name : String) :
    (templateKey group name).toList = group.toList ++ '.' :: name.toList := by
  simp [templateKey]

theorem lt_of_toList_append {s t : String} {cs : List Char} (h : t.toList = s.toList ++ cs)
    (hcs : cs ≠ []) : s < t := by
  rw [String.lt_iff_toList_lt, h]
  obtain ⟨c, cs, rfl⟩ := List.exists_cons_of_ne_nil hcs
  have hlt : s.toList ++ [] < s.toList ++ c :: cs := List.append_left_lt (List.nil_lt_cons c cs)
  rwa [List.append_nil] at hlt

/-- Of two templates with one key, the one in a group without a dot is in the earlier group. -/
theorem lt_of_templateKey_eq {group name group' name' : String}
    (h : templateKey group name = templateKey group' name') (hdot : '.' ∉ group'.toList) :
    (group, name) = (group', name') ∨ '.' ∈ group.toList ∧ group' < group := by
  have hchars := congrArg String.toList h
  rw [templateKey_toList, templateKey_toList, List.append_eq_append_iff] at hchars
  obtain ⟨cs, hgroup, hrest⟩ | ⟨cs, hgroup, hrest⟩ := hchars
  · cases cs with
    | nil =>
      have hg : group' = group := String.toList_inj.1 (by simpa using hgroup)
      have hn : name = name' := String.toList_inj.1 (by simpa using hrest)
      exact .inl (by rw [hg, hn])
    | cons c cs =>
      obtain ⟨rfl, -⟩ := List.cons.inj hrest
      exact absurd (by simp [hgroup]) hdot
  · cases cs with
    | nil =>
      have hg : group = group' := String.toList_inj.1 (by simpa using hgroup)
      have hn : name' = name := String.toList_inj.1 (by simpa using hrest)
      exact .inl (by rw [hg, hn])
    | cons c cs =>
      obtain ⟨rfl, -⟩ := List.cons.inj hrest
      exact .inr ⟨by simp [hgroup], lt_of_toList_append hgroup nofun⟩

theorem TemplateTable.find?_eq_some_iff {t : TemplateTable} {group name : String}
    {e : TemplateEntry} :
    t.find? group name = some e ↔ ∃ es, (group, es) ∈ t.entries ∧ (name, e) ∈ es.entries := by
  simp only [TemplateTable.find?, Option.bind_eq_some_iff, NameMap.get?_eq_some_iff]

/-! ## What definitions stand for -/

/-- An entry defines a token under a name, of one of the built-in kinds. -/
def TokenEntry.Builds (entry : TokenEntry) (name : String) (u : Token) : Prop :=
  ∃ kind, KindRegistry.builtIn.get entry.toOptions.kind = .ok kind ∧
    Token.ofOptions name kind entry.toOptions = .ok u

theorem TokenEntry.Builds.unique {entry : TokenEntry} {name : String} {u v : Token}
    (hu : entry.Builds name u) (hv : entry.Builds name v) : u = v := by
  obtain ⟨kind, hkind, hu⟩ := hu
  obtain ⟨kind', hkind', hv⟩ := hv
  rw [hkind] at hkind'
  cases hkind'
  rw [hu] at hv
  exact Except.ok.inj hv

namespace Catalog

variable {env : Environment} {c : Catalog}

/-- The catalog defines a token of this name. -/
def Defines (c : Catalog) (name : String) (u : Token) : Prop :=
  ∃ entry, c.tokens.get? name = some entry ∧ entry.Builds name u

theorem Defines.unique {name : String} {u v : Token} (hu : c.Defines name u)
    (hv : c.Defines name v) : u = v := by
  obtain ⟨entry, hentry, hu⟩ := hu
  obtain ⟨entry', hentry', hv⟩ := hv
  rw [hentry] at hentry'
  cases hentry'
  exact hu.unique hv

/-- The segments that the pieces of a definition in a group stand for, with what they refer to in
place. -/
inductive Denotes (env : Environment) (c : Catalog) :
    String → List Piece → List Segment → Prop where
  | nil {group : String} : Denotes env c group [] []
  | literal {group text : String} {pieces : List Piece} {segments : List Segment}
      (rest : Denotes env c group pieces segments) :
      Denotes env c group (.literal text :: pieces) (.literal text :: segments)
  | token {group name : String} {u : Token} {pieces : List Piece} {segments : List Segment}
      (defined : c.Defines name u) (rest : Denotes env c group pieces segments) :
      Denotes env c group (.placeholder ⟨none, name⟩ :: pieces) (.token u :: segments)
  | template {group reference group' name' : String} {e : TemplateEntry} {pieces : List Piece}
      {inner segments : List Segment} (target : referenceTarget group reference = (group', name'))
      (found : c.templates.find? group' name' = some e)
      (inside : Denotes env c group' (piecesOf env e.definition) inner)
      (rest : Denotes env c group pieces segments) :
      Denotes env c group (.placeholder ⟨some templateSymbol, reference⟩ :: pieces)
        (.template name' (e.kind.getD (.ofGroup group')) inner :: segments)

theorem Denotes.unique {group : String} {pieces : List Piece} {ss ss' : List Segment}
    (h : c.Denotes env group pieces ss) (h' : c.Denotes env group pieces ss') : ss = ss' := by
  induction h generalizing ss' with
  | nil =>
    cases h'
    rfl
  | literal rest ih =>
    cases h' with
    | literal rest' => rw [ih rest']
  | token defined rest ih =>
    cases h' with
    | token defined' rest' => rw [defined.unique defined', ih rest']
  | template target found inside rest ihInside ih =>
    cases h' with
    | template target' found' inside' rest' =>
      rw [target] at target'
      cases target'
      rw [found] at found'
      cases found'
      rw [ihInside inside', ih rest']

/-- The catalog defines a template of this group and name, and its expressions can be read. -/
def Makes (env : Environment) (c : Catalog) (group name : String) (t : Template) : Prop :=
  ∃ e segments, c.templates.find? group name = some e ∧
    c.Denotes env group (piecesOf env e.definition) segments ∧
    Template.create name (e.kind.getD (.ofGroup group)) segments = .ok t

/-! ## References -/

/-- The definition of one template refers to another one. -/
def Refers (env : Environment) (c : Catalog) (x y : String × String) : Prop :=
  ∃ e reference, c.templates.find? x.1 x.2 = some e ∧
    .placeholder ⟨some templateSymbol, reference⟩ ∈ piecesOf env e.definition ∧
    y = referenceTarget x.1 reference

theorem Refers.group {x y : String × String} (h : c.Refers env x y) :
    y.1 = x.1 ∨ '.' ∉ y.1.toList := by
  obtain ⟨e, reference, -, -, rfl⟩ := h
  exact referenceTarget_group ..

/-- So do references one after the other. -/
theorem group_of_refers {x y : String × String} (h : Relation.ReflTransGen (c.Refers env) x y) :
    y.1 = x.1 ∨ '.' ∉ y.1.toList := by
  induction h with
  | refl => exact .inl rfl
  | tail _ hlast ih =>
    obtain heq | hdot := hlast.group
    · rwa [heq]
    · exact .inr hdot

/-- There is no way on for ever from the templates that denoting pieces refer to. -/
theorem Denotes.acc {group : String} {pieces : List Piece} {segments : List Segment}
    (h : c.Denotes env group pieces segments) {reference : String}
    (hmem : .placeholder ⟨some templateSymbol, reference⟩ ∈ pieces) :
    Acc (Function.swap (c.Refers env)) (referenceTarget group reference) := by
  induction h generalizing reference with
  | nil => cases hmem
  | literal rest ih => exact ih ((List.mem_cons.1 hmem).resolve_left nofun)
  | token defined rest ih => exact ih ((List.mem_cons.1 hmem).resolve_left nofun)
  | template target found inside rest ihInside ih =>
    rcases List.mem_cons.1 hmem with heq | hmem
    · cases heq
      refine ⟨_, fun y hy => ?_⟩
      obtain ⟨e, reference, hfound, hreference, rfl⟩ := hy
      rw [target] at hfound ⊢
      rw [found] at hfound
      cases hfound
      exact ihInside hreference
    · exact ih hmem

/-- If every definition denotes, then no template refers back to itself. -/
theorem acyclic_of_denotes (h : ∀ group name e, c.templates.find? group name = some e →
      ∃ segments, c.Denotes env group (piecesOf env e.definition) segments) (x : String × String) :
    ¬ Relation.TransGen (c.Refers env) x x := by
  have hwf : WellFounded (Function.swap (c.Refers env)) := by
    refine ⟨fun x => ⟨_, fun y hy => ?_⟩⟩
    obtain ⟨e, reference, hfound, hreference, rfl⟩ := hy
    obtain ⟨segments, hsegments⟩ := h x.1 x.2 e hfound
    exact hsegments.acc hreference
  intro hcycle
  rw [← Relation.transGen_swap] at hcycle
  exact hwf.transGen.asymmetric x x hcycle hcycle

/-! ## Well-formedness -/

/-- A piece in a template of a group has something to stand for. -/
def Resolves (c : Catalog) (group : String) : Piece → Prop
  | .literal _ => True
  | .placeholder ⟨none, name⟩ => (c.tokens.get? name).isSome
  | .placeholder ⟨some symbol, reference⟩ => symbol = templateSymbol ∧
    (c.templates.find? (referenceTarget group reference).1
      (referenceTarget group reference).2).isSome

theorem Denotes.resolves {group : String} {pieces : List Piece} {segments : List Segment}
    (h : c.Denotes env group pieces segments) {piece : Piece} (hmem : piece ∈ pieces) :
    c.Resolves group piece := by
  induction h with
  | nil => cases hmem
  | literal rest ih =>
    rcases List.mem_cons.1 hmem with rfl | hmem
    · trivial
    · exact ih hmem
  | token defined rest ih =>
    rcases List.mem_cons.1 hmem with rfl | hmem
    · obtain ⟨entry, hentry, -⟩ := defined
      exact Option.isSome_of_eq_some hentry
    · exact ih hmem
  | template target found inside rest ihInside ih =>
    rcases List.mem_cons.1 hmem with rfl | hmem
    · refine ⟨rfl, ?_⟩
      rw [target]
      exact Option.isSome_of_eq_some found
    · exact ih hmem

/-- A catalog is well-formed in an environment. -/
structure WellFormed (env : Environment) (c : Catalog) : Prop where
  /-- Every token can be built. -/
  tokens : ∀ name entry, c.tokens.get? name = some entry → ∃ u, entry.Builds name u
  /-- Every placeholder has something to stand for. -/
  resolves : ∀ group name e, c.templates.find? group name = some e →
    ∀ piece ∈ piecesOf env e.definition, c.Resolves group piece
  /-- No template refers back to itself. -/
  acyclic : ∀ x, ¬ Relation.TransGen (c.Refers env) x x
  /-- The expressions of every template can be read. -/
  compiles : ∀ group name e segments, c.templates.find? group name = some e →
    c.Denotes env group (piecesOf env e.definition) segments →
    ∃ t, Template.create name (e.kind.getD (.ofGroup group)) segments = .ok t

/-- A catalog that makes every one of its tokens and templates is well-formed. -/
theorem wellFormed_of_makes
    (htokens : ∀ name entry, c.tokens.get? name = some entry → ∃ u, entry.Builds name u)
    (h : ∀ group name e, c.templates.find? group name = some e → ∃ t, c.Makes env group name t) :
    c.WellFormed env := by
  have hdenotes : ∀ group name e, c.templates.find? group name = some e → ∃ segments t,
      c.Denotes env group (piecesOf env e.definition) segments ∧
      Template.create name (e.kind.getD (.ofGroup group)) segments =
      .ok t := fun group name e he => by
    obtain ⟨t, e', segments, he', hsegments, ht⟩ := h group name e he
    rw [he] at he'
    cases he'
    exact ⟨segments, t, hsegments, ht⟩
  refine ⟨htokens, fun group name e he piece hpiece => ?_, ?_,
    fun group name e segments he hsegments => ?_⟩
  · obtain ⟨segments, t, hsegments, -⟩ := hdenotes group name e he
    exact hsegments.resolves hpiece
  · refine acyclic_of_denotes fun group name e he => ?_
    obtain ⟨segments, t, hsegments, -⟩ := hdenotes group name e he
    exact ⟨segments, hsegments⟩
  · obtain ⟨segments', t, hsegments', ht⟩ := hdenotes group name e he
    rw [hsegments.unique hsegments']
    exact ⟨t, ht⟩

end Catalog

end Stencil
