import Stencil.Proofs.Registry.Meaning
import Stencil.Proofs.Registry.Throwing

/-!
# How building changes a registry

Building from pieces adds templates to a registry, one after another, and does nothing else to it,
whether it succeeds (`builds`) or fails (`breaks`). Each template that is added is new, its key is
not held, and it is what the table of definitions says: of each piece of its definition it has what
the registry holds for it (`Registry.Realizes`). All this is so for every registry, whatever it
holds before, and for every table.
-/

namespace Stencil

open Definition Build

variable {env : Environment} {table : TemplateTable} {p : Progress}
  {s s' : Session} {r r' r'' : Registry}

namespace Registry

/-! ## What stays -/

/-- All that one registry holds another one holds under the same names. -/
structure Keeps (r r' : Registry) : Prop where
  tokens : ∀ name u, r.token? name = some u → r'.token? name = some u
  templates : ∀ group name t, r.template? group name = some t → r'.template? group name = some t

theorem Keeps.refl : Keeps r r := ⟨fun _ _ h => h, fun _ _ _ h => h⟩

theorem Keeps.trans (h : Keeps r r') (h' : Keeps r' r'') : Keeps r r'' :=
  ⟨fun name u hu => h'.tokens name u (h.tokens name u hu),
    fun group name t ht => h'.templates group name t (h.templates group name t ht)⟩

theorem Keeps.token?_eq_none (h : Keeps r r') {name : String} (hnone : r'.token? name = none) :
    r.token? name = none := by
  refine Option.eq_none_iff_forall_ne_some.2 fun u hu => ?_
  rw [h.tokens name u hu] at hnone
  cases hnone

theorem Extends.keeps (h : Extends p r r') : Keeps r r' := by
  refine ⟨fun name u hu => ?_, h.kept⟩
  rwa [token?, h.tokens]

theorem keeps_addToken {u : Token} (hnone : r.token? u.name = none) : Keeps r (r.addToken u) := by
  refine ⟨fun name v hv => ?_, fun group name t ht => ht⟩
  rw [token?_addToken, if_neg, hv]
  rintro rfl
  rw [hnone] at hv
  cases hv

theorem keeps_addTemplate {group : String} {t : Template}
    (hnone : r.template? group t.name = none) : Keeps r (r.addTemplate group t) :=
  (Extends.addTemplate (p := .empty) hnone rfl).keeps

theorem Stands.mono {group : String} {piece : Piece} {segment : Segment}
    (h : r.Stands group piece segment) (hkeeps : Keeps r r') : r'.Stands group piece segment := by
  cases h with
  | literal text => exact .literal text
  | token registered => exact .token (hkeeps.tokens _ _ registered)
  | template target registered => exact .template target (hkeeps.templates _ _ _ registered)

/-- A template is what its definition says, by what a registry holds for the pieces. -/
structure Realizes (env : Environment) (r : Registry) (group name : String)
    (e : TemplateEntry) (t : Template) :
    Prop where
  name_eq : t.name = name
  kind_eq : t.kind = e.kind.getD (.ofGroup group)
  segments : List.Forall₂ (r.Stands group) (piecesOf env e.definition) t.segments

theorem Realizes.mono {group name : String} {e : TemplateEntry} {t : Template}
    (h : Realizes env r group name e t) (hkeeps : Keeps r r') : Realizes env r' group name e t :=
  ⟨h.name_eq, h.kind_eq, h.segments.imp fun _ _ hstands => hstands.mono hkeeps⟩

/-! ## What is added -/

/-- While some keys are held, a template of another key is added as a table defines it. -/
inductive Adds (env : Environment) (table : TemplateTable) (p : Progress) (r : Registry) :
    Registry → Prop where
  | template {group name : String} {e : TemplateEntry} {t : Template}
      (found : table.find? group name = some e)
    (new : r.template? group name = none) (free : p.isHeld (templateKey group name) = false)
    (realizes : Realizes env r group name e t) : Adds env table p r (r.addTemplate group t)

/-- While some keys are held, templates of other keys are added, one after another. -/
abbrev Grows (env : Environment) (table : TemplateTable) (p : Progress) :
    Registry → Registry → Prop :=
  Relation.ReflTransGen (Adds env table p)

theorem Adds.extends (h : Adds env table p r r') : Extends p r r' := by
  obtain ⟨-, hnew, hfree, hrealizes⟩ := h
  rw [← hrealizes.name_eq] at hnew hfree
  exact .addTemplate hnew hfree

theorem Grows.extends (h : Grows env table p r r') : Extends p r r' := by
  induction h with
  | refl => exact .refl
  | tail _ hlast ih => exact ih.trans hlast.extends

theorem Grows.keeps (h : Grows env table p r r') : Keeps r r' := h.extends.keeps

theorem Grows.kinds (h : Grows env table p r r') : r'.kinds = r.kinds := by
  induction h with
  | refl => rfl
  | tail _ hlast ih =>
    obtain ⟨-, -, -, -⟩ := hlast
    exact ih

theorem Adds.release {key : String} (h : Adds env table ⟨p.keys ++ [key]⟩ r r') :
    Adds env table p r r' := by
  obtain ⟨hfound, hnew, hfree, hrealizes⟩ := h
  refine .template hfound hnew (Bool.eq_false_iff.2 fun hheld => ?_) hrealizes
  rw [Progress.isHeld_append.2 (.inl hheld)] at hfree
  cases hfree

theorem Grows.release {key : String} (h : Grows env table ⟨p.keys ++ [key]⟩ r r') :
    Grows env table p r r' :=
  h.lift id fun _ _ hadds => hadds.release

/-- What has been added is what the table defines, by what the registry has come to hold. -/
theorem Grows.realizes (h : Grows env table p r r') {group name : String} {t : Template}
    (ht : r'.template? group name = some t) :
    r.template? group name = some t ∨
      ∃ e, table.find? group name = some e ∧ Realizes env r' group name e t := by
  induction h with
  | refl => exact .inl ht
  | @tail b c _ hlast ih =>
    have hkeeps := hlast.extends.keeps
    obtain ⟨hfound, hnew, -, hrealizes⟩ := hlast
    rw [template?_addTemplate] at ht
    split at ht
    · next heq =>
      obtain ⟨rfl, rfl⟩ := heq
      cases ht
      have hname := hrealizes.name_eq
      subst hname
      exact .inr ⟨_, hfound, hrealizes.mono hkeeps⟩
    · obtain hsome | ⟨e, he, hrealizes⟩ := ih ht
      · exact .inl hsome
      · exact .inr ⟨e, he, hrealizes.mono hkeeps⟩

end Registry

/-! ## Building that succeeds -/

/-- While some keys are held, building from pieces adds templates, and gives what stands for the
pieces. -/
def Builds (env : Environment) (table : TemplateTable) (p : Progress) (group : String)
    (pieces : List Piece) : Prop :=
  ∀ ⦃s segments s'⦄, Returns (buildSegments env table p group pieces) s segments s' →
    s.registry.Grows env table p s'.registry ∧
      List.Forall₂ (s'.registry.Stands group) pieces segments

section Returning

variable {group name : String} {e : TemplateEntry} {t : Template}

/-- A template is built by adding those that it refers to, and then itself. -/
theorem realizes_of_construct
    (hbuilds : Builds env table ⟨p.keys ++ [templateKey group name]⟩ group
      (piecesOf env e.definition))
    (hnone : s.registry.template? group name = none)
    (h : Returns (construct env table ⟨p.keys ++ [templateKey group name]⟩ group name e) s t s') :
    ∃ r, s.registry.Grows env table ⟨p.keys ++ [templateKey group name]⟩ r ∧
      r.template? group name = none ∧ r.Realizes env group name e t ∧
      s'.registry = r.addTemplate group t := by
  obtain ⟨segments, s₁, hsegments, hfinish⟩ := returns_construct.1 h
  obtain ⟨hgrows, hstands⟩ := hbuilds hsegments
  obtain ⟨t', ht, hinsert⟩ := returns_finishTemplate.1 hfinish
  obtain ⟨-, rfl, rfl⟩ := returns_insertTemplate.1 hinsert
  obtain ⟨rfl, hkind, hname, -⟩ := Template.create_eq ht
  refine ⟨s₁.registry, hgrows, ?_, ⟨hname, hkind, hstands⟩, rfl⟩
  rw [hgrows.extends.held _ _ (Progress.isHeld_append.2 (.inr rfl))]
  exact hnone

theorem grows_of_construct
    (hbuilds : Builds env table ⟨p.keys ++ [templateKey group name]⟩ group
      (piecesOf env e.definition))
    (hnone : s.registry.template? group name = none) (he : table.find? group name = some e)
    (hfree : p.isHeld (templateKey group name) = false)
    (h : Returns (construct env table ⟨p.keys ++ [templateKey group name]⟩ group name e) s t s') :
    s.registry.Grows env table p s'.registry ∧ s'.registry.template? group name = some t := by
  obtain ⟨r, hgrows, hnew, hrealizes, hs'⟩ := realizes_of_construct hbuilds hnone h
  rw [hs']
  refine ⟨hgrows.release.tail (.template he hnew hfree hrealizes), ?_⟩
  rw [Registry.template?_addTemplate, if_pos ⟨rfl, hrealizes.name_eq⟩]

/-- A reference gives the template that is then registered where it leads to. -/
theorem grows_of_follow {target : String × String} {t : Template}
    (hbuilds : ∀ e, table.find? target.1 target.2 = some e →
      p.isHeld (templateKey target.1 target.2) = false →
      Builds env table ⟨p.keys ++ [templateKey target.1 target.2]⟩ target.1
        (piecesOf env e.definition))
    (h : Returns (follow env table p target) s t s') :
    s.registry.Grows env table p s'.registry ∧
    s'.registry.template? target.1 target.2 = some t := by
  obtain ⟨hsome, rfl⟩ | ⟨hnone, e, he, hfree, hconstruct⟩ := returns_follow.1 h
  · exact ⟨.refl, hsome⟩
  · exact grows_of_construct (hbuilds e he hfree) hnone he hfree hconstruct

theorem builds (env : Environment) (table : TemplateTable) (p : Progress)
    (group : String) (pieces : List Piece) : Builds env table p group pieces := by
  induction p, group, pieces using pieces_induction env table with
  | nil p group =>
    intro s segments s' h
    obtain ⟨rfl, rfl⟩ := returns_segments_nil.1 h
    exact ⟨.refl, .nil⟩
  | literal p group text pieces ih =>
    intro s segments s' h
    obtain ⟨rest, rfl, hrest⟩ := returns_segments_literal.1 h
    obtain ⟨hgrows, hstands⟩ := ih hrest
    exact ⟨hgrows, .cons (.literal text) hstands⟩
  | token p group name pieces ih =>
    intro s segments s' h
    obtain ⟨u, rest, hu, rfl, hrest⟩ := returns_segments_token.1 h
    obtain ⟨hgrows, hstands⟩ := ih hrest
    exact ⟨hgrows, .cons (.token (hgrows.keeps.tokens _ _ hu)) hstands⟩
  | reference p group symbol reference pieces ihInside ih =>
    intro s segments s' h
    obtain ⟨rfl, t, s₁, rest, hfollow, rfl, hrest⟩ := returns_segments_reference.1 h
    obtain ⟨hgrows₁, ht⟩ := grows_of_follow ihInside hfollow
    obtain ⟨hgrows, hstands⟩ := ih hrest
    exact ⟨hgrows₁.trans hgrows, .cons (.template rfl (hgrows.keeps.templates _ _ _ ht)) hstands⟩

end Returning

/-! ## Building that fails -/

/-- While some keys are held, building from pieces has only added templates when it fails. -/
def Breaks (env : Environment) (table : TemplateTable) (p : Progress) (group : String)
    (pieces : List Piece) : Prop :=
  ∀ ⦃s error s'⦄, Throws (buildSegments env table p group pieces) s error s' →
    s.registry.Grows env table p s'.registry

section Throwing

variable {group name : String} {e : TemplateEntry} {error : BuildError}

/-- A template that cannot be built has only had templates of other keys added for it. -/
theorem grows_of_throws_construct (hbreaks : Breaks env table p group (piecesOf env e.definition))
    (h : Throws (construct env table p group name e) s error s') :
    s.registry.Grows env table p s'.registry := by
  obtain hsegments | ⟨segments, s₁, hsegments, hfinish⟩ := throws_construct.1 h
  · have hgrows := hbreaks hsegments
    exact hgrows
  · rw [registry_of_throws_finishTemplate hfinish]
    exact (builds env table p group _ hsegments).1

theorem grows_of_throws_follow {target : String × String}
    (hbreaks : ∀ e, table.find? target.1 target.2 = some e →
      p.isHeld (templateKey target.1 target.2) = false →
      Breaks env table ⟨p.keys ++ [templateKey target.1 target.2]⟩ target.1
        (piecesOf env e.definition))
    (h : Throws (follow env table p target) s error s') :
    s.registry.Grows env table p s'.registry := by
  obtain ⟨-, ⟨-, -, rfl⟩ | ⟨e, he, ⟨-, -, rfl⟩ | ⟨hfree, hconstruct⟩⟩⟩ := throws_follow.1 h
  · exact .refl
  · exact .refl
  · exact (grows_of_throws_construct (hbreaks e he hfree) hconstruct).release

theorem breaks (env : Environment) (table : TemplateTable) (p : Progress)
    (group : String) (pieces : List Piece) : Breaks env table p group pieces := by
  induction p, group, pieces using pieces_induction env table with
  | nil p group => exact fun _ _ _ h => absurd h not_throws_segments_nil
  | literal p group text pieces ih => exact fun _ _ _ h => ih (throws_segments_literal.1 h)
  | token p group name pieces ih =>
    intro s error s' h
    obtain ⟨-, -, rfl⟩ | ⟨u, -, hrest⟩ := throws_segments_token.1 h
    · exact .refl
    · exact ih hrest
  | reference p group symbol reference pieces ihInside ih =>
    intro s error s' h
    obtain ⟨-, -, rfl⟩ | ⟨rfl, hfollow | ⟨t, s₁, hfollow, hrest⟩⟩ := throws_segments_reference.1 h
    · exact .refl
    · exact grows_of_throws_follow ihInside hfollow
    · exact (grows_of_follow (fun _ _ _ => builds env table _ _ _) hfollow).1.trans (ih hrest)

end Throwing

/-! ## Templates -/

section Templates

variable {group name : String} {e : TemplateEntry} {t : Template} {error : BuildError}

/-- Building a template adds those that it refers to, and then itself. -/
theorem realizes_of_createTemplate (h : Returns (createTemplate env table group name e) s t s') :
    ∃ r, s.registry.Grows env table ⟨[templateKey group name]⟩ r ∧ r.template? group name = none ∧
      r.Realizes env group name e t ∧ s'.registry = r.addTemplate group t := by
  obtain ⟨hnone, hconstruct⟩ := returns_createTemplate.1 h
  exact realizes_of_construct (p := .empty) (builds ..) hnone hconstruct

theorem grows_of_throws_createTemplate
    (h : Throws (createTemplate env table group name e) s error s') :
    s.registry.Grows env table ⟨[templateKey group name]⟩ s'.registry := by
  obtain ⟨-, -, rfl⟩ | ⟨-, hconstruct⟩ := throws_createTemplate.1 h
  · exact .refl
  · exact grows_of_throws_construct (breaks ..) hconstruct

end Templates

end Stencil
