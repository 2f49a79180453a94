import Stencil.Proofs.Registry.Growing

/-!
# Loading into a registry that is in use

A catalog can be loaded into a registry that holds something. The name of each of its tokens must
still be free there, or loading fails. The templates are not held to that: one whose group and name
are taken is passed over, for a reference may have led to it before. So the templates that a catalog
has added are what it says, each of them, but of one that was there before it may say anything
(`load_adds`, `load_passes_over`).
-/

namespace Stencil

open Definition Build

variable {env : Environment} {c : Catalog} {s s₁ s' : Session} {r r' : Registry}

namespace Registry

/-- An entry gives a token of a registry's kinds. -/
def Gives (r : Registry) (name : String) (entry : TokenEntry) (u : Token) : Prop :=
  ∃ kind, r.kinds.get entry.toOptions.kind = .ok kind ∧
    Token.ofOptions name kind entry.toOptions = .ok u

/-- One registry is another one with a catalog added to it. -/
structure Incorporates (env : Environment) (c : Catalog) (r r' : Registry) : Prop where
  kinds : r'.kinds = r.kinds
  keeps : Keeps r r'
  tokens : ∀ name entry, c.tokens.get? name = some entry →
    r.token? name = none ∧ ∃ u, r.Gives name entry u ∧ r'.token? name = some u
  /-- A template of the catalog is what it says, unless it was there before. -/
  templates : ∀ group name e, c.templates.find? group name = some e →
    ∃ t, r'.template? group name = some t ∧
    (Realizes env r' group name e t ∨ r.template? group name = some t)

/-- One registry is another one with tokens added to it that some entries give. -/
structure HasAlso (done : List (String × TokenEntry)) (r r' : Registry) : Prop where
  kinds : r'.kinds = r.kinds
  templates : r'.templates = r.templates
  keeps : Keeps r r'
  tokens : ∀ x ∈ done, r.token? x.1 = none ∧ ∃ u, r.Gives x.1 x.2 u ∧ r'.token? x.1 = some u

theorem HasAlso.addToken {done : List (String × TokenEntry)} {name : String}
    {entry : TokenEntry} {u : Token} (h : HasAlso done r r') (hnone : r'.token? name = none)
    (hu : r.Gives name entry u) (hname : u.name = name) :
    HasAlso (done ++ [(name, entry)]) r (r'.addToken u) := by
  have hkeeps : Keeps r' (r'.addToken u) := keeps_addToken (by rw [hname, hnone])
  refine ⟨h.kinds, h.templates, h.keeps.trans hkeeps, fun x hx => ?_⟩
  rcases List.mem_append.1 hx with hx | hx
  · obtain ⟨hfree, v, hv, hregistered⟩ := h.tokens x hx
    exact ⟨hfree, v, hv, hkeeps.tokens _ _ hregistered⟩
  · obtain rfl := List.mem_singleton.1 hx
    exact ⟨h.keeps.token?_eq_none hnone, u, hu, by rw [token?_addToken, if_pos hname]⟩

end Registry

/-! ## The rounds of loading -/

theorem hasAlso_of_loadTokens {tokens : List (String × TokenEntry)}
    (h : Returns (forM tokens loadToken) s () s₁) : s.registry.HasAlso tokens s₁.registry := by
  refine invariant_of_forM (I := fun done t => s.registry.HasAlso done t.registry) h
    ⟨rfl, rfl, .refl, by simp⟩ ?_
  rintro done ⟨name, entry⟩ rest t t' - hdone hround
  obtain ⟨u, t'', hcreate, hpure⟩ := returns_bind.1 hround
  obtain ⟨-, rfl⟩ := returns_pure.1 hpure
  obtain ⟨hnone, kind, hkind, v, hv, hinsert⟩ := returns_createToken.1 hcreate
  obtain ⟨-, -, rfl⟩ := returns_insertToken.1 hinsert
  rw [hdone.kinds] at hkind
  exact hdone.addToken hnone ⟨kind, hkind, hv⟩ (Token.ofOptions_eq hv).2.2.2.2.1

/-- While a catalog is loaded, templates that it defines are added, and some of its templates are
then there. -/
structure Registry.Reaches (env : Environment) (c : Catalog) (D : String × String → Prop)
    (r r' : Registry) : Prop where
  grows : r.Grows env c.templates .empty r'
  hasTemplates : ∀ y, D y → (r'.template? y.1 y.2).isSome = true

theorem Registry.Reaches.mono {D D' : String × String → Prop} (h : r.Reaches env c D r')
    (hD : ∀ y, D' y → D y) : r.Reaches env c D' r' :=
  ⟨h.grows, fun y hy => h.hasTemplates y (hD y hy)⟩

section Templates

variable {D : String × String → Prop} {group : String}

theorem reaches_of_loadTemplate {x : String × TemplateEntry}
    (h : Returns (loadTemplate env c.templates group x) s₁ () s')
    (hx : c.templates.find? group x.1 = some x.2) (hs : r.Reaches env c D s₁.registry) :
    r.Reaches env c (fun y => D y ∨ y = (group, x.1)) s'.registry := by
  obtain ⟨hsome, rfl⟩ | ⟨hnone, t, hconstruct⟩ := returns_loadTemplate.1 h
  · refine ⟨hs.grows, fun y hy => ?_⟩
    obtain hy | rfl := hy
    · exact hs.hasTemplates y hy
    · exact hsome
  · obtain ⟨hgrows, ht⟩ := grows_of_construct (p := .empty) (builds ..) hnone hx rfl hconstruct
    refine ⟨hs.grows.trans hgrows, fun y hy => ?_⟩
    obtain hy | rfl := hy
    · obtain ⟨u, hu⟩ := Option.isSome_iff_exists.1 (hs.hasTemplates y hy)
      exact Option.isSome_of_eq_some (hgrows.keeps.templates _ _ _ hu)
    · exact Option.isSome_of_eq_some ht

theorem reaches_of_loadGroups
    (h : Returns (forM c.templates.entries (loadGroup env c.templates)) s₁ () s') :
    s₁.registry.Reaches env c (fun y => (c.templates.find? y.1 y.2).isSome) s'.registry :=
  invariant_of_loadGroups (I := fun D r => s₁.registry.Reaches env c D r) Registry.Reaches.mono
    reaches_of_loadTemplate h ⟨.refl, fun _ hy => hy.elim⟩

end Templates

/-! ## Loading -/

/-- **What loading a catalog has added to a registry is what the catalog says**, whatever the
registry held before: each token has come under a name that was free, and each template of the
catalog is built from its own definition, or else it was there before and is as it was. -/
theorem load_adds (h : (load env c).outcome s = (.ok (), s')) :
    s.registry.Incorporates env c s'.registry := by
  have hload : Returns (load env c) s () s' := h
  rw [load_eq] at hload
  obtain ⟨u, s₁, hloadTokens, hloadTemplates⟩ := returns_bind.1 hload
  have htokens := hasAlso_of_loadTokens hloadTokens
  have htemplates := reaches_of_loadGroups hloadTemplates
  have hkeeps := htemplates.grows.keeps
  refine ⟨htemplates.grows.kinds.trans htokens.kinds, htokens.keeps.trans hkeeps,
    fun name entry hentry => ?_, fun group name e he => ?_⟩
  · obtain ⟨hfree, u, hu, hregistered⟩ :=
      htokens.tokens (name, entry) (NameMap.get?_eq_some_iff.1 hentry)
    exact ⟨hfree, u, hu, hkeeps.tokens _ _ hregistered⟩
  · obtain ⟨t, ht⟩ :=
      Option.isSome_iff_exists.1
        (htemplates.hasTemplates (group, name) (Option.isSome_of_eq_some he))
    refine ⟨t, ht, ?_⟩
    obtain hbefore | ⟨e', he', hrealizes⟩ := htemplates.grows.realizes ht
    · exact .inr (by rwa [Registry.template?, htokens.templates] at hbefore)
    · rw [he] at he'
      cases he'
      exact .inl hrealizes

/-! ## A template that is there before -/

/-- The template of one letter. -/
def letterA : Template :=
  ⟨"t", .standard, [.literal "a"], ⟨.concat [.check .textStart, .char 'a', .check .textEnd], []⟩,
    ⟨.concat [.check .textStart, .char 'a'], []⟩⟩

/-- That template, and another letter behind it. -/
def letterAThenC : Template :=
  ⟨"u", .standard, [.template "t" .standard [.literal "a"], .literal "c"],
    ⟨.concat [.check .textStart, .char 'a', .char 'c', .check .textEnd], []⟩,
    ⟨.concat [.check .textStart, .char 'a', .char 'c'], []⟩⟩

/-- The registry of the one template. -/
def holdsLetterA : Registry := Registry.empty.addTemplate "template" letterA

/-- A catalog that says of this template that it is another letter. -/
def lettersBAndC : Catalog :=
  (Catalog.empty.withTemplate "template" "t" (.ofString "b")).withTemplate
    "template" "u" (.ofString "{@t}c")

theorem load_adds_lettersBAndC :
    ∃ s, (load noVariables lettersBAndC).outcome ⟨holdsLetterA, []⟩ = (.ok (), s) ∧
      holdsLetterA.Incorporates noVariables lettersBAndC s.registry := by
  have hpieces : piecesOf noVariables "{@t}c" = [.placeholder ⟨some templateSymbol, "t"⟩,
      .literal "c"] := by
    decide +kernel
  have htarget : referenceTarget "template" "t" = ("template", "t") := rfl
  have hbuild :
      Returns (buildSegments noVariables lettersBAndC.templates ⟨[templateKey "template" "u"]⟩
        "template" (piecesOf noVariables "{@t}c")) ⟨holdsLetterA,
          [.templateStarted (templateKey "template" "u") 1]⟩
      letterAThenC.segments ⟨holdsLetterA, [.templateStarted (templateKey "template" "u") 1]⟩ := by
    rw [hpieces]
    refine returns_segments_reference.2 ⟨rfl, letterA, _, _, ?_, rfl,
      returns_segments_literal.2 ⟨_, rfl, returns_segments_nil.2 ⟨rfl, rfl⟩⟩⟩
    rw [htarget]
    exact returns_follow.2 (.inl ⟨rfl, rfl⟩)
  have hfinish : Returns (finishTemplate "template" "u" none letterAThenC.segments)
      ⟨holdsLetterA, [.templateStarted (templateKey "template" "u") 1]⟩ letterAThenC
      ⟨holdsLetterA.addTemplate "template" letterAThenC,
        [.templateRegistered "template" letterAThenC.display,
          .templateComposed "u" (Segment.regexAll letterAThenC.segments),
        .templateStarted (templateKey "template" "u") 1]⟩ :=
    returns_finishTemplate.2 ⟨letterAThenC, rfl, returns_insertTemplate.2 ⟨rfl, rfl, rfl⟩⟩
  obtain ⟨s, hsecond⟩ : ∃ s, Returns (loadTemplate noVariables lettersBAndC.templates "template"
      ("u", .ofString "{@t}c")) ⟨holdsLetterA, []⟩ () s :=
    ⟨_, returns_loadTemplate.2
      (.inr ⟨rfl, letterAThenC, returns_construct.2 ⟨_, _, hbuild, hfinish⟩⟩)⟩
  have hfirst :
      Returns (loadTemplate noVariables lettersBAndC.templates "template" ("t", .ofString "b"))
        ⟨holdsLetterA, []⟩ () ⟨holdsLetterA, []⟩ := returns_loadTemplate.2 (.inl ⟨rfl, rfl⟩)
  have hload : Returns (load noVariables lettersBAndC) ⟨holdsLetterA, []⟩ () s := by
    rw [load_eq]
    refine returns_bind.2 ⟨(), _, returns_pure.2 ⟨rfl, rfl⟩,
      returns_bind.2 ⟨(), s, ?_, returns_pure.2 ⟨rfl, rfl⟩⟩⟩
    exact returns_bind.2 ⟨(), _, hfirst, returns_bind.2 ⟨(), s, hsecond, returns_pure.2 ⟨rfl, rfl⟩⟩⟩
  exact ⟨s, hload, load_adds hload⟩

/-- A catalog that only says of this template that it is another letter. -/
def onlyLetterB : Catalog := Catalog.empty.withTemplate "template" "t" (.ofString "b")

/-- The catalog is loaded, but the template stays as it is, which is not what the catalog says. -/
theorem load_passes_over :
    (load noVariables onlyLetterB).outcome ⟨holdsLetterA, []⟩ = (.ok (), ⟨holdsLetterA, []⟩) ∧
      onlyLetterB.templates.find? "template" "t" = some (.ofString "b") ∧
      holdsLetterA.template? "template" "t" = some letterA ∧
      ¬ holdsLetterA.Realizes noVariables "template" "t" (.ofString "b") letterA := by
  have hround :
      Returns (loadTemplate noVariables onlyLetterB.templates "template" ("t", .ofString "b"))
        ⟨holdsLetterA, []⟩ () ⟨holdsLetterA, []⟩ := returns_loadTemplate.2 (.inl ⟨rfl, rfl⟩)
  have hload : Returns (load noVariables onlyLetterB) ⟨holdsLetterA, []⟩ () ⟨holdsLetterA, []⟩ := by
    rw [load_eq]
    refine returns_bind.2 ⟨(), _, returns_pure.2 ⟨rfl, rfl⟩,
      returns_bind.2 ⟨(), _, ?_, returns_pure.2 ⟨rfl, rfl⟩⟩⟩
    exact returns_bind.2 ⟨(), _, hround, returns_pure.2 ⟨rfl, rfl⟩⟩
  refine ⟨hload, rfl, rfl, fun hrealizes => ?_⟩
  have hpieces : piecesOf noVariables "b" = [.literal "b"] := by decide +kernel
  have hliteral : ∀ text segment, holdsLetterA.Stands "template" (.literal text) segment →
      segment = .literal text := by
    rintro text segment ⟨⟩
    rfl
  have hstands := hrealizes.segments
  rw [TemplateEntry.ofString, hpieces] at hstands
  obtain ⟨hfirst, -⟩ := List.forall₂_cons.1 hstands
  simpa using hliteral _ _ hfirst

end Stencil
