import Stencil.Proofs.Registry.Loading

/-!
# What loaded registries hold

A registry into which a catalog has been loaded holds what the catalog defines and nothing else, and
each of its templates consists, piece by piece, of what the registry itself holds for the pieces of
the definition (`Registry.Means`). The order of building leaves no trace: whatever order the tokens
and templates are built in, the registry is the same (`load_meaning`). Building can fail in another
order than that of loading only where the name of a group has a dot in it.
-/

namespace Stencil

open Definition Build

/-- Maps of maps that give the same values are the same, if none of the inner maps is empty. -/
theorem NameMap.ext_nested {α : Type} {m n : NameMap (NameMap α)}
    (hm : ∀ x g, m.get? x = some g → ∃ y, (g.get? y).isSome)
    (hn : ∀ x g, n.get? x = some g → ∃ y, (g.get? y).isSome)
    (h : ∀ x y, ((m.get? x).bind fun g => g.get? y) = (n.get? x).bind fun g => g.get? y) :
    m = n := by
  refine NameMap.ext_get? fun x => ?_
  have hx := h x
  cases hmx : m.get? x with
  | none =>
    cases hnx : n.get? x with
    | none => rfl
    | some g =>
      obtain ⟨y, hy⟩ := hn x g hnx
      have hnone : none = g.get? y := by simpa [hmx, hnx] using hx y
      rw [← hnone] at hy
      cases hy
  | some f =>
    cases hnx : n.get? x with
    | none =>
      obtain ⟨y, hy⟩ := hm x f hmx
      have hnone : f.get? y = none := by simpa [hmx, hnx] using hx y
      rw [hnone] at hy
      cases hy
    | some g =>
      have hfg : f = g := NameMap.ext_get? fun y => by simpa [hmx, hnx] using hx y
      rw [hfg]

variable {env : Environment} {c : Catalog} {s s' : Session} {r r' : Registry}

/-! ## Registries that hold all of a catalog -/

theorem Catalog.Makes.unique {group name : String} {t u : Template} (ht : c.Makes env group name t)
    (hu : c.Makes env group name u) : t = u := by
  obtain ⟨e, segments, he, hsegments, ht⟩ := ht
  obtain ⟨e', segments', he', hsegments', hu⟩ := hu
  rw [he] at he'
  cases he'
  rw [hsegments.unique hsegments', hu] at ht
  exact (Except.ok.inj ht).symm

namespace Registry

/-- A registry holds all tokens and templates of a catalog, and nothing else. -/
abbrev Complete (env : Environment) (c : Catalog) (r : Registry) : Prop :=
  r.Ready env c fun x => (c.templates.find? x.1 x.2).isSome

theorem Complete.token?_eq_some_iff (h : r.Complete env c) {name : String} {u : Token} :
    r.token? name = some u ↔ c.Defines name u := by
  refine ⟨h.tokens name u, fun hu => ?_⟩
  obtain ⟨entry, hentry, hbuilds⟩ := hu
  obtain ⟨v, hv⟩ := Option.isSome_iff_exists.1 (h.hasTokens name (Option.isSome_of_eq_some hentry))
  rw [hv, (h.tokens name v hv).unique ⟨entry, hentry, hbuilds⟩]

theorem Complete.template?_eq_some_iff (h : r.Complete env c) {group name : String} {t : Template} :
    r.template? group name = some t ↔ c.Makes env group name t := by
  refine ⟨h.templates group name t, fun ht => ?_⟩
  have ⟨e, _, he, _⟩ := ht
  obtain ⟨u, hu⟩ :=
    Option.isSome_iff_exists.1 (h.hasTemplates (group, name) (Option.isSome_of_eq_some he))
  rw [hu, (h.templates group name u hu).unique ht]

/-- There is one registry that holds all of a catalog. -/
theorem Complete.unique (h : r.Complete env c) (h' : r'.Complete env c) : r = r' := by
  have htokens : r.tokens = r'.tokens := NameMap.ext_get? fun name => Option.ext fun u =>
    h.token?_eq_some_iff.trans h'.token?_eq_some_iff.symm
  have htemplates : r.templates = r'.templates :=
    NameMap.ext_nested h.groups h'.groups fun group name =>
    Option.ext fun t => h.template?_eq_some_iff.trans h'.template?_eq_some_iff.symm
  have hkinds : r.kinds = r'.kinds := h.kinds.trans h'.kinds.symm
  obtain ⟨tokens, templates, kinds⟩ := r
  cases htokens
  cases htemplates
  cases hkinds
  rfl

/-! ## The meaning of a catalog -/

/-- What a registry holds for a piece of a definition in a group. -/
inductive Stands (r : Registry) (group : String) : Piece → Segment → Prop where
  | literal (text : String) : Stands r group (.literal text) (.literal text)
  | token {name : String} {u : Token} (registered : r.token? name = some u) :
    Stands r group (.placeholder ⟨none, name⟩) (.token u)
  | template {reference group' name' : String} {t : Template}
    (target : referenceTarget group reference = (group', name'))
    (registered : r.template? group' name' = some t) :
    Stands r group (.placeholder ⟨some templateSymbol, reference⟩) t.toSegment

/-- A registry is the meaning of a catalog. -/
structure Means (env : Environment) (c : Catalog) (r : Registry) : Prop where
  hasToken : ∀ name, r.hasToken name = true ↔ c.tokens.contains name = true
  hasTemplate : ∀ group name, r.hasTemplate group name = true ↔
    (c.templates.find? group name).isSome
  /-- A group that is held has a template in it. -/
  groups : ∀ group g, r.templates.get? group = some g → ∃ name, r.hasTemplate group name = true
  tokens : ∀ name entry u, c.tokens.get? name = some entry → r.token? name = some u →
    entry.Builds name u
  templates : ∀ group name e t, c.templates.find? group name = some e →
    r.template? group name = some t → t.name = name ∧ t.kind = e.kind.getD (.ofGroup group) ∧
      List.Forall₂ (r.Stands group) (piecesOf env e.definition) t.segments

/-- What the pieces of a definition denote is what the registry holds for them. -/
theorem Complete.stands (h : r.Complete env c) {group : String} {pieces : List Piece}
    {segments : List Segment} (hdenotes : c.Denotes env group pieces segments) :
    List.Forall₂ (r.Stands group) pieces segments := by
  induction hdenotes with
  | nil => exact .nil
  | literal _ ih => exact .cons (.literal _) ih
  | token defined _ ih => exact .cons (.token (h.token?_eq_some_iff.2 defined)) ih
  | @template group reference group' name' e pieces inner segments target found inside _ _ ih =>
    refine .cons ?_ ih
    obtain ⟨t, ht⟩ := Option.isSome_iff_exists.1
      (h.hasTemplates (group', name') (Option.isSome_of_eq_some found))
    obtain ⟨e', segments', he', hsegments', hcreate⟩ := h.templates group' name' t ht
    rw [found] at he'
    cases he'
    obtain ⟨hsegments, hkind, hname, -⟩ := Template.create_eq hcreate
    have hsegment : t.toSegment = .template name' (e.kind.getD (.ofGroup group')) inner := by
      rw [Template.toSegment, hname, hkind, hsegments, hsegments'.unique inside]
    rw [← hsegment]
    exact .template target ht

theorem Complete.means (h : r.Complete env c) : r.Means env c where
  hasToken name := by
    refine ⟨fun hname => ?_, h.hasTokens name⟩
    obtain ⟨u, hu⟩ := Option.isSome_iff_exists.1 hname
    obtain ⟨entry, hentry, -⟩ := h.tokens name u hu
    exact Option.isSome_of_eq_some hentry
  hasTemplate group name := by
    refine ⟨fun hname => ?_, h.hasTemplates (group, name)⟩
    obtain ⟨t, ht⟩ := Option.isSome_iff_exists.1 hname
    obtain ⟨e, -, he, -⟩ := h.templates group name t ht
    exact Option.isSome_of_eq_some he
  groups group g hg := by
    obtain ⟨name, hname⟩ := h.groups group g hg
    exact ⟨name, by rwa [hasTemplate, template?, hg]⟩
  tokens name entry u hentry hu := by
    obtain ⟨entry', hentry', hbuilds⟩ := h.tokens name u hu
    rw [hentry] at hentry'
    cases hentry'
    exact hbuilds
  templates group name e t he ht := by
    obtain ⟨e', segments, he', hdenotes, hcreate⟩ := h.templates group name t ht
    rw [he] at he'
    cases he'
    obtain ⟨hsegments, hkind, hname, -⟩ := Template.create_eq hcreate
    exact ⟨hname, hkind, hsegments ▸ h.stands hdenotes⟩

end Registry

/-! ## Other orders -/

/-- Registers tokens in the given order, and then those of the given templates, in their order, that
are not registered yet. -/
def Build.loadInOrder (env : Environment) (table : TemplateTable)
    (tokens : List (String × TokenEntry)) (templates : List (String × String × TemplateEntry)) :
    Build Unit := do
  forM tokens loadToken
  forM templates fun x => loadTemplate env table x.1 x.2

section Orders

variable {tokens : List (String × TokenEntry)} {templates : List (String × String × TemplateEntry)}

theorem Registry.HasTokensOf.of_mem {done : List (String × TokenEntry)} (h : r.HasTokensOf tokens)
    (hmem : ∀ x, x ∈ tokens ↔ x ∈ done) : r.HasTokensOf done :=
  ⟨h.kinds, h.templates, fun x hx => h.built x ((hmem x).2 hx), fun name u => by
    simp only [h.tokens, hmem]⟩

/-- The templates of a list. -/
def Listed (templates : List (String × String × TemplateEntry)) (x : String × String) : Prop :=
  ∃ e, (x.1, x.2, e) ∈ templates

theorem listed_append {x : String × String × TemplateEntry} {y : String × String}
    (h : Listed (templates ++ [x]) y) : Listed templates y ∨ y = (x.1, x.2.1) := by
  obtain ⟨e, he⟩ := h
  rcases List.mem_append.1 he with he | he
  · exact .inl ⟨e, he⟩
  · cases List.mem_singleton.1 he
    exact .inr rfl

variable (htemplates : ∀ x, x ∈ templates ↔ c.templates.find? x.1 x.2.1 = some x.2.2)

include htemplates

theorem complete_of_forM (hs : s.registry.Ready env c fun _ => False)
    (h : Returns (forM templates fun x => loadTemplate env c.templates x.1 x.2) s () s') :
    s'.registry.Complete env c := by
  have hall := invariant_of_forM (I := fun done s => s.registry.Ready env c (Listed done)) h
    (hs.mono fun y ⟨_, he⟩ => absurd he List.not_mem_nil) fun done x rest s s' hxs hdone hround =>
      (ready_of_loadTemplate hround ((htemplates x).1 (by rw [hxs]; simp)) hdone).mono fun y =>
        listed_append
  refine hall.mono fun y hy => ?_
  obtain ⟨e, he⟩ := Option.isSome_iff_exists.1 hy
  exact ⟨e, (htemplates (y.1, y.2, e)).2 he⟩

/-- Without dots in the names of groups, a well-formed catalog can be built in every order. -/
theorem exists_forM_templates (hc : c.WellFormed env)
    (hdots : ∀ group ∈ c.templates.names, '.' ∉ group.toList)
    (hs : s.registry.Ready env c fun _ => False) :
    ∃ s', Returns (forM templates fun x => loadTemplate env c.templates x.1 x.2) s () s' := by
  refine (exists_forM (I := fun _ s => s.registry.Ready env c fun _ => False) hs ?_).imp fun s' h =>
    h.1
  intro done x rest s hxs hs
  have hx := (htemplates x).1 (by rw [hxs]; simp)
  obtain ⟨entries, hgroup, -⟩ := TemplateTable.find?_eq_some_iff.1 hx
  have hdot : '.' ∉ x.1.toList := hdots x.1 (List.mem_map.2 ⟨_, hgroup, rfl⟩)
  obtain ⟨s', h⟩ := exists_loadTemplate hc hx (hs.mono fun y hy => hdot hy.1)
  exact ⟨s', h, (ready_of_loadTemplate h hx hs).mono fun y hy => hy.elim⟩

end Orders

/-- **A loaded registry is the meaning of its catalog**, and the order of building leaves no trace
in it: tokens and templates that are built in any order end in the same registry, and where no group
has a dot in its name, they can be built in every order. -/
theorem load_meaning (h : (load env c).outcome .empty = (.ok (), s)) :
    s.registry.Means env c ∧
      ∀ tokens templates, tokens.Perm c.tokens.entries →
        (∀ x, x ∈ templates ↔ c.templates.find? x.1 x.2.1 = some x.2.2) →
        (∀ s', (loadInOrder env c.templates tokens templates).outcome .empty = (.ok (), s') →
          s'.registry = s.registry) ∧
        ((∀ group ∈ c.templates.names, '.' ∉ group.toList) →
          ∃ s', (loadInOrder env c.templates tokens templates).outcome .empty = (.ok (), s') ∧
            s'.registry = s.registry) := by
  have hcomplete : s.registry.Complete env c := ready_of_load h
  refine ⟨hcomplete.means, fun tokens templates htokens htemplates => ?_⟩
  have hdistinct : tokens.Pairwise (·.1 ≠ ·.1) :=
    htokens.symm.pairwise (distinct_entries c) fun hne => hne.symm
  have hready : ∀ {s₁}, Returns (forM tokens loadToken) .empty () s₁ →
      s₁.registry.Ready env c fun _ => False :=
    fun h₁ => ((hasTokensOf_of_returns hdistinct h₁).of_mem fun _ => htokens.mem_iff).ready
  have hsame : ∀ s', (loadInOrder env c.templates tokens templates).outcome .empty = (.ok (), s') →
      s'.registry = s.registry := fun s' h' => by
    obtain ⟨u, s₁, h₁, h₂⟩ := returns_bind.1 h'
    exact Registry.Complete.unique (complete_of_forM htemplates (hready h₁) h₂) hcomplete
  refine ⟨hsame, fun hdots => ?_⟩
  have hc : c.WellFormed env := wellFormed_of_load h
  obtain ⟨s₁, h₁⟩ := exists_loadTokens hdistinct fun x hx =>
    hc.tokens x.1 x.2 (NameMap.get?_eq_some_iff.2 (htokens.mem_iff.1 hx))
  obtain ⟨s', h₂⟩ := exists_forM_templates htemplates hc hdots (hready h₁)
  have h' : (loadInOrder env c.templates tokens templates).outcome .empty = (.ok (), s') :=
    returns_bind.2 ⟨(), s₁, h₁, h₂⟩
  exact ⟨s', h', hsame s' h'⟩

/-! ## A template and one that refers to it

Loading takes up the part first; in the other order the part is built because the whole refers to
it. -/

theorem Catalog.find?_withTemplate (c : Catalog) (group name : String) (e : TemplateEntry)
    (group' name' : String) :
    (c.withTemplate group name e).templates.find? group' name' =
      if group = group' ∧ name = name' then some e else c.templates.find? group' name' := by
  simp only [TemplateTable.find?, withTemplate, NameMap.get?_insert]
  by_cases hgroup : group = group'
  · subst hgroup
    by_cases hname : name = name'
    · simp [NameMap.get?_insert, hname]
    · cases c.templates.get? group <;> simp [NameMap.get?_insert, hname]
  · simp [hgroup]

/-- An environment without variables. -/
def noVariables : Environment := fun _ => none

/-- A token of text without options. -/
def asset : Token :=
  ⟨"asset", .text, "[a-zA-Z]+",
    ⟨.concat [.check .textStart, .repeated (.one (.union (.range 'a' 'z') (.range 'A' 'Z'))) 1 none
      true, .check .textEnd], []⟩,
    .typed (some .text), "Must be a string", none⟩

/-- A letter before an asset. -/
def assetPart : Template :=
  ⟨"part", .standard, [.literal "s", .token asset],
    ⟨.concat [.check .textStart, .char 's',
      .group 1 (.repeated (.one (.union (.range 'a' 'z') (.range 'A' 'Z'))) 1 none true),
        .check .textEnd],
      [("asset", 1)]⟩,
    ⟨.concat [.check .textStart, .char 's',
      .group 1 (.repeated (.one (.union (.range 'a' 'z') (.range 'A' 'Z'))) 1 none true)],
        [("asset", 1)]⟩⟩

/-- The part before the asset that stands in it. -/
def assetWhole : Template :=
  ⟨"whole", .standard, [.template "part" .standard [.literal "s", .token asset], .literal "/",
    .token asset], ⟨.concat [.check .textStart, .char 's',
      .group 1 (.repeated (.one (.union (.range 'a' 'z') (.range 'A' 'Z'))) 1 none true),
        .char '/', .again 1,
      .check .textEnd], [("asset", 1)]⟩,
    ⟨.concat [.check .textStart, .char 's',
      .group 1 (.repeated (.one (.union (.range 'a' 'z') (.range 'A' 'Z'))) 1 none true),
        .char '/', .again 1],
      [("asset", 1)]⟩⟩

def assetPartEntry : TemplateEntry := .ofString "s{asset}"

def assetWholeEntry : TemplateEntry := .ofString "{@part}/{asset}"

/-- The catalog of the part and the whole. -/
def assets : Catalog :=
  ((Catalog.empty.withToken "asset" (.kind "str")).withTemplate "template" "part"
    assetPartEntry).withTemplate "template" "whole" assetWholeEntry

theorem find?_assets (group name : String) (e : TemplateEntry) :
    assets.templates.find? group name = some e ↔
      (group, name, e) ∈
        [("template", "whole", assetWholeEntry), ("template", "part", assetPartEntry)] := by
  have hempty : (Catalog.empty.withToken "asset" (.kind "str")).templates.find? group name = none :=
    rfl
  simp only [assets, Catalog.find?_withTemplate, hempty, List.mem_cons, Prod.mk.injEq,
    List.not_mem_nil, or_false]
  grind

theorem wellFormed_assets : assets.WellFormed noVariables := by
  have hbuilds : (TokenEntry.kind "str").Builds "asset" asset := ⟨.text, rfl, rfl⟩
  have hdefines : assets.Defines "asset" asset := ⟨.kind "str", rfl, hbuilds⟩
  have hpart : piecesOf noVariables assetPartEntry.definition =
      [.literal "s", .placeholder ⟨none, "asset"⟩] := by
    decide +kernel
  have hwhole : piecesOf noVariables assetWholeEntry.definition =
      [.placeholder ⟨some templateSymbol, "part"⟩, .literal "/", .placeholder ⟨none, "asset"⟩] := by
    decide +kernel
  have htarget : referenceTarget "template" "part" = ("template", "part") := rfl
  have hfound : assets.templates.find? "template" "part" = some assetPartEntry :=
    (find?_assets ..).2 (by simp)
  have hinside :
      assets.Denotes noVariables "template" (piecesOf noVariables assetPartEntry.definition)
        assetPart.segments := hpart ▸ .literal (.token hdefines .nil)
  have houtside :
      assets.Denotes noVariables "template" (piecesOf noVariables assetWholeEntry.definition)
        assetWhole.segments :=
          hwhole ▸ .template htarget hfound hinside (.literal (.token hdefines .nil))
  refine Catalog.wellFormed_of_makes (fun name entry hentry => ?_) fun group name e he => ?_
  · have hentries : assets.tokens.entries = [("asset", .kind "str")] := rfl
    obtain ⟨rfl, rfl⟩ : name = "asset" ∧ entry = .kind "str" := by
      simpa [hentries] using NameMap.get?_eq_some_iff.1 hentry
    exact ⟨asset, hbuilds⟩
  · have hcases := (find?_assets group name e).1 he
    simp only [List.mem_cons, Prod.mk.injEq, List.not_mem_nil, or_false] at hcases
    obtain ⟨rfl, rfl, rfl⟩ | ⟨rfl, rfl, rfl⟩ := hcases
    · exact ⟨assetWhole, assetWholeEntry, assetWhole.segments, he, houtside, rfl⟩
    · exact ⟨assetPart, assetPartEntry, assetPart.segments, he, hinside, rfl⟩

theorem load_meaning_assets : ∃ s s', (load noVariables assets).outcome .empty = (.ok (), s) ∧
    s.registry.Means noVariables assets ∧
    (loadInOrder noVariables assets.templates assets.tokens.entries
      [("template", "whole", assetWholeEntry), ("template", "part", assetPartEntry)]).outcome .empty
        = (.ok (), s') ∧
    s'.registry = s.registry := by
  obtain ⟨s, hs⟩ := exists_load wellFormed_assets
  have hdots : ∀ group ∈ assets.templates.names, '.' ∉ group.toList := by
    have hnames : assets.templates.names = ["template"] := rfl
    simp only [hnames, List.mem_singleton, forall_eq]
    decide
  obtain ⟨hmeans, horders⟩ := load_meaning hs
  obtain ⟨s', hs', hsame⟩ :=
    (horders _ _ (.refl _) fun x => (find?_assets x.1 x.2.1 x.2.2).symm).2 hdots
  exact ⟨s, s', hs, hmeans, hs', hsame⟩

end Stencil
