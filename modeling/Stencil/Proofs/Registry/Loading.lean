import Stencil.Proofs.Registry.Following
import Stencil.Proofs.Token.Classes

/-!
# Loading catalogs

Loading a catalog succeeds exactly if the catalog is well-formed (`load_ok_iff`). The tokens come
first, each under a name that is still free. Then come the templates in the order of their groups,
except for those that a reference has led to before; so when a template is taken up, the groups
before its own are complete, which is what following its references needs.
-/

namespace Stencil

open Definition Build

variable {env : Environment} {c : Catalog} {s s' : Session}

namespace Build

/-! ## Rounds -/

/-- The round of a token. -/
def loadToken (x : String × TokenEntry) : Build Unit := do
  let _ ← createToken x.1 x.2.toOptions

/-- The round of a template in a group. -/
def loadTemplate (env : Environment) (table : TemplateTable) (group : String)
    (x : String × TemplateEntry) : Build Unit := do
  unless (← get).registry.hasTemplate group x.1 do
    let _ ← createTemplate env table group x.1 x.2

/-- The round of a group. -/
def loadGroup (env : Environment) (table : TemplateTable) (x : String × NameMap TemplateEntry) :
    Build Unit :=
  forM x.2.entries (loadTemplate env table x.1)

theorem load_eq (env : Environment) (c : Catalog) : load env c = (do
    forM c.tokens.entries loadToken
    forM c.templates.entries (loadGroup env c.templates)) := by
  unfold load
  rw [forIn_eq_forM (f := loadToken), forIn_eq_forM (f := loadGroup env c.templates)]
  · simp only [bind_pure_unit]
  · rintro ⟨group, entries⟩
    simp only [loadGroup]
    rw [forIn_eq_forM (f := loadTemplate env c.templates group)]
    rintro ⟨name, entry⟩
    simp only [loadTemplate, bind_assoc]
    refine bind_congr fun t => ?_
    split <;> simp_all
  · rintro ⟨name, entry⟩
    simp [loadToken]

theorem returns_loadTemplate {table : TemplateTable} {group : String} {x : String × TemplateEntry} :
    Returns (loadTemplate env table group x) s () s' ↔
      (s.registry.template? group x.1).isSome = true ∧ s' = s ∨
        s.registry.template? group x.1 = none ∧
          ∃ t, Returns (construct env table ⟨[templateKey group x.1]⟩ group x.1 x.2) s t s' := by
  unfold loadTemplate
  rw [returns_get_bind]
  unfold Registry.hasTemplate
  split
  · next hsome =>
    have hne : s.registry.template? group x.1 ≠ none := Option.isSome_iff_ne_none.1 hsome
    simp only [returns_pure, hsome, hne, true_and, false_and, or_false]
  · next hnone =>
    simp only [returns_bind, returns_createTemplate, returns_pure, true_and]
    constructor
    · rintro ⟨t, s₁, ⟨hfree, h⟩, rfl⟩
      exact .inr ⟨hfree, t, h⟩
    · rintro (⟨hsome, -⟩ | ⟨hfree, t, h⟩)
      · exact absurd hsome hnone
      · exact ⟨t, s', ⟨hfree, h⟩, rfl⟩

end Build

/-! ## Tokens -/

/-- What a registry holds when some tokens have been loaded. -/
structure Registry.HasTokensOf (done : List (String × TokenEntry)) (r : Registry) : Prop where
  kinds : r.kinds = .builtIn
  templates : r.templates = .empty
  built : ∀ x ∈ done, ∃ u, x.2.Builds x.1 u
  tokens : ∀ name u, r.token? name = some u ↔ ∃ entry, (name, entry) ∈ done ∧ entry.Builds name u

section Tokens

variable {done : List (String × TokenEntry)} {name : String} {entry : TokenEntry}

theorem TokenEntry.Builds.name_eq {u : Token} (h : entry.Builds name u) : u.name = name := by
  obtain ⟨kind, -, hu⟩ := h
  exact (Token.ofOptions_eq hu).2.2.2.2.1

theorem Registry.HasTokensOf.token?_eq_none {r : Registry} (h : r.HasTokensOf done)
    (hfresh : ∀ x ∈ done, x.1 ≠ name) : r.token? name = none := by
  refine Option.eq_none_iff_forall_ne_some.2 fun u hu => ?_
  obtain ⟨entry, hentry, -⟩ := (h.tokens name u).1 hu
  exact hfresh _ hentry rfl

theorem Registry.HasTokensOf.addToken {r : Registry} {u : Token} (h : r.HasTokensOf done)
    (hfresh : ∀ x ∈ done, x.1 ≠ name) (hu : entry.Builds name u) :
    (r.addToken u).HasTokensOf (done ++ [(name, entry)]) := by
  refine ⟨h.kinds, h.templates, fun x hx => ?_, fun n v => ?_⟩
  · rcases List.mem_append.1 hx with hx | hx
    · exact h.built x hx
    · obtain rfl := List.mem_singleton.1 hx
      exact ⟨u, hu⟩
  · rw [Registry.token?_addToken, hu.name_eq]
    split
    · next heq =>
      subst heq
      constructor
      · intro hv
        cases hv
        exact ⟨entry, List.mem_append_right _ (List.mem_singleton_self _), hu⟩
      · rintro ⟨entry', hmem, hv⟩
        rcases List.mem_append.1 hmem with hmem | hmem
        · exact absurd rfl (hfresh _ hmem)
        · cases List.mem_singleton.1 hmem
          rw [hu.unique hv]
    · next hne =>
      rw [h.tokens]
      simp [Ne.symm hne]

theorem returns_loadToken (h : s.registry.HasTokensOf done) (hfresh : ∀ x ∈ done, x.1 ≠ name) :
    Returns (loadToken (name, entry)) s () s' ↔ ∃ u, entry.Builds name u ∧
      s' = ⟨s.registry.addToken u, .tokenRegistered u.name u.kind.tag u.regex :: s.events⟩ := by
  unfold loadToken
  simp only [returns_bind, returns_createToken, returns_insertToken, returns_pure, h.kinds]
  constructor
  · rintro ⟨v, t, ⟨-, kind, hkind, u, hu, -, rfl, rfl⟩, -, rfl⟩
    exact ⟨v, ⟨kind, hkind, hu⟩, rfl⟩
  · rintro ⟨u, hu, rfl⟩
    have hnone := h.token?_eq_none hfresh
    refine ⟨u, _, ⟨hnone, ?_⟩, trivial, rfl⟩
    rw [← hu.name_eq] at hnone
    obtain ⟨kind, hkind, hu⟩ := hu
    exact ⟨kind, hkind, u, hu, hnone, rfl, rfl⟩

end Tokens

theorem hasTokensOf_empty : Registry.empty.HasTokensOf [] where
  kinds := by rw [Registry.empty]
  templates := by rw [Registry.empty]
  built x hx := absurd hx List.not_mem_nil
  tokens name u := by simp [Registry.token?, Registry.empty]

section Orders

variable {tokens : List (String × TokenEntry)} (hdistinct : tokens.Pairwise (·.1 ≠ ·.1))

include hdistinct

theorem fresh_of_distinct {done rest : List (String × TokenEntry)} {x : String × TokenEntry}
    (h : tokens = done ++ x :: rest) : ∀ y ∈ done, y.1 ≠ x.1 := fun y hy => by
  rw [h] at hdistinct
  exact (List.pairwise_append.1 hdistinct).2.2 y hy x (List.mem_cons_self ..)

/-- Tokens of different names that have been loaded, in whatever order. -/
theorem hasTokensOf_of_returns (h : Returns (forM tokens loadToken) .empty () s) :
    s.registry.HasTokensOf tokens := by
  refine invariant_of_forM (I := fun done s => s.registry.HasTokensOf done) h hasTokensOf_empty ?_
  rintro done ⟨name, entry⟩ rest s s' hentries hdone hround
  have hfresh := fresh_of_distinct hdistinct hentries
  obtain ⟨u, hu, rfl⟩ := (returns_loadToken hdone hfresh).1 hround
  exact hdone.addToken hfresh hu

theorem exists_loadTokens (h : ∀ x ∈ tokens, ∃ u, x.2.Builds x.1 u) :
    ∃ s, Returns (forM tokens loadToken) .empty () s := by
  refine (exists_forM (I := fun done s => s.registry.HasTokensOf done) hasTokensOf_empty ?_).imp
    fun s hs => hs.1
  rintro done ⟨name, entry⟩ rest s hentries hdone
  have hfresh := fresh_of_distinct hdistinct hentries
  obtain ⟨u, hu⟩ := h (name, entry) (by rw [hentries]; simp)
  exact ⟨_, (returns_loadToken hdone hfresh).2 ⟨u, hu, rfl⟩, hdone.addToken hfresh hu⟩

end Orders

theorem distinct_entries (c : Catalog) : c.tokens.entries.Pairwise (·.1 ≠ ·.1) :=
  c.tokens.sorted.imp ne_of_lt

/-! ## Templates -/

section Templates

variable {D : String × String → Prop} {group : String}

/-- A round registers its template, and leaves everything else in order. -/
theorem ready_of_loadTemplate {x : String × TemplateEntry}
    (h : Returns (loadTemplate env c.templates group x) s () s')
    (hx : c.templates.find? group x.1 = some x.2) (hs : s.registry.Ready env c D) :
    s'.registry.Ready env c fun y => D y ∨ y = (group, x.1) := by
  obtain ⟨hsome, rfl⟩ | ⟨hnone, t, hconstruct⟩ := returns_loadTemplate.1 h
  · refine ⟨hs.toSound, hs.hasTokens, fun y hy => ?_⟩
    obtain hy | rfl := hy
    · exact hs.hasTemplates y hy
    · exact hsome
  · obtain ⟨-, hsound, hextends, hsome⟩ :=
      makes_of_construct (p := .empty) (faithful env c _) hx rfl hs.toSound hconstruct
    have hready := hs.extends hextends hsound
    refine ⟨hsound, hready.hasTokens, fun y hy => ?_⟩
    obtain hy | rfl := hy
    · exact hready.hasTemplates y hy
    · exact Option.isSome_of_eq_some hsome

/-- In a well-formed catalog a round succeeds after what its group needs. -/
theorem exists_loadTemplate {x : String × TemplateEntry} (hc : c.WellFormed env)
    (hx : c.templates.find? group x.1 = some x.2) (hs : s.registry.Ready env c (c.Needs group)) :
    ∃ s', Returns (loadTemplate env c.templates group x) s () s' := by
  cases hregistered : s.registry.template? group x.1 with
  | some t => exact ⟨s, returns_loadTemplate.2 (.inl ⟨Option.isSome_of_eq_some hregistered, rfl⟩)⟩
  | none =>
    have hheld :
        Held env c (group, x.1) (group, x.1) ⟨[templateKey group x.1]⟩ := fun key hkey => by
      refine ⟨(group, x.1), ?_, .refl, .refl⟩
      simpa [Progress.isHeld] using hkey
    obtain ⟨t, s', h⟩ := exists_construct (p := .empty) hc (advances hc (group, x.1) _) hx
      .refl hheld hs hregistered
    exact ⟨s', returns_loadTemplate.2 (.inr ⟨hregistered, t, h⟩)⟩

/-- The templates that some entries of a group define. -/
def InGroup (group : String) (entries : List (String × TemplateEntry))
    (y : String × String) : Prop :=
  y.1 = group ∧ ∃ e, (y.2, e) ∈ entries

theorem inGroup_append {done : List (String × TemplateEntry)} {x : String × TemplateEntry}
    {y : String × String} (h : InGroup group (done ++ [x]) y) :
    InGroup group done y ∨ y = (group, x.1) := by
  obtain ⟨rfl, e, he⟩ := h
  rcases List.mem_append.1 he with he | he
  · exact .inl ⟨rfl, e, he⟩
  · cases List.mem_singleton.1 he
    exact .inr rfl

/-- The templates that some groups define. -/
def InGroups (groups : List (String × NameMap TemplateEntry)) (y : String × String) : Prop :=
  ∃ g ∈ groups, InGroup g.1 g.2.entries y

theorem inGroups_append {done : List (String × NameMap TemplateEntry)}
    {g : String × NameMap TemplateEntry} {y : String × String} (h : InGroups (done ++ [g]) y) :
    InGroups done y ∨ InGroup g.1 g.2.entries y := by
  obtain ⟨g', hg', hy⟩ := h
  rcases List.mem_append.1 hg' with hg' | hg'
  · exact .inl ⟨g', hg', hy⟩
  · cases List.mem_singleton.1 hg'
    exact .inr hy

theorem inGroups_iff {y : String × String} :
    InGroups c.templates.entries y ↔ (c.templates.find? y.1 y.2).isSome := by
  rw [Option.isSome_iff_exists]
  simp only [TemplateTable.find?_eq_some_iff, InGroups, InGroup]
  constructor
  · rintro ⟨⟨group, es⟩, hg, rfl, e, he⟩
    exact ⟨e, es, hg, he⟩
  · rintro ⟨e, es, hg, he⟩
    exact ⟨(y.1, es), hg, rfl, e, he⟩

section Rounds

variable {I : (String × String → Prop) → Registry → Prop}
  (hmono : ∀ {D D' : String × String → Prop} {r : Registry}, I D r → (∀ y, D' y → D y) → I D' r)
  (hround : ∀ {D : String × String → Prop} {group : String} {x : String × TemplateEntry}
    {s s' : Session}, Returns (loadTemplate env c.templates group x) s () s' →
    c.templates.find? group x.1 = some x.2 → I D s.registry →
      I (fun y => D y ∨ y = (group, x.1)) s'.registry)

include hmono hround

/-- What each round of a template brings about for it comes about for all templates of a group. -/
theorem invariant_of_loadGroup {entries : NameMap TemplateEntry}
    (h : Returns (loadGroup env c.templates (group, entries)) s () s')
    (hgroup : (group, entries) ∈ c.templates.entries) (hs : I D s.registry) :
    I (fun y => D y ∨ InGroup group entries.entries y) s'.registry := by
  refine invariant_of_forM (I := fun done s => I (fun y => D y ∨ InGroup group done y) s.registry) h
    ?_ ?_
  · exact hmono hs fun y hy => hy.resolve_right fun ⟨_, e, he⟩ => absurd he List.not_mem_nil
  · intro done x rest s s' hentries hdone hx
    have hfound : c.templates.find? group x.1 = some x.2 :=
      TemplateTable.find?_eq_some_iff.2 ⟨entries, hgroup, by rw [hentries]; simp⟩
    refine hmono (hround hx hfound hdone) fun y hy => ?_
    obtain hy | hy := hy
    · exact .inl (.inl hy)
    · exact (inGroup_append hy).imp_left .inr

/-- What each round of a template brings about for it comes about for all templates of the
catalog. -/
theorem invariant_of_loadGroups
    (h : Returns (forM c.templates.entries (loadGroup env c.templates)) s () s')
    (hs : I (fun _ => False) s.registry) :
    I (fun y => (c.templates.find? y.1 y.2).isSome) s'.registry := by
  have hall := invariant_of_forM (I := fun done s => I (InGroups done) s.registry) h
    (hmono hs fun y ⟨g, hg, _⟩ => absurd hg List.not_mem_nil)
    fun done g rest s s' hentries hdone hg =>
      hmono (invariant_of_loadGroup (I := I) hmono hround hg (by rw [hentries]; simp) hdone)
        fun y => inGroups_append
  exact hmono hall fun y => inGroups_iff.2

end Rounds

theorem ready_of_loadGroup {entries : NameMap TemplateEntry}
    (h : Returns (loadGroup env c.templates (group, entries)) s () s')
    (hgroup : (group, entries) ∈ c.templates.entries) (hs : s.registry.Ready env c D) :
    s'.registry.Ready env c fun y => D y ∨ InGroup group entries.entries y :=
  invariant_of_loadGroup (I := fun D r => r.Ready env c D) Registry.Ready.mono
    ready_of_loadTemplate h hgroup hs

theorem exists_loadGroup {entries : NameMap TemplateEntry} (hc : c.WellFormed env)
    (hgroup : (group, entries) ∈ c.templates.entries)
    (hs : s.registry.Ready env c (c.DefinesBefore group)) :
    ∃ s', Returns (loadGroup env c.templates (group, entries)) s () s' := by
  refine (exists_forM (I := fun done s => s.registry.Ready env c (c.DefinesBefore group)) hs ?_).imp
    fun s' h => h.1
  intro done x rest s hentries hdone
  have hx : c.templates.find? group x.1 = some x.2 :=
    TemplateTable.find?_eq_some_iff.2 ⟨entries, hgroup, by rw [hentries]; simp⟩
  obtain ⟨s', h⟩ := exists_loadTemplate hc hx (hdone.mono fun y hy => hy.2)
  exact ⟨s', h, (ready_of_loadTemplate h hx hdone).mono fun y hy => .inl hy⟩

/-- The groups before one of the catalog are among those that have been loaded before it. -/
theorem inGroups_of_definesBefore {done rest : List (String × NameMap TemplateEntry)}
    {g : String × NameMap TemplateEntry} {y : String × String}
    (h : c.templates.entries = done ++ g :: rest) (hy : c.DefinesBefore g.1 y) :
    InGroups done y := by
  obtain ⟨hdefined, hlt⟩ := hy
  obtain ⟨g', hg', hy⟩ := inGroups_iff.2 hdefined
  have hsorted := c.templates.sorted
  rw [h] at hg' hsorted
  obtain ⟨-, hlater, -⟩ := List.pairwise_append.1 hsorted
  rcases List.mem_append.1 hg' with hg' | hg'
  · exact ⟨g', hg', hy⟩
  rcases List.mem_cons.1 hg' with rfl | hg'
  · rw [hy.1] at hlt
    exact absurd hlt (String.lt_irrefl _)
  · have hgt := (List.pairwise_cons.1 hlater).1 g' hg'
    rw [hy.1] at hlt
    exact absurd (String.lt_trans hlt hgt) (String.lt_irrefl _)

theorem ready_of_loadGroups
    (h : Returns (forM c.templates.entries (loadGroup env c.templates)) s () s')
    (hs : s.registry.Ready env c fun _ => False) :
    s'.registry.Ready env c fun y => (c.templates.find? y.1 y.2).isSome :=
  invariant_of_loadGroups (I := fun D r => r.Ready env c D) Registry.Ready.mono
    ready_of_loadTemplate h hs

theorem exists_loadGroups (hc : c.WellFormed env) (hs : s.registry.Ready env c fun _ => False) :
    ∃ s', Returns (forM c.templates.entries (loadGroup env c.templates)) s () s' := by
  refine (exists_forM (I := fun done s => s.registry.Ready env c (InGroups done))
    (hs.mono fun y ⟨g, hg, _⟩ => absurd hg List.not_mem_nil) ?_).imp fun s' h => h.1
  intro done g rest s hentries hdone
  have hgroup : g ∈ c.templates.entries := by rw [hentries]; simp
  obtain ⟨s', h⟩ :=
    exists_loadGroup hc hgroup (hdone.mono fun y => inGroups_of_definesBefore hentries)
  exact ⟨s', h, (ready_of_loadGroup h hgroup hdone).mono fun y => inGroups_append⟩

end Templates

/-! ## Catalogs -/

theorem Registry.HasTokensOf.ready {r : Registry} (h : r.HasTokensOf c.tokens.entries) :
    r.Ready env c fun _ => False := by
  have htemplates : ∀ group name, r.template? group name = none := fun group name => by
    rw [Registry.template?, h.templates]
    rfl
  refine ⟨⟨h.kinds, fun name u hu => ?_, fun group name t ht => ?_, fun group g hg => ?_⟩,
    fun name hname => ?_, fun y hy => hy.elim⟩
  · obtain ⟨entry, hentry, hu⟩ := (h.tokens name u).1 hu
    exact ⟨entry, NameMap.get?_eq_some_iff.2 hentry, hu⟩
  · rw [htemplates] at ht
    cases ht
  · rw [h.templates] at hg
    cases hg
  · obtain ⟨entry, hentry⟩ := Option.isSome_iff_exists.1 hname
    rw [NameMap.get?_eq_some_iff] at hentry
    obtain ⟨u, hu⟩ := h.built _ hentry
    exact Option.isSome_of_eq_some ((h.tokens name u).2 ⟨entry, hentry, hu⟩)

/-- What a loaded registry holds: every template of the catalog, as the catalog makes it. -/
theorem ready_of_load (h : Returns (load env c) .empty () s) :
    s.registry.Ready env c fun y => (c.templates.find? y.1 y.2).isSome := by
  rw [load_eq] at h
  obtain ⟨u, t, htokens, hgroups⟩ := returns_bind.1 h
  exact ready_of_loadGroups hgroups (hasTokensOf_of_returns (distinct_entries c) htokens).ready

theorem wellFormed_of_load (h : Returns (load env c) .empty () s) : c.WellFormed env := by
  have hready := ready_of_load h
  rw [load_eq] at h
  obtain ⟨u, t, htokens, -⟩ := returns_bind.1 h
  refine Catalog.wellFormed_of_makes (fun name entry hentry => ?_) fun group name e he => ?_
  · exact (hasTokensOf_of_returns (distinct_entries c) htokens).built _
      (NameMap.get?_eq_some_iff.1 hentry)
  · obtain ⟨v, hv⟩ :=
      Option.isSome_iff_exists.1 (hready.hasTemplates (group, name) (Option.isSome_of_eq_some he))
    exact ⟨v, hready.templates _ _ v hv⟩

theorem exists_load (hc : c.WellFormed env) : ∃ s, Returns (load env c) .empty () s := by
  obtain ⟨s, htokens⟩ := exists_loadTokens (distinct_entries c) fun x hx =>
    hc.tokens x.1 x.2 (NameMap.get?_eq_some_iff.2 hx)
  obtain ⟨s', hgroups⟩ :=
    exists_loadGroups hc (hasTokensOf_of_returns (distinct_entries c) htokens).ready
  rw [load_eq]
  exact ⟨s', returns_bind.2 ⟨(), s, htokens, hgroups⟩⟩

/-- **A catalog can be loaded exactly if it is well-formed.** Whatever its groups and names are,
templates may refer to one another in any way but back to themselves. -/
theorem load_ok_iff (env : Environment) (c : Catalog) :
    ((load env c).outcome .empty).1 = .ok () ↔ c.WellFormed env := by
  constructor
  · intro h
    exact wellFormed_of_load (Prod.ext h rfl)
  · intro hc
    obtain ⟨s, hs⟩ := exists_load hc
    rw [hs]

end Stencil
