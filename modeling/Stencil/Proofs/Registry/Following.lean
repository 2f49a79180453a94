import Stencil.Proofs.Registry.Building
import Stencil.Proofs.Registry.WellFormed
import Stencil.Proofs.Template.Parsing

/-!
# Following references

Building from a definition of a catalog registers nothing but what the catalog makes of its
definitions (`faithful`), and in a well-formed catalog it succeeds (`advances`). Both are by
induction on how many definitions are not under construction. For the second one it has to be
excluded that a reference leads to a key that is held: to the same template it would close a circle,
and another template of that key is in an earlier group than one with a dot in it, and is registered
already (`Held.free`).
-/

namespace Stencil

open Definition Build

variable {env : Environment} {c : Catalog} {p : Progress} {s s' : Session}

theorem Catalog.Makes.name_eq {group name : String} {t : Template} (h : c.Makes env group name t) :
    t.name = name := by
  obtain ⟨e, segments, -, -, ht⟩ := h
  exact (Template.create_eq ht).2.2.1

theorem Progress.start_of_free {key : String} (h : p.isHeld key = false) :
    p.start key = .ok ⟨p.keys ++ [key]⟩ := by
  simp [Progress.start, h]

theorem Progress.isHeld_append {key key' : String} :
    Progress.isHeld ⟨p.keys ++ [key']⟩ key = true ↔ p.isHeld key = true ∨ key = key' := by
  simp [Progress.isHeld]

/-! ## Registries along the way -/

namespace Registry

variable {r r' r'' : Registry} {group name : String} {t : Template}

/-- All that is registered is what the catalog makes of its definitions, under the built-in
kinds. -/
structure Sound (env : Environment) (c : Catalog) (r : Registry) : Prop where
  kinds : r.kinds = .builtIn
  tokens : ∀ name u, r.token? name = some u → c.Defines name u
  templates : ∀ group name t, r.template? group name = some t → c.Makes env group name t
  /-- No group is empty. -/
  groups : ∀ group g, r.templates.get? group = some g → ∃ name, (g.get? name).isSome

/-- What building does to a registry while some keys are held: it adds templates of other keys. -/
structure Extends (p : Progress) (r r' : Registry) : Prop where
  tokens : r'.tokens = r.tokens
  kept : ∀ group name t, r.template? group name = some t → r'.template? group name = some t
  held : ∀ group name, p.isHeld (templateKey group name) = true →
    r'.template? group name = r.template? group name

theorem Extends.refl : Extends p r r := ⟨rfl, fun _ _ _ h => h, fun _ _ _ => rfl⟩

theorem Extends.trans (h : Extends p r r') (h' : Extends p r' r'') : Extends p r r'' :=
  ⟨h'.tokens.trans h.tokens, fun g n t ht => h'.kept g n t (h.kept g n t ht),
    fun g n hheld => (h'.held g n hheld).trans (h.held g n hheld)⟩

theorem Extends.release {key : String} (h : Extends ⟨p.keys ++ [key]⟩ r r') : Extends p r r' :=
  ⟨h.tokens, h.kept, fun g n hheld => h.held g n (Progress.isHeld_append.2 (.inl hheld))⟩

theorem Extends.addTemplate (hnone : r.template? group t.name = none)
    (hfree : p.isHeld (templateKey group t.name) = false) :
    Extends p r (r.addTemplate group t) := by
  refine ⟨rfl, fun g n u hu => ?_, fun g n hheld => ?_⟩
  · rw [template?_addTemplate, if_neg, hu]
    rintro ⟨rfl, rfl⟩
    rw [hnone] at hu
    cases hu
  · rw [template?_addTemplate, if_neg]
    rintro ⟨rfl, rfl⟩
    rw [hfree] at hheld
    cases hheld

/-- If no group is empty, none is after a template has come into one. -/
theorem exists_of_addTemplate
    (h : ∀ group g, r.templates.get? group = some g → ∃ name, (g.get? name).isSome)
    {group group' : String} {t : Template} {g : NameMap Template}
    (hg : (r.addTemplate group t).templates.get? group' = some g) :
    ∃ name, (g.get? name).isSome := by
  simp only [Registry.addTemplate, NameMap.get?_insert] at hg
  split at hg
  · cases hg
    exact ⟨t.name, by rw [NameMap.get?_insert, if_pos rfl]; rfl⟩
  · exact h group' g hg

theorem Sound.addTemplate (h : r.Sound env c) (ht : c.Makes env group t.name t) :
    (r.addTemplate group t).Sound env c := by
  refine ⟨h.kinds, h.tokens, fun g n u hu => ?_, fun g m hm => exists_of_addTemplate h.groups hm⟩
  rw [template?_addTemplate] at hu
  split at hu
  · next heq =>
    obtain ⟨rfl, rfl⟩ := heq
    cases hu
    exact ht
  · exact h.templates g n u hu

end Registry

/-! ## What is built is what is defined -/

/-- While some keys are held, building from pieces gives what they denote. -/
def Faithful (env : Environment) (c : Catalog) (p : Progress) : Prop :=
  ∀ ⦃group pieces s segments s'⦄,
    Returns (buildSegments env c.templates p group pieces) s segments s' → s.registry.Sound env c →
      c.Denotes env group pieces segments ∧ s'.registry.Sound env c ∧
        s.registry.Extends p s'.registry

theorem makes_of_construct {group name : String} {e : TemplateEntry} {t : Template}
    (hfaithful : Faithful env c ⟨p.keys ++ [templateKey group name]⟩)
    (he : c.templates.find? group name = some e) (hfree : p.isHeld (templateKey group name) = false)
    (hs : s.registry.Sound env c)
    (h : Returns (construct env c.templates ⟨p.keys ++ [templateKey group name]⟩ group name e)
      s t s') :
    c.Makes env group name t ∧ s'.registry.Sound env c ∧ s.registry.Extends p s'.registry ∧
      s'.registry.template? group name = some t := by
  obtain ⟨segments, s₁, hsegments, hfinish⟩ := returns_construct.1 h
  obtain ⟨hdenotes, hsound, hextends⟩ := hfaithful hsegments hs
  obtain ⟨t', ht, hinsert⟩ := returns_finishTemplate.1 hfinish
  obtain ⟨hnone, rfl, rfl⟩ := returns_insertTemplate.1 hinsert
  have hmakes : c.Makes env group name t := ⟨e, segments, he, hdenotes, ht⟩
  have hname := hmakes.name_eq
  subst hname
  refine ⟨hmakes, hsound.addTemplate hmakes, hextends.release.trans (.addTemplate hnone hfree), ?_⟩
  rw [Registry.template?_addTemplate, if_pos ⟨rfl, rfl⟩]

theorem makes_of_follow {target : String × String} {t : Template}
    (hfaithful : ∀ e, c.templates.find? target.1 target.2 = some e →
      p.isHeld (templateKey target.1 target.2) = false →
      Faithful env c ⟨p.keys ++ [templateKey target.1 target.2]⟩)
    (hs : s.registry.Sound env c) (h : Returns (follow env c.templates p target) s t s') :
    c.Makes env target.1 target.2 t ∧ s'.registry.Sound env c ∧
    s.registry.Extends p s'.registry := by
  obtain ⟨hsome, rfl⟩ | ⟨-, e, he, hfree, hconstruct⟩ := returns_follow.1 h
  · exact ⟨hs.templates _ _ _ hsome, hs, .refl⟩
  · obtain ⟨hmakes, hsound, hextends, -⟩ :=
      makes_of_construct (hfaithful e he hfree) he hfree hs hconstruct
    exact ⟨hmakes, hsound, hextends⟩

theorem faithful (env : Environment) (c : Catalog) (p : Progress) : Faithful env c p := by
  induction hn : c.templates.openCount p using Nat.strong_induction_on generalizing p with
  | _ n ih =>
  intro group pieces s segments s' h hs
  induction pieces generalizing s segments with
  | nil =>
    obtain ⟨rfl, rfl⟩ := returns_segments_nil.1 h
    exact ⟨.nil, hs, .refl⟩
  | cons piece pieces ihPieces =>
    match piece with
    | .literal text =>
      obtain ⟨rest, rfl, hrest⟩ := returns_segments_literal.1 h
      obtain ⟨hdenotes, hsound, hextends⟩ := ihPieces hrest hs
      exact ⟨.literal hdenotes, hsound, hextends⟩
    | .placeholder ⟨none, name⟩ =>
      obtain ⟨u, rest, hu, rfl, hrest⟩ := returns_segments_token.1 h
      obtain ⟨hdenotes, hsound, hextends⟩ := ihPieces hrest hs
      exact ⟨.token (hs.tokens name u hu) hdenotes, hsound, hextends⟩
    | .placeholder ⟨some symbol, reference⟩ =>
      obtain ⟨rfl, t, s₁, rest, hfollow, rfl, hrest⟩ := returns_segments_reference.1 h
      obtain ⟨⟨e, inner, he, hinner, ht⟩, hsound₁, hextends₁⟩ := makes_of_follow (fun e he hfree =>
        ih _ (hn ▸ TemplateTable.openCount_lt he (Progress.start_of_free hfree)) _ rfl) hs hfollow
      obtain ⟨hdenotes, hsound, hextends⟩ := ihPieces hrest hsound₁
      obtain ⟨hsegments, hkind, hname, -⟩ := Template.create_eq ht
      refine ⟨?_, hsound, hextends₁.trans hextends⟩
      rw [Template.toSegment, hsegments, hkind, hname]
      exact .template rfl he hinner hdenotes

/-! ## Building goes through -/

/-- The keys that are held belong to templates on the way from one template to another one. -/
def Held (env : Environment) (c : Catalog) (x y : String × String) (p : Progress) : Prop :=
  ∀ key, p.isHeld key = true → ∃ z : String × String, key = templateKey z.1 z.2 ∧
    Relation.ReflTransGen (c.Refers env) x z ∧ Relation.ReflTransGen (c.Refers env) z y

theorem Held.start {x y z : String × String} (h : Held env c x y p)
    (hxy : Relation.ReflTransGen (c.Refers env) x y) (hyz : c.Refers env y z) :
    Held env c x z ⟨p.keys ++ [templateKey z.1 z.2]⟩ := by
  intro key hkey
  obtain hheld | rfl := Progress.isHeld_append.1 hkey
  · obtain ⟨w, hw, hxw, hwy⟩ := h key hheld
    exact ⟨w, hw, hxw, hwy.tail hyz⟩
  · exact ⟨z, rfl, hxy.tail hyz, .refl⟩

/-- A registry holds all tokens of a catalog and some of its templates. -/
structure Registry.Ready (env : Environment) (c : Catalog) (D : String × String → Prop)
    (r : Registry) : Prop extends r.Sound env c where
  hasTokens : ∀ name, (c.tokens.get? name).isSome → (r.token? name).isSome
  hasTemplates : ∀ x, D x → (r.template? x.1 x.2).isSome

theorem Registry.Ready.mono {D D' : String × String → Prop} {r : Registry} (h : r.Ready env c D)
    (hD : ∀ x, D' x → D x) : r.Ready env c D' :=
  ⟨h.toSound, h.hasTokens, fun x hx => h.hasTemplates x (hD x hx)⟩

theorem Registry.Ready.extends {D : String × String → Prop} {r r' : Registry} (h : r.Ready env c D)
    (hextends : r.Extends p r') (hsound : r'.Sound env c) : r'.Ready env c D := by
  refine ⟨hsound, fun name hname => ?_, fun x hx => ?_⟩
  · unfold Registry.token?
    rw [hextends.tokens]
    exact h.hasTokens name hname
  · obtain ⟨t, ht⟩ := Option.isSome_iff_exists.1 (h.hasTemplates x hx)
    exact Option.isSome_of_eq_some (hextends.kept _ _ t ht)

/-- The catalog defines a template, and its group is before another one. -/
def Catalog.DefinesBefore (c : Catalog) (group : String) (x : String × String) : Prop :=
  (c.templates.find? x.1 x.2).isSome ∧ x.1 < group

/-- What has to be registered before the templates of a group are built: if the group has a dot in
it, the templates of the groups before it. -/
def Catalog.Needs (c : Catalog) (group : String) (x : String × String) : Prop :=
  '.' ∈ group.toList ∧ c.DefinesBefore group x

/-- In a well-formed catalog a reference to what is not registered does not lead to a key that is
held. -/
theorem Held.free {x y z : String × String} {r : Registry} (h : Held env c x y p)
    (hc : c.WellFormed env) (hr : r.Ready env c (c.Needs x.1)) (hyz : c.Refers env y z)
    (hdefined : (c.templates.find? z.1 z.2).isSome) (hnone : r.template? z.1 z.2 = none) :
    p.isHeld (templateKey z.1 z.2) = false := by
  by_contra hheld
  obtain ⟨w, hkey, hxw, hwy⟩ := h _ (by simpa using hheld)
  have hwz : Relation.ReflTransGen (c.Refers env) w z := hwy.tail hyz
  have hne : z ≠ w := by
    rintro rfl
    exact hc.acyclic z (Relation.TransGen.tail' hwy hyz)
  have hgroup : z.1 ≠ w.1 := fun heq => by
    rw [heq, templateKey, templateKey, String.append_right_inj] at hkey
    exact hne (Prod.ext heq hkey)
  have hdot := (Catalog.group_of_refers hwz).resolve_left hgroup
  obtain heq | ⟨hdots, hlt⟩ := lt_of_templateKey_eq hkey.symm hdot
  · exact hne heq.symm
  · obtain hfirst | hnodots := Catalog.group_of_refers hxw
    · have hsome := hr.hasTemplates z ⟨hfirst ▸ hdots, hdefined, hfirst ▸ hlt⟩
      rw [hnone] at hsome
      cases hsome
    · exact hnodots hdots

/-- While some keys are held on the way from a template, building from pieces succeeds. -/
def Advances (env : Environment) (c : Catalog) (x : String × String) (p : Progress) : Prop :=
  ∀ ⦃y pieces s⦄, Relation.ReflTransGen (c.Refers env) x y → Held env c x y p →
    (∀ piece ∈ pieces, c.Resolves y.1 piece) →
    (∀ reference, .placeholder ⟨some templateSymbol, reference⟩ ∈ pieces →
      c.Refers env y (referenceTarget y.1 reference)) →
    s.registry.Ready env c (c.Needs x.1) →
    ∃ segments s', Returns (buildSegments env c.templates p y.1 pieces) s segments s'

theorem exists_construct {x y : String × String} {e : TemplateEntry} (hc : c.WellFormed env)
    (hadvances : Advances env c x ⟨p.keys ++ [templateKey y.1 y.2]⟩)
    (he : c.templates.find? y.1 y.2 = some e) (hxy : Relation.ReflTransGen (c.Refers env) x y)
    (hheld : Held env c x y ⟨p.keys ++ [templateKey y.1 y.2]⟩)
    (hs : s.registry.Ready env c (c.Needs x.1)) (hnone : s.registry.template? y.1 y.2 = none) :
    ∃ t s',
      Returns (construct env c.templates ⟨p.keys ++ [templateKey y.1 y.2]⟩ y.1 y.2 e) s t s' := by
  obtain ⟨segments, s₁, hsegments⟩ := hadvances
    (s := ⟨s.registry, .templateStarted (templateKey y.1 y.2) (Progress.depth ⟨p.keys ++ [_]⟩) ::
      s.events⟩)
    hxy hheld (hc.resolves _ _ e he) (fun reference hmem => ⟨e, reference, he, hmem, rfl⟩) hs
  obtain ⟨hdenotes, -, hextends⟩ := faithful env c _ hsegments hs.toSound
  obtain ⟨t, ht⟩ := hc.compiles _ _ e segments he hdenotes
  -- What was built meanwhile has other keys.
  have hstill : s₁.registry.template? y.1 t.name = none := by
    rw [(Template.create_eq ht).2.2.1, hextends.held _ _ (Progress.isHeld_append.2 (.inr rfl))]
    exact hnone
  exact ⟨t, _, returns_construct.2 ⟨segments, s₁, hsegments, returns_finishTemplate.2 ⟨t, ht,
    returns_insertTemplate.2 ⟨hstill, rfl, rfl⟩⟩⟩⟩

theorem advances (hc : c.WellFormed env) (x : String × String) (p : Progress) :
    Advances env c x p := by
  induction hn : c.templates.openCount p using Nat.strong_induction_on generalizing p with
  | _ n ih =>
  intro y pieces s hxy hheld hresolves hrefers hs
  induction pieces generalizing s with
  | nil => exact ⟨[], s, returns_segments_nil.2 ⟨rfl, rfl⟩⟩
  | cons piece pieces ihPieces =>
    have hrest := fun s => @ihPieces s (fun q hq => hresolves q (List.mem_cons_of_mem _ hq))
      (fun r hr => hrefers r (List.mem_cons_of_mem _ hr))
    have hpiece := hresolves piece (List.mem_cons_self ..)
    match piece with
    | .literal text =>
      obtain ⟨rest, s', h⟩ := hrest s hs
      exact ⟨_, s', returns_segments_literal.2 ⟨rest, rfl, h⟩⟩
    | .placeholder ⟨none, name⟩ =>
      obtain ⟨u, hu⟩ := Option.isSome_iff_exists.1 (hs.hasTokens name hpiece)
      obtain ⟨rest, s', h⟩ := hrest s hs
      exact ⟨_, s', returns_segments_token.2 ⟨u, rest, hu, rfl, h⟩⟩
    | .placeholder ⟨some symbol, reference⟩ =>
      obtain ⟨rfl, hdefined⟩ := hpiece
      have hyz := hrefers reference (List.mem_cons_self ..)
      obtain ⟨t, s₁, hfollow⟩ : ∃ t s₁, Returns
          (follow env c.templates p (referenceTarget y.1 reference)) s t s₁ := by
        cases hregistered :
          s.registry.template? (referenceTarget y.1 reference).1
            (referenceTarget y.1 reference).2 with
        | some t => exact ⟨t, s, returns_follow.2 (.inl ⟨hregistered, rfl⟩)⟩
        | none =>
          obtain ⟨e, he⟩ := Option.isSome_iff_exists.1 hdefined
          have hfree := hheld.free hc hs hyz hdefined hregistered
          have hopen := TemplateTable.openCount_lt he (Progress.start_of_free hfree)
          obtain ⟨t, s₁, h⟩ := exists_construct hc (ih _ (hn ▸ hopen) _ rfl) he (hxy.tail hyz)
            (hheld.start hxy hyz) hs hregistered
          exact ⟨t, s₁, returns_follow.2 (.inr ⟨hregistered, e, he, hfree, h⟩)⟩
      obtain ⟨-, hsound, hextends⟩ :=
        makes_of_follow (fun _ _ _ => faithful env c _) hs.toSound hfollow
      obtain ⟨rest, s', h⟩ := hrest s₁ (hs.extends hextends hsound)
      exact ⟨_, s', returns_segments_reference.2 ⟨rfl, t, s₁, rest, hfollow, rfl, h⟩⟩

end Stencil
