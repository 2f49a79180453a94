import Stencil.Proofs.Registry.Loading
import Stencil.Proofs.Registry.Reloading

/-!
# Names that are taken

A template is refused as there already exactly if its own name was taken before anything was built
for it, and then nothing has happened (`createTemplate_taken_iff`).

Its name is looked up twice: before the pieces of its definition are taken up, and when it is
registered, after any number of other templates have been. The second time it is still new, for its
key is held all the while, and what is built then is of other keys (`Registry.Grows.extends`). So no
building from pieces is ever refused for such a name, however deep the templates that it builds are
nested, and with kinds of tokens that do not give this very reason themselves no loading is.
-/

namespace Stencil

open Definition Build

variable {α β : Type} {env : Environment} {table : TemplateTable} {p : Progress} {s s' t : Session}
  {group name group' name' : String} {pieces : List Piece} {e : TemplateEntry}

/-- The result is not the error that a template is there already. -/
def Untaken (x : Except BuildError α) : Prop :=
  ∀ group name, x ≠ .error (.templateExists group name)

section Results

variable {x : Except BuildError α} {f : α → Except BuildError β}

theorem untaken_ok (a : α) : Untaken (.ok a : Except BuildError α) := nofun

theorem untaken_error {error : BuildError} (h : ∀ group name, error ≠ .templateExists group name) :
    Untaken (.error error : Except BuildError α) := by
  intro group name heq
  exact h group name (Except.error.inj heq)

theorem Untaken.bind (hx : Untaken x) (hf : ∀ a, Untaken (f a)) : Untaken (x >>= f) := by
  intro group name
  cases x with
  | ok a => exact hf a group name
  | error error => exact fun heq => hx group name (congrArg Except.error (Except.error.inj heq))

theorem untaken_outcome {b : Build α}
    (h : ∀ group name s', ¬ Throws b s (.templateExists group name) s') :
    Untaken (b.outcome s).1 := by
  intro group name heq
  exact h group name (b.outcome s).2 (Prod.ext heq rfl)

end Results

/-! ## Building from pieces -/

namespace Build

theorem not_throws_taken_finish {kind : Option TemplateKind} {segments : List Segment}
    (hnew : s.registry.template? group name = none) :
    ¬ Throws (finishTemplate group name kind segments) s (.templateExists group' name') s' := by
  intro h
  obtain ⟨hcreate, -⟩ | ⟨u, hu, hinsert⟩ := throws_finishTemplate.1 h
  · obtain ⟨fault, herror⟩ := Template.create_eq_error hcreate
    cases herror
  · obtain ⟨htaken, -, -⟩ := throws_insertTemplate.1 hinsert
    rw [(Template.create_eq hu).2.2.1, hnew] at htaken
    cases htaken

/-- A template whose key is held and whose name is new is still new when it comes to be
registered. -/
theorem not_throws_taken_construct (hheld : p.isHeld (templateKey group name) = true)
    (hnew : s.registry.template? group name = none)
    (hpieces : ∀ s s', ¬ Throws (buildSegments env table p group (piecesOf env e.definition)) s
      (.templateExists group' name') s') :
    ¬ Throws (construct env table p group name e) s (.templateExists group' name') s' := by
  intro h
  obtain hsegments | ⟨segments, t, hsegments, hfinish⟩ := throws_construct.1 h
  · exact hpieces _ _ hsegments
  · obtain ⟨hgrows, -⟩ := builds env table p group _ hsegments
    refine not_throws_taken_finish ?_ hfinish
    rw [hgrows.extends.held _ _ hheld]
    exact hnew

theorem not_throws_taken_segments (env : Environment) (table : TemplateTable)
    (p : Progress) (group : String) (pieces : List Piece) (group' name' : String) :
    ∀ s s', ¬ Throws (buildSegments env table p group pieces) s
      (.templateExists group' name') s' := by
  induction p, group, pieces using pieces_induction env table with
  | nil p group => exact fun s s' => not_throws_segments_nil
  | literal p group text pieces ih => exact fun s s' h => ih s s' (throws_segments_literal.1 h)
  | token p group name pieces ih =>
    intro s s' h
    obtain ⟨-, herror, -⟩ | ⟨u, -, hrest⟩ := throws_segments_token.1 h
    · cases herror
    · exact ih s s' hrest
  | reference p group symbol reference pieces ihInside ih =>
    intro s s' h
    obtain ⟨-, herror, -⟩ | ⟨-, hfollow | ⟨u, t, -, hrest⟩⟩ := throws_segments_reference.1 h
    · cases herror
    · -- The reference has led to something that is not registered.
      obtain ⟨hnew, ⟨-, herror, -⟩ | ⟨e, he, ⟨-, herror, -⟩ | ⟨hfree, hconstruct⟩⟩⟩ :=
        throws_follow.1 hfollow
      · cases herror
      · cases herror
      · exact not_throws_taken_construct (Progress.isHeld_append.2 (.inr rfl)) hnew
          (ihInside e he hfree) hconstruct
    · exact ih t s' hrest

/-- A template is refused as there already just if it is, and then nothing has happened. -/
theorem throws_taken_createTemplate :
    Throws (createTemplate env table group name e) s (.templateExists group' name') s' ↔
      s.registry.hasTemplate group name = true ∧ (group' = group ∧ name' = name) ∧ s' = s := by
  rw [throws_createTemplate]
  constructor
  · rintro (⟨htaken, herror, rfl⟩ | ⟨hnew, hconstruct⟩)
    · obtain ⟨rfl, rfl⟩ := BuildError.templateExists.inj herror
      exact ⟨htaken, ⟨rfl, rfl⟩, rfl⟩
    · have hheld : (⟨[templateKey group name]⟩ : Progress).isHeld (templateKey group name) = true :=
        (Progress.isHeld_append (p := .empty)).2 (.inr rfl)
      exact absurd hconstruct
        (not_throws_taken_construct hheld hnew
          (not_throws_taken_segments env table _ group _ group' name'))
  · rintro ⟨htaken, ⟨rfl, rfl⟩, rfl⟩
    exact .inl ⟨htaken, rfl, rfl⟩

end Build

/-! ## Kinds of tokens -/

/-- A kind that never says of a token that a template is there already. -/
structure Kind.Discreet (k : Kind) : Prop where
  regex : ∀ name o, Untaken (k.regex name o)
  renderRule : ∀ o, Untaken (k.renderRule o)

/-- All kinds that can be used are such. -/
def KindRegistry.Discreet (r : KindRegistry) : Prop :=
  ∀ tag kind, r.get tag = .ok kind → kind.Discreet

section Kinds

variable {o : TokenOptions}

theorem untaken_explicit (spec : String) : Untaken (RenderRule.explicit spec) := by
  unfold RenderRule.explicit
  split
  · exact untaken_ok _
  · exact untaken_error nofun

theorem Padding.untaken_check (bound : PaddingBound) (v : Option Int64) :
    Untaken (check bound v) := by
  unfold check
  split
  · exact untaken_ok _
  · split
    · exact untaken_error nofun
    · exact untaken_ok _

theorem TokenOptions.untaken_padding (o : TokenOptions) : Untaken o.padding := by
  refine (Padding.untaken_check _ _).bind fun least => (Padding.untaken_check _ _).bind fun most =>
    ?_
  split
  · split
    · exact untaken_error nofun
    · exact untaken_ok _
  · exact untaken_ok _

namespace Kind

theorem untaken_classRegex (o : TokenOptions) (cls : String) : Untaken (classRegex o cls) := by
  unfold classRegex
  split
  · split
    · exact untaken_error nofun
    · exact untaken_ok _
  · refine o.untaken_padding.bind fun padding => ?_
    split <;> exact untaken_ok _

theorem untaken_caseRegex (o : TokenOptions) (c : Case) : Untaken (caseRegex o c) := by
  unfold caseRegex
  split
  · exact untaken_error nofun
  · exact o.untaken_padding.bind fun padding => untaken_ok _

theorem untaken_paddedRule (o : TokenOptions) (padchar padalign : Char)
    (strict : Bool) (type : RenderType) : Untaken (paddedRule o padchar padalign strict type) := by
  unfold paddedRule
  split
  · exact untaken_explicit _
  · refine o.untaken_padding.bind fun padding => ?_
    split
    · split
      · exact untaken_ok _
      · exact untaken_explicit _
    · exact untaken_ok _

theorem discreet_int : Kind.int.Discreet := by
  refine ⟨fun name o => ?_, fun o => untaken_paddedRule _ _ _ _ _⟩
  unfold Kind.int
  dsimp only
  split
  · exact untaken_error nofun
  · exact untaken_classRegex _ _

theorem discreet_text : Kind.text.Discreet := by
  refine ⟨fun name o => ?_, fun o => untaken_paddedRule _ _ _ _ _⟩
  unfold Kind.text
  dsimp only
  split
  · exact untaken_classRegex _ _
  · exact untaken_caseRegex _ _

theorem discreet_custom : Kind.custom.Discreet := by
  refine ⟨fun name o => ?_, fun o => ?_⟩
  · unfold Kind.custom
    dsimp only
    split
    · split
      · exact untaken_error nofun
      · exact untaken_ok _
    · exact untaken_error nofun
  · unfold Kind.custom
    dsimp only
    split
    · exact untaken_explicit _
    · exact untaken_ok _

end Kind

namespace KindRegistry

variable {r : KindRegistry}

theorem Discreet.register {k : Kind} (h : r.Discreet) (hk : k.Discreet) :
    (r.register k).Discreet := by
  intro tag kind hkind
  simp only [KindRegistry.get, KindRegistry.register, NameMap.get?_insert] at hkind
  by_cases htag : k.tag = tag
  · rw [if_pos htag] at hkind
    cases hkind
    exact hk
  · rw [if_neg htag] at hkind
    exact h tag kind hkind

theorem discreet_builtIn : builtIn.Discreet :=
  ((Discreet.register (r := ⟨.empty⟩) nofun Kind.discreet_int).register Kind.discreet_text).register
    Kind.discreet_custom

end KindRegistry

theorem Token.untaken_create {kind : Kind} {regex : String} {rule : RenderRule} :
    Untaken (Token.create name kind regex rule) := by
  unfold Token.create
  split
  · exact untaken_error nofun
  · split
    · exact untaken_error nofun
    · exact untaken_ok _

theorem Token.untaken_ofOptions {kind : Kind} (hkind : kind.Discreet) :
    Untaken (Token.ofOptions name kind o) :=
  (hkind.regex name o).bind fun _ => (hkind.renderRule o).bind fun _ =>
    untaken_create.bind fun _ => untaken_ok _

end Kinds

/-! ## Loading -/

namespace Build

theorem not_throws_taken_createToken {o : TokenOptions} (h : s.registry.kinds.Discreet) :
    ¬ Throws (createToken name o) s (.templateExists group' name') s' := by
  unfold createToken
  rw [throws_get_bind, throws_guard, throws_get_bind, throws_liftM_bind]
  simp only [throws_liftM_bind, throws_insertToken]
  rintro (⟨-, herror, -⟩ | ⟨-, ⟨hkind, -⟩ | ⟨kind, hkind, ⟨hoptions, -⟩ | ⟨u, -, -, herror, -⟩⟩⟩)
  · cases herror
  · unfold KindRegistry.get at hkind
    split at hkind <;> cases hkind
  · exact Token.untaken_ofOptions (h _ kind hkind) _ _ hoptions
  · cases herror

theorem kinds_of_returns_loadToken {x : String × TokenEntry} (h : Returns (loadToken x) s () s') :
    s'.registry.kinds = s.registry.kinds := by
  obtain ⟨u, t, hcreate, hpure⟩ := returns_bind.1 h
  obtain ⟨-, rfl⟩ := returns_pure.1 hpure
  obtain ⟨-, kind, -, v, -, hinsert⟩ := returns_createToken.1 hcreate
  obtain ⟨-, -, rfl⟩ := returns_insertToken.1 hinsert
  rfl

/-- The round of a template takes up only what is not registered. -/
theorem not_throws_taken_loadTemplate {x : String × TemplateEntry} :
    ¬ Throws (loadTemplate env table group x) s (.templateExists group' name') s' := by
  unfold loadTemplate
  rw [throws_get_bind]
  split
  · exact not_throws_pure
  · next hnew =>
    rw [throws_bind_pure, throws_taken_createTemplate]
    exact fun h => hnew h.1

theorem not_throws_taken_load {c : Catalog} (h : s.registry.kinds.Discreet) :
    ¬ Throws (load env c) s (.templateExists group' name') s' := by
  rw [load_eq, throws_bind]
  rintro (htokens | ⟨u, t, -, htemplates⟩)
  · obtain ⟨x, -, t, hkinds, hround⟩ :=
      exists_round_of_throws (I := fun t => t.registry.kinds = s.registry.kinds) htokens rfl
        fun x t t' hkinds hx => (kinds_of_returns_loadToken hx).trans hkinds
    unfold loadToken at hround
    rw [throws_bind_pure] at hround
    refine not_throws_taken_createToken ?_ hround
    rw [hkinds]
    exact h
  · obtain ⟨g, -, t, -, hgroup⟩ := exists_round_of_throws (I := fun _ => True) htemplates trivial
      fun _ _ _ _ _ => trivial
    obtain ⟨x, -, t, -, hround⟩ := exists_round_of_throws (I := fun _ => True) hgroup trivial
      fun _ _ _ _ _ => trivial
    exact not_throws_taken_loadTemplate hround

/-- **A template is there already only if the name that was asked for was taken.** Whatever a
session has registered, whatever the definition and the table: to build a template is refused as
there already just if its name is registered when it is asked for, and this leaves the session as it
was. No building from pieces is ever refused so, and no construction whose key is held and whose
name was new when it started, whatever else is under construction; nor is loading, with kinds of
tokens that do not give this reason themselves. -/
theorem createTemplate_taken_iff (env : Environment) (table : TemplateTable) (group name : String)
    (e : TemplateEntry) (s : Session) :
    ((∃ group' name', ((createTemplate env table group name e).outcome s).1 =
      .error (.templateExists group' name')) ↔
        s.registry.hasTemplate group name = true) ∧
      (s.registry.hasTemplate group name = true →
        (createTemplate env table group name e).outcome s =
          (.error (.templateExists group name), s)) ∧
      (∀ p group' pieces t, Untaken ((buildSegments env table p group' pieces).outcome t).1) ∧
      (∀ p group' name' e' t, p.isHeld (templateKey group' name') = true →
        t.registry.hasTemplate group' name' = false →
        Untaken ((construct env table p group' name' e').outcome t).1) ∧
      (s.registry.kinds.Discreet → ∀ c, Untaken ((load env c).outcome s).1) := by
  refine ⟨⟨?_, fun h => ?_⟩, fun h => ?_, fun p group' pieces t => ?_,
    fun p group' name' e' t hheld hnew => ?_, fun h c => ?_⟩
  · rintro ⟨group', name', h⟩
    exact (throws_taken_createTemplate.1 (Prod.ext h rfl)).1
  · exact ⟨group, name, congrArg Prod.fst (throws_taken_createTemplate.2 ⟨h, ⟨rfl, rfl⟩, rfl⟩)⟩
  · exact throws_taken_createTemplate.2 ⟨h, ⟨rfl, rfl⟩, rfl⟩
  · exact untaken_outcome fun group'' name'' => not_throws_taken_segments env table p
      group' pieces group'' name'' t
  · refine untaken_outcome fun group'' name'' s' => ?_
    refine not_throws_taken_construct hheld ?_
      (not_throws_taken_segments env table p group' _ group'' name'')
    exact Option.isNone_iff_eq_none.1 (Option.isSome_eq_false_iff.1 hnew)
  · exact untaken_outcome fun group' name' s' => not_throws_taken_load h

/-- The name `t` is taken, and `u` is built by a reference to it. -/
theorem createTemplate_taken_letterA :
    (createTemplate noVariables lettersBAndC.templates "template" "t" (.ofString "b")).outcome
      ⟨holdsLetterA, []⟩ =
        (.error (.templateExists "template" "t"), ⟨holdsLetterA, []⟩) ∧
      Untaken
        ((createTemplate noVariables lettersBAndC.templates "template" "u"
          (.ofString "{@t}c")).outcome ⟨holdsLetterA, []⟩).1 ∧
      Untaken ((load noVariables lettersBAndC).outcome ⟨holdsLetterA, []⟩).1 := by
  obtain ⟨-, htaken, -, -, hload⟩ :=
    createTemplate_taken_iff noVariables lettersBAndC.templates "template" "t"
      (.ofString "b") ⟨holdsLetterA, []⟩
  obtain ⟨hnew, -⟩ :=
    createTemplate_taken_iff noVariables lettersBAndC.templates "template" "u"
      (.ofString "{@t}c") ⟨holdsLetterA, []⟩
  refine ⟨htaken rfl, fun group' name' h => ?_, hload KindRegistry.discreet_builtIn lettersBAndC⟩
  exact Bool.false_ne_true (hnew.1 ⟨group', name', h⟩)

end Build

end Stencil
