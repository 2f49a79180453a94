import Stencil.Proofs.Registry.WriteOnce

/-!
# Building a template again

Building a template that fails leaves behind what was built for it on the way. When further tokens
have been registered, building it again comes to the same end as registering the tokens first and
building it once (`createTemplate_again`).

Up to where the first run failed, the second finds what the first has built, and a run without the
first builds the same in its place: what was built is also built with further tokens (`Persists`).
Where the first run failed, the registries of the other two are the same, and from there on they do
the same, for building does not look at the events by which their sessions differ (`Blind`).
-/

namespace Stencil

open Definition Build

variable {α β : Type} {env : Environment} {table : TemplateTable}
  {p : Progress} {group name : String} {e : TemplateEntry} {pieces : List Piece}
  {target : String × String} {s s' t t' u : Session} {r r' r'' : Registry}

namespace Build

/-! ## The same end -/

/-- Two runs come to the same result and the same registry. -/
structure SameEnd (x y : Except BuildError α × Session) : Prop where
  result : x.1 = y.1
  registry : x.2.registry = y.2.registry

/-- A step does the same in sessions of one registry, whatever has happened in them. -/
def Blind (b : Build α) : Prop :=
  ∀ ⦃s t : Session⦄, s.registry = t.registry → SameEnd (b.outcome s) (b.outcome t)

section Steps

variable {b : Build α} {f : α → Build β}

theorem SameEnd.bind (h : SameEnd (b.outcome s) (b.outcome t)) (hf : ∀ a, Blind (f a)) :
    SameEnd ((b >>= f).outcome s) ((b >>= f).outcome t) := by
  rw [outcome_bind, outcome_bind]
  obtain ⟨hresult, hregistry⟩ := h
  rcases hs : b.outcome s with ⟨x, s'⟩
  rcases ht : b.outcome t with ⟨y, t'⟩
  rw [hs, ht] at hresult hregistry
  obtain rfl : x = y := hresult
  cases x with
  | ok a => exact hf a hregistry
  | error error => exact ⟨rfl, hregistry⟩

theorem SameEnd.of_returns {a : α} (hs : Returns b s a s') (ht : Returns b t a t')
    (h : SameEnd ((f a).outcome s') ((f a).outcome t')) :
    SameEnd ((b >>= f).outcome s) ((b >>= f).outcome t) := by
  unfold Returns at hs ht
  rw [outcome_bind, outcome_bind, hs, ht]
  exact h

theorem blind_pure (a : α) : Blind (pure a : Build α) := fun _ _ h => ⟨rfl, h⟩

theorem blind_throw (error : BuildError) : Blind (throw error : Build α) := fun _ _ h => ⟨rfl, h⟩

theorem blind_note (event : Event) : Blind (note event) := fun _ _ h => ⟨rfl, h⟩

theorem blind_liftM (x : Except BuildError α) : Blind (liftM x : Build α) := by
  intro s t h
  cases x <;> exact ⟨rfl, h⟩

theorem Blind.bind (hb : Blind b)
    (hf : ∀ a, Blind (f a)) : Blind (b >>= f) := fun _ _ h => (hb h).bind hf

theorem blind_get_bind {f : Session → Build α}
    (hf : ∀ s t, s.registry = t.registry → SameEnd ((f s).outcome s) ((f t).outcome t)) :
    Blind (get >>= f) := hf

end Steps

section Templates

theorem blind_insertTemplate (group : String) (v : Template) : Blind (insertTemplate group v) := by
  intro s t h
  cases hv : s.registry.template? group v.name with
  | some w =>
    have hexists : ∀ {s : Session}, s.registry.template? group v.name = some w →
        (insertTemplate group v).outcome s = (.error (.templateExists group v.name), s) := fun hw =>
      throws_insertTemplate.2 ⟨Option.isSome_of_eq_some hw, rfl, rfl⟩
    rw [hexists hv, hexists (h ▸ hv)]
    exact ⟨rfl, h⟩
  | none =>
    have hnew : ∀ {s : Session}, s.registry.template? group v.name = none →
        (insertTemplate group v).outcome s =
        (.ok v, ⟨s.registry.addTemplate group v, .templateRegistered group v.display ::
          s.events⟩) := fun hnone =>
      returns_insertTemplate.2 ⟨hnone, rfl, rfl⟩
    rw [hnew hv, hnew (h ▸ hv)]
    exact ⟨rfl, congrArg (·.addTemplate group v) h⟩

theorem blind_finishTemplate (group name : String) (kind : Option TemplateKind)
    (segments : List Segment) : Blind (finishTemplate group name kind segments) :=
  (blind_note _).bind fun _ => (blind_liftM _).bind fun _ => blind_insertTemplate _ _

theorem blind_construct (h : Blind (buildSegments env table p group (piecesOf env e.definition))) :
    Blind (construct env table p group name e) :=
  (blind_note _).bind fun _ => h.bind fun _ => blind_finishTemplate ..

/-- What a reference finds it finds without looking at more than the registry, if that is so for
what it builds. -/
theorem blind_follow (h : ∀ e, table.find? target.1 target.2 = some e →
      p.isHeld (templateKey target.1 target.2) = false →
      Blind (construct env table ⟨p.keys ++ [templateKey target.1 target.2]⟩ target.1 target.2 e)) :
    Blind (follow env table p target) := by
  unfold follow
  refine blind_get_bind fun s t hst => ?_
  rw [hst]
  cases t.registry.template? target.1 target.2 with
  | some v => exact blind_pure v hst
  | none =>
    cases he : table.find? target.1 target.2 with
    | none => exact blind_throw _ hst
    | some e =>
      cases hheld : p.isHeld (templateKey target.1 target.2) with
      | true => simpa [Progress.start, hheld] using blind_throw _ hst
      | false => simpa [Progress.start, hheld] using h e he hheld hst

theorem blind_segments (env : Environment) (table : TemplateTable) (p : Progress) (group : String)
    (pieces : List Piece) : Blind (buildSegments env table p group pieces) := by
  induction p, group, pieces using pieces_induction env table with
  | nil p group =>
    rw [segments_nil]
    exact blind_pure _
  | literal p group text pieces ih =>
    rw [segments_literal]
    exact ih.bind fun _ => blind_pure _
  | token p group name pieces ih =>
    rw [segments_token]
    refine blind_get_bind fun s t hst => ?_
    rw [hst]
    exact ((blind_liftM _).bind fun _ => ih.bind fun _ => blind_pure _) hst
  | reference p group symbol reference pieces ihInside ih =>
    rw [segments_reference]
    split
    · exact blind_throw _
    · exact (blind_follow fun e he hfree => blind_construct (ihInside e he hfree)).bind fun _ =>
        ih.bind fun _ => blind_pure _

end Templates

end Build

/-! ## Further tokens -/

namespace Registry

/-- One registry holds what another one holds, and further tokens besides. -/
structure Enriches (r r' : Registry) : Prop where
  tokens : ∀ name u, r.token? name = some u → r'.token? name = some u
  templates : r'.templates = r.templates
  kinds : r'.kinds = r.kinds

theorem Enriches.refl : Enriches r r := ⟨fun _ _ h => h, rfl, rfl⟩

theorem Enriches.trans (h : Enriches r r') (h' : Enriches r' r'') : Enriches r r'' :=
  ⟨fun name u hu => h'.tokens name u (h.tokens name u hu), h'.templates.trans h.templates,
    h'.kinds.trans h.kinds⟩

theorem Enriches.template?_eq (h : Enriches r r') (group name : String) :
    r'.template? group name = r.template? group name := by
  rw [template?, h.templates, template?]

theorem Enriches.keeps (h : Enriches r r') : Keeps r r' :=
  ⟨h.tokens, fun group name _ ht => (h.template?_eq group name).trans ht⟩

/-- Only in their tokens can two registries differ that enrich one. -/
theorem Enriches.eq (h : Enriches r r') (h' : Enriches r r'') (htokens : r'.tokens = r''.tokens) :
    r' = r'' := by
  obtain ⟨tokens, templates, kinds⟩ := r'
  obtain ⟨tokens', templates', kinds'⟩ := r''
  obtain rfl : tokens = tokens' := htokens
  obtain rfl : templates = templates' := h.templates.trans h'.templates.symm
  obtain rfl : kinds = kinds' := h.kinds.trans h'.kinds.symm
  rfl

theorem enriches_addToken {v : Token} (hnew : r.token? v.name = none) : Enriches r (r.addToken v) :=
  ⟨(keeps_addToken hnew).tokens, rfl, rfl⟩

theorem Enriches.addTemplate (h : Enriches r r') (group : String) (v : Template) :
    Enriches (r.addTemplate group v) (r'.addTemplate group v) :=
  ⟨h.tokens, by simp only [Registry.addTemplate, h.templates], h.kinds⟩

end Registry

namespace Build

/-- What a step returns, it also returns when there are further tokens, and it adds no token to
them. -/
def Persists (b : Build α) : Prop :=
  ∀ ⦃s a s' t⦄, Returns b s a s' → s.registry.Enriches t.registry → ∃ t', Returns b t a t' ∧
    s'.registry.Enriches t'.registry ∧ t'.registry.tokens = t.registry.tokens

theorem persists_pure (a : α) : Persists (pure a : Build α) := by
  intro s x s' t h henriches
  obtain ⟨rfl, rfl⟩ := returns_pure.1 h
  exact ⟨t, returns_pure.2 ⟨rfl, rfl⟩, henriches, rfl⟩

theorem Persists.bind {b : Build α} {f : α → Build β} (hb : Persists b) (hf : ∀ a, Persists (f a)) :
    Persists (b >>= f) := by
  intro s x s' t h henriches
  obtain ⟨a, s₁, hfirst, hrest⟩ := returns_bind.1 h
  obtain ⟨t₁, ht₁, henriches₁, htokens₁⟩ := hb hfirst henriches
  obtain ⟨t', ht', henriches', htokens'⟩ := hf a hrest henriches₁
  exact ⟨t', returns_bind.2 ⟨a, t₁, ht₁, ht'⟩, henriches', htokens'.trans htokens₁⟩

theorem Persists.note_bind {event : Event} {f : Unit → Build α} (hf : Persists (f ())) :
    Persists (note event >>= f) := by
  intro s x s' t h henriches
  obtain ⟨t', ht', hafter⟩ :=
    hf (t := ⟨t.registry, event :: t.events⟩) (returns_note_bind.1 h) henriches
  exact ⟨t', returns_note_bind.2 ht', hafter⟩

theorem persists_finishTemplate (group name : String) (kind : Option TemplateKind)
    (segments : List Segment) : Persists (finishTemplate group name kind segments) := by
  intro s v s' t h henriches
  obtain ⟨w, hw, hinsert⟩ := returns_finishTemplate.1 h
  obtain ⟨hnone, rfl, rfl⟩ := returns_insertTemplate.1 hinsert
  have hnew : t.registry.template? group v.name = none := (henriches.template?_eq ..).trans hnone
  exact ⟨_, returns_finishTemplate.2 ⟨v, hw, returns_insertTemplate.2 ⟨hnew, rfl, rfl⟩⟩,
    henriches.addTemplate group v, rfl⟩

theorem persists_construct
    (h : Persists (buildSegments env table p group (piecesOf env e.definition))) :
    Persists (construct env table p group name e) :=
  Persists.note_bind (h.bind fun _ => persists_finishTemplate ..)

theorem persists_follow (h : ∀ e, table.find? target.1 target.2 = some e →
      p.isHeld (templateKey target.1 target.2) = false →
      Persists
        (construct env table ⟨p.keys ++ [templateKey target.1 target.2]⟩ target.1 target.2 e)) :
    Persists (follow env table p target) := by
  intro s v s' t hreturns henriches
  obtain ⟨hsome, rfl⟩ | ⟨hnone, e, he, hfree, hconstruct⟩ := returns_follow.1 hreturns
  · exact ⟨t, returns_follow.2 (.inl ⟨(henriches.template?_eq ..).trans hsome, rfl⟩),
      henriches, rfl⟩
  · obtain ⟨t', ht', hafter⟩ := h e he hfree hconstruct henriches
    exact ⟨t', returns_follow.2 (.inr ⟨(henriches.template?_eq ..).trans hnone, e, he, hfree, ht'⟩),
      hafter⟩

theorem persists_segments (env : Environment) (table : TemplateTable)
    (p : Progress) (group : String) (pieces : List Piece) :
    Persists (buildSegments env table p group pieces) := by
  induction p, group, pieces using pieces_induction env table with
  | nil p group =>
    rw [segments_nil]
    exact persists_pure _
  | literal p group text pieces ih =>
    rw [segments_literal]
    exact ih.bind fun _ => persists_pure _
  | token p group name pieces ih =>
    intro s segments s' t h henriches
    obtain ⟨v, rest, hv, rfl, hrest⟩ := returns_segments_token.1 h
    obtain ⟨t', ht', hafter⟩ := ih hrest henriches
    exact ⟨t', returns_segments_token.2 ⟨v, rest, henriches.tokens _ _ hv, rfl, ht'⟩, hafter⟩
  | reference p group symbol reference pieces ihInside ih =>
    rw [segments_reference]
    split
    · exact fun _ _ _ _ h => absurd h not_returns_throw
    · have hlead := persists_follow fun e he hfree => persists_construct (ihInside e he hfree)
      exact hlead.bind fun _ => ih.bind fun _ => persists_pure _

/-! ## What has been built -/

/-- What a step has returned it finds again, without doing anything, where all is kept that there
was then. -/
def Finds (b : Build α) : Prop :=
  ∀ ⦃s a s' u⦄, Returns b s a s' → s'.registry.Keeps u.registry → Returns b u a u

theorem finds_follow (env : Environment) (table : TemplateTable) (p : Progress)
    (target : String × String) : Finds (follow env table p target) := by
  intro s v s' u h hkeeps
  obtain ⟨-, hv⟩ := grows_of_follow (fun _ _ _ => builds ..) h
  exact returns_follow.2 (.inl ⟨hkeeps.templates _ _ _ hv, rfl⟩)

theorem returns_of_stands {segments : List Segment}
    (h : List.Forall₂ (u.registry.Stands group) pieces segments) :
    Returns (buildSegments env table p group pieces) u segments u := by
  induction h with
  | nil => exact returns_segments_nil.2 ⟨rfl, rfl⟩
  | cons hstands _ ih =>
    cases hstands with
    | literal text => exact returns_segments_literal.2 ⟨_, rfl, ih⟩
    | token registered => exact returns_segments_token.2 ⟨_, _, registered, rfl, ih⟩
    | template target registered =>
      refine returns_segments_reference.2 ⟨rfl, _, u, _, ?_, rfl, ih⟩
      rw [target]
      exact returns_follow.2 (.inl ⟨registered, rfl⟩)

theorem finds_segments (env : Environment) (table : TemplateTable) (p : Progress) (group : String)
    (pieces : List Piece) : Finds (buildSegments env table p group pieces) := by
  intro s segments s' u h hkeeps
  obtain ⟨-, hstands⟩ := builds env table p group pieces h
  exact returns_of_stands (hstands.imp fun _ _ h => h.mono hkeeps)

/-! ## After a failure -/

/-- After a step has failed between two sessions, there are two others with the same further tokens:
one has what was there before the step, and one also has what the step has left behind. -/
structure Retry (s s' t u : Session) : Prop where
  first : s.registry.Enriches t.registry
  again : s'.registry.Enriches u.registry
  tokens : t.registry.tokens = u.registry.tokens

theorem Retry.registry_eq (h : Retry s s' t u) (hs : s'.registry = s.registry) :
    t.registry = u.registry :=
  h.first.eq (hs ▸ h.again) h.tokens

/-- Once a step has failed, it comes to the same end again as for the first time. -/
def Retries (b : Build α) : Prop :=
  ∀ ⦃s error s' t u⦄, Throws b s error s' → Retry s s' t u → SameEnd (b.outcome t) (b.outcome u)

section Steps

variable {b : Build α} {f : α → Build β}

/-- A step that leaves nothing behind when it fails. -/
theorem Blind.retries (hb : Blind b)
    (h : ∀ ⦃s error s'⦄, Throws b s error s' → s'.registry = s.registry) : Retries b :=
  fun _ _ _ _ _ hthrows hretry => hb (hretry.registry_eq (h hthrows))

theorem Retries.note_bind {event : Event} {f : Unit → Build α} (hf : Retries (f ())) :
    Retries (note event >>= f) :=
  fun _ _ _ t u h hretry => hf (t := ⟨t.registry, event :: t.events⟩)
    (u := ⟨u.registry, event :: u.events⟩) (throws_note_bind.1 h) ⟨hretry.first,
      hretry.again, hretry.tokens⟩

theorem Retries.bind_pure {g : α → β} (hb : Retries b) : Retries (b >>= fun a => pure (g a)) := by
  intro s error s' t u h hretry
  exact (hb (throws_bind_pure.1 h) hretry).bind fun _ => blind_pure _

/-- Where a sequence has failed after its first part, that part is found again. -/
theorem Retries.bind (hb : Retries b) (hpersists : Persists b) (hfinds : Finds b)
    (hf : ∀ a, Retries (f a)) (hblind : ∀ a, Blind (f a))
    (hkeeps : ∀ ⦃a s error s'⦄, Throws (f a) s error s' → s.registry.Keeps s'.registry) :
    Retries (b >>= f) := by
  intro s error s' t u h hretry
  obtain hfirst | ⟨a, s₁, hreturns, hthrows⟩ := throws_bind.1 h
  · exact (hb hfirst hretry).bind hblind
  · obtain ⟨t₁, ht₁, henriches, htokens⟩ := hpersists hreturns hretry.first
    have hu : Returns b u a u := hfinds hreturns ((hkeeps hthrows).trans hretry.again.keeps)
    exact .of_returns ht₁ hu (hf a hthrows ⟨henriches, hretry.again, htokens.trans hretry.tokens⟩)

end Steps

theorem retries_finishTemplate (group name : String) (kind : Option TemplateKind)
    (segments : List Segment) : Retries (finishTemplate group name kind segments) :=
  (blind_finishTemplate ..).retries fun _ _ _ h => registry_of_throws_finishTemplate h

theorem retries_construct
    (h : Retries (buildSegments env table p group (piecesOf env e.definition))) :
    Retries (construct env table p group name e) := by
  refine Retries.note_bind (h.bind (persists_segments ..) (finds_segments ..)
    (fun _ => retries_finishTemplate ..) (fun _ => blind_finishTemplate ..)
    fun segments s error s' hthrows => ?_)
  rw [registry_of_throws_finishTemplate hthrows]
  exact .refl

theorem outcome_follow (he : table.find? target.1 target.2 = some e)
    (hfree : p.isHeld (templateKey target.1 target.2) = false)
    (hnone : s.registry.template? target.1 target.2 = none) :
    (follow env table p target).outcome s =
      (construct env table ⟨p.keys ++ [templateKey target.1 target.2]⟩
        target.1 target.2 e).outcome s := by
  unfold follow
  rw [outcome_get_bind, hnone, he]
  simp [Progress.start, hfree]

theorem retries_follow (h : ∀ e, table.find? target.1 target.2 = some e →
      p.isHeld (templateKey target.1 target.2) = false →
      Retries
        (construct env table ⟨p.keys ++ [templateKey target.1 target.2]⟩ target.1 target.2 e)) :
    Retries (follow env table p target) := by
  intro s error s' t u hthrows hretry
  have hblind : Blind (follow env table p target) :=
    blind_follow fun e _ _ => blind_construct (blind_segments ..)
  obtain ⟨hnone, ⟨-, -, rfl⟩ | ⟨e, he, ⟨-, -, rfl⟩ | ⟨hfree, hconstruct⟩⟩⟩ :=
    throws_follow.1 hthrows
  · exact hblind (hretry.registry_eq rfl)
  · exact hblind (hretry.registry_eq rfl)
  · -- What is under construction is not among what the failure has left behind.
    have hgrows := grows_of_throws_construct (breaks ..) hconstruct
    have ht : t.registry.template? target.1 target.2 = none :=
      (hretry.first.template?_eq ..).trans hnone
    have hu : u.registry.template? target.1 target.2 = none := by
      rw [hretry.again.template?_eq, hgrows.extends.held _ _ (Progress.isHeld_append.2 (.inr rfl)),
        hnone]
    rw [outcome_follow he hfree ht, outcome_follow he hfree hu]
    exact h e he hfree hconstruct hretry

theorem outcome_segments_token {v : Token} (hv : s.registry.token? name = some v) :
    (buildSegments env table p group (.placeholder ⟨none, name⟩ :: pieces)).outcome s =
      (buildSegments env table p group pieces >>= fun rest =>
        pure (.token v :: rest)).outcome s := by
  rw [segments_token, outcome_get_bind, Registry.token, hv]
  rfl

theorem retries_segments (env : Environment) (table : TemplateTable) (p : Progress) (group : String)
    (pieces : List Piece) : Retries (buildSegments env table p group pieces) := by
  induction p, group, pieces using pieces_induction env table with
  | nil p group => exact fun _ _ _ _ _ h => absurd h not_throws_segments_nil
  | literal p group text pieces ih =>
    rw [segments_literal]
    exact ih.bind_pure
  | token p group name pieces ih =>
    intro s error s' t u h hretry
    obtain ⟨-, -, rfl⟩ | ⟨v, hv, hrest⟩ := throws_segments_token.1 h
    · exact blind_segments _ _ _ _ _ (hretry.registry_eq rfl)
    · have hkeeps := (breaks env table p group pieces hrest).keeps.trans hretry.again.keeps
      rw [outcome_segments_token (hretry.first.tokens _ _ hv),
        outcome_segments_token (hkeeps.tokens _ _ hv)]
      exact (ih hrest hretry).bind fun _ => blind_pure _
  | reference p group symbol reference pieces ihInside ih =>
    rw [segments_reference]
    split
    · exact (blind_throw _).retries fun _ _ _ h => by rw [(throws_throw.1 h).2]
    · have hfollow : Retries (follow env table p (referenceTarget group reference)) :=
        retries_follow fun e he hfree => retries_construct (ihInside e he hfree)
      refine hfollow.bind (persists_follow fun _ _ _ => persists_construct (persists_segments ..))
        (finds_follow ..) (fun _ => ih.bind_pure) (fun _ => (blind_segments ..).bind fun _ =>
          blind_pure _) ?_
      exact fun _ _ _ _ h => (breaks env table p group pieces (throws_bind_pure.1 h)).keeps

theorem outcome_createTemplate (hnone : s.registry.template? group name = none) :
    (createTemplate env table group name e).outcome s =
      (construct env table ⟨[templateKey group name]⟩ group name e).outcome s := by
  unfold createTemplate
  rw [outcome_get_bind, Registry.hasTemplate, hnone]
  rfl

theorem retries_createTemplate (env : Environment) (table : TemplateTable) (group name : String)
    (e : TemplateEntry) : Retries (createTemplate env table group name e) := by
  intro s error s' t u hthrows hretry
  have hgrows := grows_of_throws_createTemplate hthrows
  obtain ⟨hsome, -, rfl⟩ | ⟨hnone, hconstruct⟩ := throws_createTemplate.1 hthrows
  · have hexists : ∀ {t : Session}, s'.registry.Enriches t.registry →
        (createTemplate env table group name e).outcome t =
        (.error (.templateExists group name), t) := fun henriches =>
      throws_createTemplate.2 (.inl ⟨(henriches.template?_eq ..).symm ▸ hsome, rfl, rfl⟩)
    rw [hexists hretry.first, hexists hretry.again]
    exact ⟨rfl, hretry.registry_eq rfl⟩
  · have ht : t.registry.template? group name = none := (hretry.first.template?_eq ..).trans hnone
    have hu : u.registry.template? group name = none := by
      rw [hretry.again.template?_eq, hgrows.extends.held group name (by simp [Progress.isHeld]),
        hnone]
    rw [outcome_createTemplate ht, outcome_createTemplate hu]
    exact retries_construct (retries_segments ..) hconstruct hretry

end Build

/-! ## Registering what was missing -/

namespace Registry.Call

/-- A call that registers a token. -/
def IsToken : Call → Prop
  | .createToken .. | .insertToken .. => True
  | .createTemplate .. | .insertTemplate .. | .load .. => False

/-- A token can be registered whatever templates there are. -/
theorem exists_token {call : Call} (hcall : call.IsToken) (h : Returns call.build s () s') :
    ∃ v : Token, s.registry.token? v.name = none ∧ s'.registry = s.registry.addToken v ∧
      ∀ t : Session, t.registry.tokens = s.registry.tokens → t.registry.kinds = s.registry.kinds →
        ∃ t', Returns call.build t () t' ∧ t'.registry = t.registry.addToken v := by
  have hinsert : ∀ {v t}, s.registry.token? v.name = none → t.registry.tokens = s.registry.tokens →
      Returns (Build.insertToken v) t v
        ⟨t.registry.addToken v, .tokenRegistered v.name v.kind.tag v.regex :: t.events⟩ := by
    intro v t hnone htokens
    refine returns_insertToken.2 ⟨?_, rfl, rfl⟩
    rw [Registry.token?, htokens]
    exact hnone
  cases call with
  | createToken name o =>
    obtain ⟨v, s₁, hcreate, hpure⟩ := returns_bind.1 h
    obtain ⟨-, rfl⟩ := returns_pure.1 hpure
    obtain ⟨hfree, kind, hkind, w, hw, hinserted⟩ := returns_createToken.1 hcreate
    obtain ⟨hnone, rfl, rfl⟩ := returns_insertToken.1 hinserted
    refine ⟨v, hnone, rfl, fun t htokens hkinds =>
      ⟨_, returns_bind.2 ⟨v, _, returns_createToken.2 ⟨?_, kind, ?_, v, hw, hinsert hnone htokens⟩,
        returns_pure.2 ⟨rfl, rfl⟩⟩, rfl⟩⟩
    · rw [Registry.token?, htokens]
      exact hfree
    · rw [hkinds, hkind]
  | insertToken v constructed =>
    obtain ⟨w, s₁, hinserted, hpure⟩ := returns_bind.1 h
    obtain ⟨-, rfl⟩ := returns_pure.1 hpure
    obtain ⟨hnone, rfl, rfl⟩ := returns_insertToken.1 hinserted
    exact ⟨w, hnone, rfl, fun t htokens _ => ⟨_, returns_bind.2 ⟨w, _, hinsert hnone htokens,
      returns_pure.2 ⟨rfl, rfl⟩⟩, rfl⟩⟩
  | createTemplate => exact hcall.elim
  | insertTemplate => exact hcall.elim
  | load => exact hcall.elim

end Registry.Call

open Registry (Call)

/-- Tokens that can be registered can also be registered where there are other templates. -/
theorem exists_tokens {calls : List Call} (hcalls : ∀ call ∈ calls, call.IsToken)
    (h : Returns (forM calls Call.build) s () s') (htokens : t.registry.tokens = s.registry.tokens)
    (hkinds : t.registry.kinds = s.registry.kinds) :
    ∃ t', Returns (forM calls Call.build) t () t' ∧ t.registry.Enriches t'.registry ∧
      s.registry.Enriches s'.registry ∧ t'.registry.tokens = s'.registry.tokens := by
  induction calls generalizing s t with
  | nil =>
    obtain ⟨-, rfl⟩ := returns_pure.1 h
    exact ⟨t, returns_pure.2 ⟨rfl, rfl⟩, .refl, .refl, htokens⟩
  | cons call calls ih =>
    obtain ⟨x, s₁, hcall, hrest⟩ := returns_bind.1 h
    obtain ⟨v, hnone, hs₁, hagain⟩ := Call.exists_token (hcalls call (List.mem_cons_self ..)) hcall
    obtain ⟨t₁, ht₁, hregistry⟩ := hagain t htokens hkinds
    have hnew : t.registry.token? v.name = none := by rwa [Registry.token?, htokens]
    have htokens₁ : t₁.registry.tokens = s₁.registry.tokens := by
      simp only [hregistry, hs₁, Registry.addToken, htokens]
    have hkinds₁ : t₁.registry.kinds = s₁.registry.kinds := by
      simp only [hregistry, hs₁, Registry.addToken, hkinds]
    obtain ⟨t', ht', ht, hs, heq⟩ :=
      ih (fun call hmem => hcalls call (List.mem_cons_of_mem _ hmem)) hrest htokens₁ hkinds₁
    refine ⟨t', returns_bind.2 ⟨(), t₁, ht₁, ht'⟩, .trans ?_ ht, .trans ?_ hs, heq⟩
    · rw [hregistry]
      exact Registry.enriches_addToken hnew
    · rw [hs₁]
      exact Registry.enriches_addToken hnone

/-! ## Building again -/

/-- **To build a template again is safe.** If building it has failed, and further tokens are then
registered, building it again comes to the same result and the same registry as registering the
tokens first and building it once. -/
theorem createTemplate_again {error : BuildError} {calls : List Call}
    (h : (createTemplate env table group name e).outcome s = (.error error, s'))
    (htokens : ∀ call ∈ calls, call.IsToken)
    (hcalls : (forM calls Call.build : Build Unit).outcome s' = (.ok (), u)) :
    ∃ t, (forM calls Call.build : Build Unit).outcome s = (.ok (), t) ∧
      SameEnd ((createTemplate env table group name e).outcome u)
        ((createTemplate env table group name e).outcome t) := by
  have hgrows := grows_of_throws_createTemplate h
  obtain ⟨t, ht, hfirst, hagain, heq⟩ :=
    exists_tokens htokens hcalls hgrows.extends.tokens.symm hgrows.kinds.symm
  have hend := retries_createTemplate env table group name e h ⟨hfirst, hagain, heq⟩
  exact ⟨t, ht, hend.result.symm, hend.registry.symm⟩

/-- The template of one letter, to which others can refer. -/
def letterS : Template :=
  ⟨"part", .standard, [.literal "s"], ⟨.concat [.check .textStart, .char 's', .check .textEnd], []⟩,
    ⟨.concat [.check .textStart, .char 's'], []⟩⟩

def letterSTable : TemplateTable :=
  (Catalog.empty.withTemplate "template" "part" (.ofString "s")).templates

/-- To build a template that refers to this one and to a token. -/
def buildWhole : Build Template :=
  createTemplate noVariables letterSTable "template" "whole" (.ofString "{@part}{asset}")

/-- To register the token. -/
def registerAsset : List Call := [.createToken "asset" (TokenEntry.kind "str").toOptions]

/-- The template is built without its token, which leaves the other one behind, and is then built
again. -/
theorem createTemplate_again_asset :
    ∃ s u t, buildWhole.outcome .empty = (.error (.missingToken "asset"), s) ∧
      s.registry = Registry.empty.addTemplate "template" letterS ∧
    (forM registerAsset Call.build : Build Unit).outcome s = (.ok (), u) ∧
    (forM registerAsset Call.build : Build Unit).outcome .empty = (.ok (), t) ∧
    SameEnd (buildWhole.outcome u) (buildWhole.outcome t) := by
  have hpieces : piecesOf noVariables "{@part}{asset}" =
      [.placeholder ⟨some templateSymbol, "part"⟩, .placeholder ⟨none, "asset"⟩] := by
      decide +kernel
  have hpart : piecesOf noVariables "s" = [.literal "s"] := by decide +kernel
  have htarget : referenceTarget "template" "part" = ("template", "part") := rfl
  have hfree :
      (⟨[templateKey "template" "whole"]⟩ : Progress).isHeld (templateKey "template" "part") =
        false := by
    decide +kernel
  have hbuild : ∀ s, Returns (buildSegments noVariables letterSTable
      ⟨[templateKey "template" "whole", templateKey "template" "part"]⟩ "template"
      (piecesOf noVariables "s")) s letterS.segments s := by
    intro s
    rw [hpart]
    exact returns_segments_literal.2 ⟨[], rfl, returns_segments_nil.2 ⟨rfl, rfl⟩⟩
  obtain ⟨s, hfollow, hs⟩ :
    ∃ s, Returns (follow noVariables letterSTable ⟨[templateKey "template" "whole"]⟩
      ("template", "part")) ⟨.empty,
        [.templateStarted (templateKey "template" "whole") 1]⟩ letterS s ∧
      s.registry = Registry.empty.addTemplate "template" letterS :=
    ⟨_, returns_follow.2
      (.inr ⟨rfl, .ofString "s", rfl, hfree, returns_construct.2 ⟨letterS.segments, _, hbuild _,
        returns_finishTemplate.2 ⟨letterS, rfl, returns_insertTemplate.2 ⟨rfl, rfl, rfl⟩⟩⟩⟩), rfl⟩
  have hnone : s.registry.token? "asset" = none := by
    rw [hs]
    rfl
  have hkinds : s.registry.kinds = .builtIn := by
    rw [hs]
    rfl
  have hfails : Throws buildWhole .empty (.missingToken "asset") s := by
    refine throws_createTemplate.2 (.inr ⟨rfl, throws_construct.2 (.inl ?_)⟩)
    rw [TemplateEntry.ofString, hpieces]
    refine throws_segments_reference.2 (.inr ⟨rfl, .inr ⟨letterS, s, ?_, ?_⟩⟩)
    · rw [htarget]
      exact hfollow
    · exact throws_segments_token.2 (.inl ⟨hnone, rfl, rfl⟩)
  have hcreate : Returns (createToken "asset" (TokenEntry.kind "str").toOptions) s asset
      ⟨s.registry.addToken asset, .tokenRegistered "asset" asset.kind.tag asset.regex ::
        s.events⟩ := by
    refine returns_createToken.2 ⟨hnone, .text, ?_, asset, rfl,
      returns_insertToken.2 ⟨hnone, rfl, rfl⟩⟩
    rw [hkinds]
    rfl
  have hregisters : Returns (forM registerAsset Call.build) s ()
      ⟨s.registry.addToken asset, .tokenRegistered "asset" asset.kind.tag asset.regex ::
        s.events⟩ :=
    returns_bind.2 ⟨(), _, returns_bind.2 ⟨asset, _, hcreate, returns_pure.2 ⟨rfl, rfl⟩⟩,
      returns_pure.2 ⟨rfl, rfl⟩⟩
  obtain ⟨t, ht, hend⟩ :=
    createTemplate_again hfails (by simp [registerAsset, Call.IsToken]) hregisters
  exact ⟨s, _, t, hfails, hs, hregisters, ht, hend⟩

end Stencil
