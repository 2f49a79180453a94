import Stencil.Proofs.Registry.Building

/-!
# Steps that fail

With which error a step fails, and what it has left behind by then, in the order of the steps of
building. A step of a sequence fails either at its first part, or in what follows after that part
has succeeded (`throws_bind`), so each way to fail has a last registry, and what was registered
before stays in it.
-/

namespace Stencil.Build

variable {α β : Type} {s s' : Session} {error : BuildError}

/-- From a session a step fails with an error, and leaves another session behind. -/
def Throws (b : Build α) (s : Session) (error : BuildError) (s' : Session) : Prop :=
  b.outcome s = (.error error, s')

/-! ## Parts of steps -/

theorem not_throws_pure {a : α} : ¬ Throws (pure a) s error s' := nofun

theorem throws_throw {error' : BuildError} :
    Throws (throw error' : Build α) s error s' ↔ error = error' ∧ s' = s := by
  constructor
  · intro h
    cases h
    exact ⟨rfl, rfl⟩
  · rintro ⟨rfl, rfl⟩
    rfl

theorem throws_bind {b : Build α} {f : α → Build β} :
    Throws (b >>= f) s error s' ↔ Throws b s error s' ∨ ∃ a t, Returns b s a t ∧
    Throws (f a) t error s' := by
  unfold Throws Returns
  rw [outcome_bind]
  rcases b.outcome s with ⟨r, t⟩
  cases r with
  | error e => simp
  | ok a =>
    constructor
    · intro h
      exact .inr ⟨a, t, rfl, h⟩
    · rintro (heq | ⟨a', t', heq, h⟩)
      · cases heq
      · cases heq
        exact h

theorem throws_bind_pure {b : Build α} {g : α → β} :
    Throws (b >>= fun a => pure (g a)) s error s' ↔ Throws b s error s' := by
  rw [throws_bind]
  simp [not_throws_pure]

theorem throws_get_bind {f : Session → Build α} :
    Throws (get >>= f) s error s' ↔ Throws (f s) s error s' := Iff.rfl

theorem not_throws_modify {f : Session → Session} : ¬ Throws (modify f) s error s' := nofun

theorem throws_liftM {x : Except BuildError α} :
    Throws (liftM x) s error s' ↔ x = .error error ∧ s' = s := by
  constructor
  · intro h
    cases x with
    | error e =>
      cases h
      exact ⟨rfl, rfl⟩
    | ok a => cases h
  · rintro ⟨rfl, rfl⟩
    rfl

theorem throws_liftM_bind {x : Except BuildError α} {f : α → Build β} :
    Throws (liftM x >>= f) s error s' ↔
      x = .error error ∧ s' = s ∨ ∃ a, x = .ok a ∧ Throws (f a) s error s' := by
  rw [throws_bind, throws_liftM]
  simp only [returns_liftM]
  constructor
  · rintro (h | ⟨a, t, ⟨hx, rfl⟩, h⟩)
    · exact .inl h
    · exact .inr ⟨a, hx, h⟩
  · rintro (h | ⟨a, hx, h⟩)
    · exact .inl h
    · exact .inr ⟨a, s, ⟨hx, rfl⟩, h⟩

theorem throws_guard {c : Prop} [Decidable c] {error' : BuildError} {f : Unit → Build α} :
    Throws (if c then throw error' >>= f else f ()) s error s' ↔
      c ∧ error = error' ∧ s' = s ∨ ¬ c ∧ Throws (f ()) s error s' := by
  split
  · next h => simp [throws_throw, h]
  · next h => simp [h]

theorem throws_note_bind {e : Event} {f : Unit → Build α} :
    Throws (note e >>= f) s error s' ↔ Throws (f ()) { s with events := e :: s.events } error s' :=
  Iff.rfl

/-- A loop fails in one of its rounds, up to which every round has taken an invariant along. -/
theorem exists_round_of_throws {f : α → Build Unit} {I : Session → Prop} {xs : List α}
    (h : Throws (forM xs f) s error s') (hstart : I s)
    (hround : ∀ x t t', I t → Returns (f x) t () t' → I t') :
    ∃ x ∈ xs, ∃ t, I t ∧ Throws (f x) t error s' := by
  induction xs generalizing s with
  | nil => exact absurd h not_throws_pure
  | cons x xs ih =>
    rw [List.forM_cons, throws_bind] at h
    obtain hx | ⟨u, t, hx, hrest⟩ := h
    · exact ⟨x, List.mem_cons_self .., s, hstart, hx⟩
    · obtain ⟨y, hy, hthrows⟩ := ih hrest (hround x s t hstart hx)
      exact ⟨y, List.mem_cons_of_mem _ hy, hthrows⟩

/-! ## Registering -/

theorem throws_insertToken {t : Token} :
    Throws (insertToken t) s error s' ↔
      (s.registry.token? t.name).isSome = true ∧ error = .tokenExists t.name ∧ s' = s := by
  unfold insertToken
  rw [throws_get_bind, throws_guard, throws_note_bind, throws_bind]
  simp [not_throws_modify, not_throws_pure, Registry.hasToken]

/-- A token that cannot be built or registered leaves everything as it was. -/
theorem eq_of_throws_createToken {name : String} {o : TokenOptions}
    (h : Throws (createToken name o) s error s') : s' = s := by
  unfold createToken at h
  rw [throws_get_bind, throws_guard, throws_get_bind, throws_liftM_bind] at h
  simp only [throws_liftM_bind, throws_insertToken] at h
  obtain ⟨-, -, h⟩ | ⟨-, ⟨-, h⟩ | ⟨kind, -, ⟨-, h⟩ | ⟨t, -, -, -, h⟩⟩⟩ := h <;> exact h

theorem throws_insertTemplate {group : String} {t : Template} :
    Throws (insertTemplate group t) s error s' ↔
      (s.registry.template? group t.name).isSome = true ∧
      error = .templateExists group t.name ∧ s' = s := by
  unfold insertTemplate
  rw [throws_get_bind, throws_guard, throws_note_bind, throws_bind]
  simp [not_throws_modify, not_throws_pure, Registry.hasTemplate]

/-! ## Pieces of a definition -/

section Pieces

variable {env : Definition.Environment} {table : TemplateTable} {p : Progress} {group : String}
  {pieces : List Definition.Piece} {segments : List Segment}

theorem not_throws_segments_nil : ¬ Throws (buildSegments env table p group []) s error s' := by
  rw [segments_nil]
  exact not_throws_pure

theorem throws_segments_literal {text : String} :
    Throws (buildSegments env table p group (.literal text :: pieces)) s error s' ↔
      Throws (buildSegments env table p group pieces) s error s' := by
  rw [segments_literal, throws_bind_pure]

theorem throws_segments_token {name : String} :
    Throws (buildSegments env table p group (.placeholder ⟨none, name⟩ :: pieces)) s error s' ↔
      s.registry.token? name = none ∧ error = .missingToken name ∧ s' = s ∨
        ∃ u, s.registry.token? name = some u ∧
          Throws (buildSegments env table p group pieces) s error s' := by
  rw [segments_token, throws_get_bind, throws_liftM_bind]
  simp only [throws_bind_pure]
  unfold Registry.token
  cases s.registry.token? name <;> simp [eq_comm]

theorem throws_segments_reference {symbol : Char} {reference : String} :
    Throws (buildSegments env table p group (.placeholder ⟨some symbol, reference⟩ :: pieces)) s
      error s' ↔ symbol ≠ Definition.templateSymbol ∧ error = .unknownSymbol symbol ∧ s' = s ∨
        symbol = Definition.templateSymbol ∧
          (Throws (follow env table p (referenceTarget group reference)) s error s' ∨
            ∃ u t, Returns (follow env table p (referenceTarget group reference)) s u t ∧
              Throws (buildSegments env table p group pieces) t error s') := by
  rw [segments_reference]
  split
  · next h => simp [throws_throw, h]
  · next h =>
    rw [not_not] at h
    simp only [throws_bind, not_throws_pure, and_false, exists_false, or_false, h, ne_eq, not_true,
      false_and, true_and, false_or]

/-- A reference that leads to nothing registered fails if the table has no definition or its key is
held, and otherwise where the template cannot be built. -/
theorem throws_follow {target : String × String} :
    Throws (follow env table p target) s error s' ↔
      s.registry.template? target.1 target.2 = none ∧
        (table.find? target.1 target.2 = none ∧ error = .missingTemplate target.1 target.2 ∧
            s' = s ∨
          ∃ e, table.find? target.1 target.2 = some e ∧
            (p.isHeld (templateKey target.1 target.2) = true ∧
                error = .circularReference (p.keys ++ [templateKey target.1 target.2]) ∧ s' = s ∨
              p.isHeld (templateKey target.1 target.2) = false ∧
                Throws (construct env table ⟨p.keys ++ [templateKey target.1 target.2]⟩
                  target.1 target.2 e) s error s')) := by
  unfold follow
  rw [throws_get_bind]
  cases s.registry.template? target.1 target.2 with
  | some v => simp [not_throws_pure]
  | none =>
    cases table.find? target.1 target.2 with
    | none => simp [throws_throw]
    | some e =>
      by_cases hheld : p.isHeld (templateKey target.1 target.2)
      · simp [Progress.start, hheld, throws_throw]
      · simp [Progress.start, hheld]

theorem throws_finishTemplate {name : String} {kind : Option TemplateKind} :
    Throws (finishTemplate group name kind segments) s error s' ↔
      Template.create name (kind.getD (.ofGroup group)) segments = .error error ∧
          s' = ⟨s.registry, .templateComposed name (Segment.regexAll segments) :: s.events⟩ ∨
        ∃ t, Template.create name (kind.getD (.ofGroup group)) segments = .ok t ∧
          Throws (insertTemplate group t)
            ⟨s.registry, .templateComposed name (Segment.regexAll segments) :: s.events⟩
            error s' := by
  unfold finishTemplate
  rw [throws_note_bind, throws_liftM_bind]

/-- A template that is built from its segments but cannot be registered leaves the registry as it
was. -/
theorem registry_of_throws_finishTemplate {name : String} {kind : Option TemplateKind}
    (h : Throws (finishTemplate group name kind segments) s error s') :
    s'.registry = s.registry := by
  obtain ⟨-, rfl⟩ | ⟨t, -, hinsert⟩ := throws_finishTemplate.1 h
  · rfl
  · obtain ⟨-, -, rfl⟩ := throws_insertTemplate.1 hinsert
    rfl

theorem throws_construct {name : String} {e : TemplateEntry} :
    Throws (construct env table p group name e) s error s' ↔
      Throws (buildSegments env table p group (piecesOf env e.definition))
          ⟨s.registry, .templateStarted (templateKey group name) p.depth :: s.events⟩ error s' ∨
        ∃ segments t, Returns (buildSegments env table p group (piecesOf env e.definition))
            ⟨s.registry, .templateStarted (templateKey group name) p.depth :: s.events⟩ segments t ∧
          Throws (finishTemplate group name e.kind segments) t error s' := by
  unfold construct
  rw [throws_note_bind, throws_bind]

theorem throws_createTemplate {name : String} {e : TemplateEntry} :
    Throws (createTemplate env table group name e) s error s' ↔
      (s.registry.template? group name).isSome = true ∧ error =
        .templateExists group name ∧ s' = s ∨ s.registry.template? group name = none ∧
          Throws (construct env table ⟨[templateKey group name]⟩ group name e) s error s' := by
  unfold createTemplate
  rw [throws_get_bind, throws_guard]
  simp only [Registry.hasTemplate, Bool.not_eq_true, Option.isSome_eq_false_iff,
    Option.isNone_iff_eq_none]
  exact Iff.rfl

end Pieces

end Stencil.Build
