import Stencil.Registry.Definition
import Mathlib.Logic.Basic

/-!
# The steps of building

What it takes for a step to succeed, and what it then leaves behind: first for the parts that all
steps are made of, then for the steps that register tokens and templates, and for the pieces of a
definition. A loop succeeds if every round takes it from an invariant to the invariant of the next
round (`returns_forEach`), and then the invariant has come about (`Returns.forEach`).
-/

namespace Stencil.Build

variable {α β : Type} {s s' : Session}

/-- From a session a step succeeds with a value, and leaves another session behind. -/
def Returns (b : Build α) (s : Session) (a : α) (s' : Session) : Prop := b.outcome s = (.ok a, s')

/-! ## Parts of steps -/

theorem returns_pure {a b : α} : Returns (pure a) s b s' ↔ b = a ∧ s' = s := by
  constructor
  · rintro h
    cases h
    exact ⟨rfl, rfl⟩
  · rintro ⟨rfl, rfl⟩
    rfl

theorem not_returns_throw {e : BuildError} {a : α} : ¬ Returns (throw e) s a s' := nofun

theorem outcome_bind (b : Build α) (f : α → Build β) (s : Session) :
    (b >>= f).outcome s = match b.outcome s with
      | (.ok a, t) => (f a).outcome t
      | (.error e, t) => (.error e, t) := by
  simp only [outcome, ExceptT.run_bind, StateT.run_bind]
  rcases h : StateT.run (ExceptT.run b) s with ⟨r, t⟩
  cases r <;> rfl

theorem outcome_get_bind {f : Session → Build α} : (get >>= f).outcome s = (f s).outcome s := rfl

theorem returns_bind {b : Build α} {f : α → Build β} {x : β} :
    Returns (b >>= f) s x s' ↔ ∃ a t, Returns b s a t ∧ Returns (f a) t x s' := by
  unfold Returns
  rw [outcome_bind]
  rcases b.outcome s with ⟨r, t⟩
  cases r with
  | error e => simp
  | ok a =>
    constructor
    · intro h
      exact ⟨a, t, rfl, h⟩
    · rintro ⟨a', t', heq, h⟩
      cases heq
      exact h

theorem returns_get {t : Session} : Returns get s t s' ↔ t = s ∧ s' = s := by
  constructor
  · rintro h
    cases h
    exact ⟨rfl, rfl⟩
  · rintro ⟨rfl, rfl⟩
    rfl

theorem returns_modify {f : Session → Session} {u : Unit} :
    Returns (modify f) s u s' ↔ s' = f s := by
  constructor
  · rintro h
    cases h
    rfl
  · rintro rfl
    rfl

theorem returns_liftM {x : Except BuildError α} {a : α} :
    Returns (liftM x) s a s' ↔ x = .ok a ∧ s' = s := by
  constructor
  · intro h
    cases x with
    | error e => cases h
    | ok b =>
      cases h
      exact ⟨rfl, rfl⟩
  · rintro ⟨rfl, rfl⟩
    rfl

theorem returns_get_bind {f : Session → Build α} {a : α} :
    Returns (get >>= f) s a s' ↔ Returns (f s) s a s' := by
  rw [returns_bind]
  constructor
  · rintro ⟨t, t', hget, h⟩
    obtain ⟨rfl, rfl⟩ := returns_get.1 hget
    exact h
  · intro h
    exact ⟨s, s, returns_get.2 ⟨rfl, rfl⟩, h⟩

theorem returns_liftM_bind {x : Except BuildError α} {f : α → Build β} {b : β} :
    Returns (liftM x >>= f) s b s' ↔ ∃ a, x = .ok a ∧ Returns (f a) s b s' := by
  rw [returns_bind]
  constructor
  · rintro ⟨a, t, hx, h⟩
    obtain ⟨heq, rfl⟩ := returns_liftM.1 hx
    exact ⟨a, heq, h⟩
  · rintro ⟨a, hx, h⟩
    exact ⟨a, s, returns_liftM.2 ⟨hx, rfl⟩, h⟩

theorem returns_guard {c : Prop} [Decidable c] {e : BuildError} {f : Unit → Build α} {a : α} :
    Returns (if c then throw e >>= f else f ()) s a s' ↔ ¬ c ∧ Returns (f ()) s a s' := by
  split
  · next h => simp [not_returns_throw, h]
  · next h => simp [h]

theorem returns_note_bind {e : Event} {f : Unit → Build α} {a : α} :
    Returns (note e >>= f) s a s' ↔ Returns (f ()) { s with events := e :: s.events } a s' := by
  rw [returns_bind]
  constructor
  · rintro ⟨u, t, hnote, h⟩
    obtain rfl := returns_modify.1 hnote
    exact h
  · intro h
    exact ⟨(), _, returns_modify.2 rfl, h⟩

/-! ## Loops -/

section Loops

variable {f : α → Build Unit} {I : List α → Session → Prop} {xs : List α}

theorem forIn_eq_forM {g : α → Unit → Build (ForInStep Unit)}
    (hg : ∀ x, g x () = f x >>= fun _ => pure (.yield ())) : forIn xs () g = forM xs f := by
  induction xs with
  | nil => rfl
  | cons x xs ih =>
    rw [List.forIn_cons, List.forM_cons, hg, bind_assoc]
    simp only [pure_bind, ih]

/-- A loop succeeds if every round does so and takes an invariant on to the next round. -/
theorem exists_forM (hstart : I [] s) (hround : ∀ done x rest s, xs = done ++ x :: rest → I done s →
      ∃ s', Returns (f x) s () s' ∧ I (done ++ [x]) s') :
    ∃ s', Returns (forM xs f) s () s' ∧ I xs s' := by
  have hrun : ∀ rest done s, xs = done ++ rest → I done s →
      ∃ s', Returns (forM rest f) s () s' ∧ I xs s' := by
    intro rest
    induction rest with
    | nil =>
      intro done s hxs hI
      rw [List.append_nil] at hxs
      exact ⟨s, returns_pure.2 ⟨rfl, rfl⟩, hxs ▸ hI⟩
    | cons x rest ih =>
      intro done s hxs hI
      obtain ⟨t, hx, hI⟩ := hround done x rest s hxs hI
      obtain ⟨s', hrest, hI⟩ := ih (done ++ [x]) t (by simpa using hxs) hI
      exact ⟨s', returns_bind.2 ⟨(), t, hx, hrest⟩, hI⟩
  exact hrun xs [] s rfl hstart

/-- A loop that has succeeded has taken along what every round takes along. -/
theorem invariant_of_forM (h : Returns (forM xs f) s () s') (hstart : I [] s)
    (hround : ∀ done x rest s s', xs = done ++ x :: rest → I done s → Returns (f x) s () s' →
      I (done ++ [x]) s') : I xs s' := by
  have hrun : ∀ rest done s, xs = done ++ rest → I done s →
      Returns (forM rest f) s () s' → I xs s' := by
    intro rest
    induction rest with
    | nil =>
      intro done s hxs hI hreturns
      obtain ⟨-, rfl⟩ := returns_pure.1 hreturns
      rw [List.append_nil] at hxs
      exact hxs ▸ hI
    | cons x rest ih =>
      intro done s hxs hI hreturns
      obtain ⟨u, t, hx, hrest⟩ := returns_bind.1 hreturns
      exact ih (done ++ [x]) t (by simpa using hxs) (hround done x rest s t hxs hI hx) hrest
  exact hrun xs [] s rfl hstart h

end Loops

/-! ## Registering -/

theorem returns_insertToken {t u : Token} :
    Returns (insertToken t) s u s' ↔ s.registry.token? t.name = none ∧ u = t ∧
      s' = ⟨s.registry.addToken t, .tokenRegistered t.name t.kind.tag t.regex :: s.events⟩ := by
  unfold insertToken
  rw [returns_get_bind, returns_guard, returns_note_bind, returns_bind]
  simp [returns_modify, returns_pure, Registry.hasToken]

theorem returns_createToken {name : String} {o : TokenOptions} {u : Token} :
    Returns (createToken name o) s u s' ↔ s.registry.token? name = none ∧
      ∃ kind, s.registry.kinds.get o.kind = .ok kind ∧ ∃ t, Token.ofOptions name kind o = .ok t ∧
        Returns (insertToken t) s u s' := by
  unfold createToken
  rw [returns_get_bind, returns_guard, returns_get_bind, returns_liftM_bind]
  simp only [returns_liftM_bind, Registry.hasToken, Bool.not_eq_true, Option.isSome_eq_false_iff,
    Option.isNone_iff_eq_none]

theorem returns_insertTemplate {group : String} {t u : Template} :
    Returns (insertTemplate group t) s u s' ↔ s.registry.template? group t.name = none ∧ u = t ∧
      s' = ⟨s.registry.addTemplate group t, .templateRegistered group t.display :: s.events⟩ := by
  unfold insertTemplate
  rw [returns_get_bind, returns_guard, returns_note_bind, returns_bind]
  simp [returns_modify, returns_pure, Registry.hasTemplate]

/-! ## Pieces of a definition -/

section Pieces

variable {env : Definition.Environment} {table : TemplateTable} {p : Progress} {group : String}
  {pieces : List Definition.Piece} {segments : List Segment}

/-- Builds the template of an entry whose key has been taken up. -/
def construct (env : Definition.Environment) (table : TemplateTable) (p : Progress)
    (group name : String) (e : TemplateEntry) : Build Template := do
  note (.templateStarted (templateKey group name) p.depth)
  let segments ← buildSegments env table p group (piecesOf env e.definition)
  finishTemplate group name e.kind segments

/-- The template that a reference leads to, which is built if it is not registered. -/
def follow (env : Definition.Environment) (table : TemplateTable) (p : Progress)
    (target : String × String) : Build Template := do
  match (← get).registry.template? target.1 target.2 with
  | some t => pure t
  | none =>
    match table.find? target.1 target.2 with
    | none => throw (.missingTemplate target.1 target.2)
    | some e =>
      match p.start (templateKey target.1 target.2) with
      | .error chain => throw (.circularReference chain)
      | .ok p' => construct env table p' target.1 target.2 e

/-- An induction along building from pieces: over the pieces, and for a reference into each
definition that it can lead to while its key is free. -/
theorem pieces_induction (env : Definition.Environment) (table : TemplateTable)
    {motive : Progress → String → List Definition.Piece → Prop} (nil : ∀ p group, motive p group [])
    (literal : ∀ p group text pieces, motive p group pieces →
      motive p group (.literal text :: pieces))
    (token : ∀ p group name pieces, motive p group pieces →
      motive p group (.placeholder ⟨none, name⟩ :: pieces))
    (reference : ∀ p group symbol reference pieces,
      (∀ e, table.find? (referenceTarget group reference).1 (referenceTarget group reference).2 =
          some e →
        p.isHeld (templateKey (referenceTarget group reference).1
          (referenceTarget group reference).2) = false →
        motive
          ⟨p.keys ++
            [templateKey (referenceTarget group reference).1 (referenceTarget group reference).2]⟩
          (referenceTarget group reference).1 (piecesOf env e.definition)) →
      motive p group pieces → motive p group (.placeholder ⟨some symbol, reference⟩ :: pieces))
    (p : Progress) (group : String) (pieces : List Definition.Piece) : motive p group pieces := by
  induction hn : table.openCount p using Nat.strongRecOn generalizing p group pieces with
  | ind n ih =>
  induction pieces with
  | nil => exact nil p group
  | cons piece pieces ihPieces =>
    match piece with
    | .literal text => exact literal p group text pieces ihPieces
    | .placeholder ⟨none, name⟩ => exact token p group name pieces ihPieces
    | .placeholder ⟨some symbol, target⟩ =>
      refine reference p group symbol target pieces (fun e he hfree => ?_) ihPieces
      have hopen := TemplateTable.openCount_lt (p := p) he (by rw [Progress.start, hfree]; rfl)
      exact ih _ (hn ▸ hopen) _ _ _ rfl

theorem segments_nil : buildSegments env table p group [] = pure [] := by
  rw [buildSegments]

theorem segments_literal {text : String} :
    buildSegments env table p group (.literal text :: pieces) =
      (do let rest ← buildSegments env table p group pieces
          return .literal text :: rest) := by
  rw [buildSegments]

theorem segments_token {name : String} :
    buildSegments env table p group (.placeholder ⟨none, name⟩ :: pieces) =
      (do let token ← (← get).registry.token name
          let rest ← buildSegments env table p group pieces
          return .token token :: rest) := by
  rw [buildSegments]

theorem returns_segments_nil :
    Returns (buildSegments env table p group []) s segments s' ↔ segments = [] ∧ s' = s := by
  rw [segments_nil]
  exact returns_pure

theorem returns_segments_literal {text : String} :
    Returns (buildSegments env table p group (.literal text :: pieces)) s segments s' ↔
      ∃ rest, segments = .literal text :: rest ∧
        Returns (buildSegments env table p group pieces) s rest s' := by
  rw [segments_literal, returns_bind]
  simp only [returns_pure]
  constructor
  · rintro ⟨rest, t, h, heq, rfl⟩
    exact ⟨rest, heq, h⟩
  · rintro ⟨rest, heq, h⟩
    exact ⟨rest, s', h, heq, rfl⟩

theorem returns_segments_token {name : String} :
    Returns (buildSegments env table p group (.placeholder ⟨none, name⟩ :: pieces)) s segments s' ↔
      ∃ u rest, s.registry.token? name = some u ∧ segments = .token u :: rest ∧
        Returns (buildSegments env table p group pieces) s rest s' := by
  have hread : ∀ u, s.registry.token name = .ok u ↔ s.registry.token? name = some u := fun u => by
    unfold Registry.token
    cases s.registry.token? name <;> simp
  rw [segments_token, returns_get_bind, returns_liftM_bind]
  simp only [hread, returns_bind, returns_pure]
  constructor
  · rintro ⟨u, hu, rest, t, h, heq, rfl⟩
    exact ⟨u, rest, hu, heq, h⟩
  · rintro ⟨u, rest, hu, heq, h⟩
    exact ⟨u, hu, rest, s', h, heq, rfl⟩

theorem segments_reference {symbol : Char} {reference : String} :
    buildSegments env table p group (.placeholder ⟨some symbol, reference⟩ :: pieces) =
      (if symbol ≠ Definition.templateSymbol then throw (.unknownSymbol symbol) else do
        let template ← follow env table p (referenceTarget group reference)
        let rest ← buildSegments env table p group pieces
        return template.toSegment :: rest) := by
  rw [buildSegments]
  split
  · rfl
  · unfold follow
    simp only [bind_assoc]
    refine bind_congr fun t => ?_
    generalize referenceTarget group reference = target
    cases t.registry.template? target.1 target.2 with
    | some u => rfl
    | none =>
      simp only
      split
      · next hnone =>
        rw [hnone]
      · next e he =>
        rw [he]
        simp only
        split
        · next hstart =>
          rw [hstart]
        · next hstart =>
          rw [hstart]
          simp only [construct, bind_assoc]

theorem returns_segments_reference {symbol : Char} {reference : String} :
    Returns (buildSegments env table p group (.placeholder ⟨some symbol, reference⟩ :: pieces)) s
        segments s' ↔
      symbol = Definition.templateSymbol ∧ ∃ u t rest,
        Returns (follow env table p (referenceTarget group reference)) s u t ∧
          segments = u.toSegment :: rest ∧
          Returns (buildSegments env table p group pieces) t rest s' := by
  rw [segments_reference]
  split
  · next h => simp [not_returns_throw, h]
  · next h =>
    simp only [returns_bind, returns_pure, not_not.1 h, true_and]
    constructor
    · rintro ⟨u, t, hfollow, rest, t', hrest, heq, rfl⟩
      exact ⟨u, t, rest, hfollow, heq, hrest⟩
    · rintro ⟨u, t, rest, hfollow, heq, hrest⟩
      exact ⟨u, t, hfollow, rest, s', hrest, heq, rfl⟩

/-- A reference finds a registered template, or has an entry whose key is free built. -/
theorem returns_follow {target : String × String} {u : Template} :
    Returns (follow env table p target) s u s' ↔
      s.registry.template? target.1 target.2 = some u ∧ s' = s ∨
      s.registry.template? target.1 target.2 = none ∧
        ∃ e, table.find? target.1 target.2 = some e ∧
          p.isHeld (templateKey target.1 target.2) = false ∧
          Returns (construct env table ⟨p.keys ++ [templateKey target.1 target.2]⟩
            target.1 target.2 e) s u s' := by
  unfold follow
  rw [returns_get_bind]
  cases s.registry.template? target.1 target.2 with
  | some v => simp [returns_pure, eq_comm (a := u)]
  | none =>
    cases table.find? target.1 target.2 with
    | none => simp [not_returns_throw]
    | some e =>
      by_cases hheld : p.isHeld (templateKey target.1 target.2)
      · simp [Progress.start, hheld, not_returns_throw]
      · simp [Progress.start, hheld]

theorem returns_finishTemplate {name : String} {kind : Option TemplateKind} {u : Template} :
    Returns (finishTemplate group name kind segments) s u s' ↔
      ∃ t, Template.create name (kind.getD (.ofGroup group)) segments = .ok t ∧
        Returns (insertTemplate group t)
          ⟨s.registry, .templateComposed name (Segment.regexAll segments) :: s.events⟩ u s' := by
  unfold finishTemplate
  rw [returns_note_bind, returns_liftM_bind]

theorem returns_construct {name : String} {e : TemplateEntry} {u : Template} :
    Returns (construct env table p group name e) s u s' ↔ ∃ segments t,
      Returns (buildSegments env table p group (piecesOf env e.definition))
          ⟨s.registry, .templateStarted (templateKey group name) p.depth :: s.events⟩ segments t ∧
        Returns (finishTemplate group name e.kind segments) t u s' := by
  unfold construct
  rw [returns_note_bind, returns_bind]

theorem returns_createTemplate {name : String} {e : TemplateEntry} {u : Template} :
    Returns (createTemplate env table group name e) s u s' ↔
      s.registry.template? group name = none ∧
        Returns (construct env table ⟨[templateKey group name]⟩ group name e) s u s' := by
  unfold createTemplate
  rw [returns_get_bind, returns_guard]
  simp only [Registry.hasTemplate, Bool.not_eq_true, Option.isSome_eq_false_iff,
    Option.isNone_iff_eq_none]
  exact Iff.rfl

end Pieces

end Stencil.Build
