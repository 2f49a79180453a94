import Stencil.Proofs.Registry.Loading

/-!
# How deep constructions are nested

A reference leads from the construction of one template into that of another. The templates under
construction can be kept on one stack for a whole call: a construction puts its key on it when it
starts, and is refused there if the key is on it; when it is done it takes out the last occurrence
of the key, wherever that is. `Build.buildOn` does this, with room for only so many constructions
inside one another: it recurses on the room, and comes to nothing where more is needed. Whatever it
builds in between, it leaves the stack as it has found it (`buildOn_moves`), so the stack is never
anything but the keys of the constructions that are inside one another at that time, which are those
that `createTemplate` hands down.

Room for two constructions more than the table has definitions is enough for every definition and
every table, whatever refers to whatever (`createTemplate_nesting`): that of the template that is
asked for, one for each key of the table, each of which leaves fewer keys free
(`TemplateTable.openCount_lt`), and the one that is refused. One less is not enough
(`nesting_selfTable`).
-/

namespace Stencil

open Definition Build

variable {α β : Type} {env : Environment} {table : TemplateTable} {p p' p'' : Progress}
  {group name : String} {e : TemplateEntry} {pieces : List Piece}
  {target : String × String} {room : Nat}

/-- How many definitions a table has. -/
def TemplateTable.size (t : TemplateTable) : Nat := (t.entries.flatMap fun g => g.2.entries).length

theorem TemplateTable.openCount_le_size (t : TemplateTable) (p : Progress) :
    t.openCount p ≤ t.size := by
  have hlength : t.keys.length = t.size := by simp [keys, size, List.length_flatMap]
  exact hlength ▸ List.countP_le_length

/-! ## Building with limited room -/

/-- A step that may come to nothing, because constructions would be nested too deep. -/
abbrev Limited (α : Type) := ExceptT BuildError (StateT Session Option) α

namespace Limited

/-- What a step comes to in a session, if it comes to anything. -/
def outcome (b : Limited α) (s : Session) : Option (Except BuildError α × Session) :=
  (ExceptT.run b).run s

/-- A step that needs no room. -/
def ofBuild (b : Build α) : Limited α := ExceptT.mk fun s => some (b.outcome s)

/-- No room is left. -/
def tooDeep : Limited α := ExceptT.mk fun _ => none

theorem outcome_ofBuild (b : Build α) (s : Session) : (ofBuild b).outcome s = some (b.outcome s) :=
  rfl

theorem ofBuild_bind (b : Build α) (f : α → Build β) :
    ofBuild (b >>= f) = ofBuild b >>= fun a => ofBuild (f a) := by
  refine funext fun s => ?_
  change some ((b >>= f).outcome s) = (some (b.outcome s)).bind fun r =>
    ExceptT.bindCont (fun a => ofBuild (f a)) r.1 r.2
  rw [outcome_bind]
  rcases b.outcome s with ⟨r, t⟩
  cases r with
  | ok a => rfl
  | error error => rfl

theorem ofBuild_map (f : α → β) (b : Build α) :
    ofBuild (b >>= fun a => pure (f a)) = f <$> ofBuild b := by
  rw [ofBuild_bind, map_eq_pure_bind]
  rfl

theorem ofBuild_get_bind (f : Session → Build α) :
    ofBuild (get >>= f) = get >>= fun s => ofBuild (f s) := rfl

theorem ofBuild_forM {f : α → Build Unit} (xs : List α) :
    ofBuild (forM xs f) = forM xs fun x => ofBuild (f x) := by
  induction xs with
  | nil => rfl
  | cons x xs ih => rw [List.forM_cons, List.forM_cons, ofBuild_bind, ih]

end Limited

/-! ## Steps with a stack -/

/-- To let go of a key that has just been taken up leaves what was held before. -/
theorem Progress.finish_of_start {key : String} (h : p.start key = .ok p') : p'.finish key = p := by
  obtain ⟨-, rfl⟩ := Progress.start_ok h
  simp [Progress.finish]

/-- A step of building with room for so many constructions, on a stack of keys. -/
abbrev Stacked (α : Type) := StateT Progress Limited α

namespace Stacked

/-- A step that does not look at the stack. -/
def ofBuild (b : Build α) : Stacked α := StateT.lift (Limited.ofBuild b)

/-- Takes up a key; the error is the chain of keys that leads back to it. -/
def takeUp (key : String) : Stacked Unit := fun p =>
  match p.start key with
  | .error chain => throw (.circularReference chain)
  | .ok p' => pure ((), p')

/-- Takes the last occurrence of a key out of the stack. -/
def letGo (key : String) : Stacked Unit := modify fun p => p.finish key

/-- On one stack a step does what a step of building does, and it leaves another stack behind. -/
def Moves (p : Progress) (b : Stacked α) (c : Build α) (p' : Progress) : Prop :=
  b.run p = (fun a => (a, p')) <$> Limited.ofBuild c

theorem moves_pure (a : α) : Moves p (pure a) (pure a) p := rfl

theorem moves_ofBuild (c : Build α) : Moves p (ofBuild c) c p := rfl

theorem Moves.bind {b : Stacked α} {c : Build α} {f : α → Stacked β}
    {g : α → Build β} (h : Moves p b c p') (hf : ∀ a, Moves p' (f a) (g a) p'') :
    Moves p (b >>= f) (c >>= g) p'' := by
  unfold Moves at h ⊢
  rw [StateT.run_bind, h, Limited.ofBuild_bind, bind_map_left, map_bind]
  exact bind_congr fun a => hf a

theorem moves_throw_bind {error : BuildError} {f : β → Stacked α} :
    Moves p (ofBuild (throw error) >>= f) (throw error) p' := rfl

theorem moves_stack_bind {f : Progress → Stacked α} {c : Build α} (h : Moves p (f p) c p') :
    Moves p (get >>= f) c p' := h

section Keys

variable {key : String} {f : Unit → Stacked α} {c : Build α}

theorem run_takeUp : (takeUp key).run p = match p.start key with
    | .error chain => throw (.circularReference chain)
    | .ok p' => pure ((), p') := rfl

theorem moves_takeUp_bind (h : p.start key = .ok p') (hf : Moves p' (f ()) c p'') :
    Moves p (takeUp key >>= f) c p'' := by
  rw [Moves, StateT.run_bind, run_takeUp, h]
  exact hf

theorem moves_takeUp_held {chain : List String} (h : p.start key = .error chain) :
    Moves p (takeUp key >>= f) (throw (.circularReference chain)) p' := by
  rw [Moves, StateT.run_bind, run_takeUp, h]
  rfl

/-- A key that has just been taken up is let go. -/
theorem moves_letGo_bind (h : p.start key = .ok p') (hf : Moves p (f ()) c p'') :
    Moves p' (letGo key >>= f) c p'' := by
  have hrun : (letGo key).run p' = pure ((), p'.finish key) := rfl
  rw [Moves, StateT.run_bind, hrun, Progress.finish_of_start h]
  exact hf

end Keys

theorem moves_get_bind {f : Session → Stacked α} {g : Session → Build α}
    (h : ∀ s, Moves p (f s) (g s) p') : Moves p (ofBuild get >>= f) (get >>= g) p' :=
  (moves_ofBuild get).bind h

end Stacked

open Stacked

namespace Build

/-! ## Building on a stack -/

/-- Segments from pieces, where something leads from references to templates. -/
def segmentsOn (lead : String × String → Stacked Template) (group : String) :
    List Piece → Stacked (List Segment)
  | [] => pure []
  | .literal text :: pieces => do
    let rest ← segmentsOn lead group pieces
    return .literal text :: rest
  | .placeholder ⟨none, name⟩ :: pieces => do
    let token ← Stacked.ofBuild (do (← get).registry.token name)
    let rest ← segmentsOn lead group pieces
    return .token token :: rest
  | .placeholder ⟨some symbol, reference⟩ :: pieces => do
    if symbol ≠ templateSymbol then Stacked.ofBuild (throw (.unknownSymbol symbol))
    let template ← lead (referenceTarget group reference)
    let rest ← segmentsOn lead group pieces
    return template.toSegment :: rest

/-- The template that a reference leads to, where something builds the templates that are not
registered. -/
def followOn (build : String → String → TemplateEntry → Stacked Template) (table : TemplateTable)
    (target : String × String) : Stacked Template := do
  match (← Stacked.ofBuild get).registry.template? target.1 target.2 with
  | some t => pure t
  | none =>
    match table.find? target.1 target.2 with
    | none => Stacked.ofBuild (throw (.missingTemplate target.1 target.2))
    | some e => build target.1 target.2 e

/-- Builds a template and those that it refers to on one stack, with room for so many constructions
inside one another, those counted that are refused because their key is held. -/
def buildOn (env : Environment) (table : TemplateTable) :
    Nat → String → String → TemplateEntry → Stacked Template
  | 0, _, _, _ => StateT.lift Limited.tooDeep
  | room + 1, group, name, e => do
    if (← Stacked.ofBuild get).registry.hasTemplate group name then
      Stacked.ofBuild (throw (.templateExists group name))
    takeUp (templateKey group name)
    Stacked.ofBuild (note (.templateStarted (templateKey group name) (← get).depth))
    let segments ← segmentsOn (followOn (buildOn env table room) table) group
        (piecesOf env e.definition)
    Stacked.ofBuild (note (.templateComposed name (Segment.regexAll segments)))
    let template ← Stacked.ofBuild (Template.create name (e.kind.getD (.ofGroup group)) segments)
    letGo (templateKey group name)
    Stacked.ofBuild (insertTemplate group template)

/-- Builds a template while some keys are held, if its name is new and its key is free. -/
def constructIfFree (env : Environment) (table : TemplateTable) (p : Progress) (group name : String)
    (e : TemplateEntry) : Build Template := do
  if (← get).registry.hasTemplate group name then throw (.templateExists group name)
  match p.start (templateKey group name) with
  | .error chain => throw (.circularReference chain)
  | .ok p' => construct env table p' group name e

theorem createTemplate_eq_constructIfFree :
    createTemplate env table group name e = constructIfFree env table .empty group name e := rfl

/-- The name that a reference leads to is new when its template is built. -/
theorem follow_eq_constructIfFree : follow env table p target = (do
    match (← get).registry.template? target.1 target.2 with
    | some t => pure t
    | none =>
      match table.find? target.1 target.2 with
      | none => throw (.missingTemplate target.1 target.2)
      | some e => constructIfFree env table p target.1 target.2 e) := by
  funext s
  unfold follow
  change
    (match s.registry.template? target.1 target.2 with
      | some t => _
      | none => _ : Build Template) s =
    (match s.registry.template? target.1 target.2 with
      | some t => _
      | none => _ : Build Template) s
  cases hnone : s.registry.template? target.1 target.2 with
  | some t => rfl
  | none =>
    cases table.find? target.1 target.2 with
    | none => rfl
    | some e =>
      unfold constructIfFree
      change _ = (if s.registry.hasTemplate target.1 target.2 then _ else _ : Build Template) s
      rw [Registry.hasTemplate, hnone]
      rfl

theorem segmentsOn_moves {lead : String × String → Stacked Template}
    (h : ∀ target, Moves p (lead target) (follow env table p target) p) :
    Moves p (segmentsOn lead group pieces) (buildSegments env table p group pieces) p := by
  induction pieces with
  | nil =>
    rw [segments_nil]
    exact moves_pure []
  | cons piece pieces ih =>
    match piece with
    | .literal text =>
      rw [segments_literal]
      exact ih.bind fun rest => moves_pure _
    | .placeholder ⟨none, name⟩ =>
      rw [segments_token, ← bind_assoc]
      exact (moves_ofBuild _).bind fun token => ih.bind fun rest => moves_pure _
    | .placeholder ⟨some symbol, reference⟩ =>
      rw [segments_reference]
      unfold segmentsOn
      split
      · exact moves_throw_bind
      · exact (h _).bind fun template => ih.bind fun rest => moves_pure _

theorem followOn_moves {build : String → String → TemplateEntry → Stacked Template}
    (h : ∀ e, table.find? target.1 target.2 = some e →
      Moves p (build target.1 target.2 e) (constructIfFree env table p target.1 target.2 e) p) :
    Moves p (followOn build table target) (follow env table p target) p := by
  rw [follow_eq_constructIfFree]
  refine moves_get_bind fun s => ?_
  cases s.registry.template? target.1 target.2 with
  | some t => exact moves_pure t
  | none =>
    cases he : table.find? target.1 target.2 with
    | none => exact moves_ofBuild _
    | some e => exact h e he

/-- A construction that starts puts its key on the stack and takes it out again, behind those that
it starts itself. -/
theorem buildOn_succ_moves (hlead : ∀ p', p.start (templateKey group name) = .ok p' → ∀ target,
      Moves p' (followOn (buildOn env table room) table target) (follow env table p' target) p') :
    Moves p (buildOn env table (room + 1) group name e)
      (constructIfFree env table p group name e) p := by
  refine moves_get_bind fun s => ?_
  split
  · exact moves_throw_bind
  · cases hp : p.start (templateKey group name) with
    | error chain => exact moves_takeUp_held hp
    | ok p' =>
      change Moves p _ (construct env table p' group name e) p
      unfold construct finishTemplate
      refine moves_takeUp_bind hp (moves_stack_bind ((moves_ofBuild _).bind fun _ => ?_))
      refine (segmentsOn_moves (hlead p' hp)).bind fun segments =>
        (moves_ofBuild _).bind fun _ => ?_
      exact (moves_ofBuild _).bind fun template => moves_letGo_bind hp (moves_ofBuild _)

/-- Building on a stack is building with the keys of the stack held, and leaves the stack as it
was. -/
theorem buildOn_moves
    (hroom : ∀ p', p.start (templateKey group name) = .ok p' → table.openCount p' < room) :
    Moves p (buildOn env table (room + 1) group name e)
      (constructIfFree env table p group name e) p := by
  induction room generalizing p group name e with
  | zero => exact buildOn_succ_moves fun p' hp => absurd (hroom p' hp) (Nat.not_lt_zero _)
  | succ room ih =>
    refine buildOn_succ_moves fun p' hp target => followOn_moves fun e' he => ih fun p'' hp' => ?_
    have hopen := TemplateTable.openCount_lt he hp'
    have hbound := hroom p' hp
    omega

/-- With enough room a template is built on an empty stack as without one. -/
theorem buildOn_eq (h : table.size + 1 < room) :
    (buildOn env table room group name e).run .empty =
      (fun t => (t, .empty)) <$> Limited.ofBuild (createTemplate env table group name e) := by
  obtain ⟨room, rfl⟩ : ∃ r, room = r + 1 := ⟨room - 1, by omega⟩
  rw [createTemplate_eq_constructIfFree]
  exact buildOn_moves fun p' _ => by
    have := table.openCount_le_size p'
    omega

/-- Builds a template on a stack of its own, with room for so many constructions. -/
def createOn (env : Environment) (table : TemplateTable) (room : Nat) (group name : String)
    (e : TemplateEntry) : Limited Template :=
  Prod.fst <$> (buildOn env table room group name e).run .empty

/-- Loads a catalog with room for so many constructions. -/
def loadOn (env : Environment) (c : Catalog) (room : Nat) : Limited Unit := do
  forM c.tokens.entries fun x => Limited.ofBuild (loadToken x)
  forM c.templates.entries fun g => forM g.2.entries fun x => do
    unless (← get).registry.hasTemplate g.1 x.1 do
      let _ ← createOn env c.templates room g.1 x.1 x.2

theorem createOn_eq (h : table.size + 1 < room) :
    createOn env table room group name e =
      Limited.ofBuild (createTemplate env table group name e) := by
  rw [createOn, buildOn_eq h, Functor.map_map]
  exact id_map _

theorem loadOn_eq {c : Catalog} (h : c.templates.size + 1 < room) :
    loadOn env c room = Limited.ofBuild (load env c) := by
  rw [load_eq, loadOn, Limited.ofBuild_bind, Limited.ofBuild_forM, Limited.ofBuild_forM]
  refine bind_congr fun _ => congrArg _ (funext fun g => ?_)
  rw [loadGroup, Limited.ofBuild_forM]
  refine congrArg _ (funext fun x => ?_)
  rw [loadTemplate, Limited.ofBuild_get_bind]
  refine bind_congr fun s => ?_
  rw [createOn_eq h]
  split
  · rfl
  · rw [Limited.ofBuild_bind]
    rfl

/-! ## The depth that is reported -/

/-- What has happened between two sessions; every construction that was taken up says that it is at
most so deep. -/
def StartsUpTo (bound : Nat) (s s' : Session) : Prop :=
  ∃ new, s'.events = new ++ s.events ∧ ∀ key depth, .templateStarted key depth ∈ new → depth ≤ bound

/-- Whatever a step comes to, the constructions that it takes up are at most so deep. -/
def Shallow (bound : Nat) (b : Build α) : Prop := ∀ s, StartsUpTo bound s (b.outcome s).2

section Steps

variable {bound : Nat} {b : Build α} {f : α → Build β} {s s' : Session}

theorem startsUpTo_refl (s : Session) : StartsUpTo bound s s := ⟨[], rfl, by simp⟩

theorem StartsUpTo.trans {s'' : Session} (h : StartsUpTo bound s s')
    (h' : StartsUpTo bound s' s'') : StartsUpTo bound s s'' := by
  obtain ⟨new, hnew, hdepth⟩ := h
  obtain ⟨new', hnew', hdepth'⟩ := h'
  refine ⟨new' ++ new, by rw [hnew', hnew, List.append_assoc], fun key depth hmem => ?_⟩
  rcases List.mem_append.1 hmem with hmem | hmem
  · exact hdepth' key depth hmem
  · exact hdepth key depth hmem

theorem shallow_pure (a : α) : Shallow bound (pure a : Build α) := startsUpTo_refl

theorem shallow_throw (error : BuildError) : Shallow bound (throw error : Build α) :=
  startsUpTo_refl

theorem shallow_liftM (x : Except BuildError α) : Shallow bound (liftM x : Build α) := by
  intro s
  cases x <;> exact startsUpTo_refl s

theorem shallow_modify {f : Session → Session} (hf : ∀ s, (f s).events = s.events) :
    Shallow bound (modify f : Build Unit) :=
  fun s => ⟨[], hf s, by simp⟩

theorem shallow_note {event : Event}
    (h : ∀ key depth, event = .templateStarted key depth → depth ≤ bound) :
    Shallow bound (note event) :=
  fun _ => ⟨[event], rfl, fun key depth hmem => h key depth (List.mem_singleton.1 hmem).symm⟩

theorem Shallow.bind (hb : Shallow bound b) (hf : ∀ a, Shallow bound (f a)) :
    Shallow bound (b >>= f) := by
  intro s
  have hfirst := hb s
  rw [outcome_bind]
  rcases hs : b.outcome s with ⟨r, t⟩
  rw [hs] at hfirst
  cases r with
  | ok a => exact hfirst.trans (hf a t)
  | error error => exact hfirst

theorem shallow_get_bind {f : Session → Build α} (hf : ∀ s, Shallow bound (f s)) :
    Shallow bound (get >>= f) :=
  fun s => hf s s

theorem shallow_guard {c : Prop} [Decidable c] {error : BuildError} {f : Unit → Build α}
    (hf : Shallow bound (f ())) : Shallow bound (if c then throw error >>= f else f ()) := by
  split
  · exact shallow_throw error
  · exact hf

theorem shallow_forM {f : α → Build Unit} {xs : List α} (hf : ∀ x, Shallow bound (f x)) :
    Shallow bound (forM xs f) := by
  induction xs with
  | nil => exact shallow_pure ()
  | cons x xs ih => exact (hf x).bind fun _ => ih

theorem shallow_createToken (name : String) (o : TokenOptions) :
    Shallow bound (createToken name o) := by
  refine shallow_get_bind fun _ => shallow_guard (shallow_get_bind fun _ =>
    (shallow_liftM _).bind fun kind =>
    (shallow_liftM _).bind fun t => shallow_get_bind fun _ => shallow_guard ?_)
  exact (shallow_note (by simp)).bind fun _ => (shallow_modify fun _ => rfl).bind fun _ =>
    shallow_pure t

theorem shallow_finishTemplate {kind : Option TemplateKind} {segments : List Segment} :
    Shallow bound (finishTemplate group name kind segments) := by
  refine (shallow_note (by simp)).bind fun _ => (shallow_liftM _).bind fun t =>
    shallow_get_bind fun _ => shallow_guard ?_
  exact (shallow_note (by simp)).bind fun _ => (shallow_modify fun _ => rfl).bind fun _ =>
    shallow_pure t

/-- A construction is as deep as there are keys under construction, which leave no more than the
rest of the table for the constructions inside it. -/
theorem shallow_construct (hdepth : p.depth ≤ bound)
    (hsegments : Shallow bound (buildSegments env table p group (piecesOf env e.definition))) :
    Shallow bound (construct env table p group name e) := by
  refine (shallow_note ?_).bind fun _ => hsegments.bind fun _ => shallow_finishTemplate
  intro key depth heq
  cases heq
  exact hdepth

theorem shallow_follow (hinside : ∀ e, table.find? target.1 target.2 = some e →
      p.isHeld (templateKey target.1 target.2) = false →
      Shallow bound
        (construct env table ⟨p.keys ++ [templateKey target.1 target.2]⟩ target.1 target.2 e)) :
    Shallow bound (follow env table p target) := by
  refine shallow_get_bind fun _ => ?_
  split
  · exact shallow_pure _
  · split
    · exact shallow_throw _
    · next e he =>
      split
      · exact shallow_throw _
      · next p' hp =>
        obtain ⟨hfree, rfl⟩ := Progress.start_ok hp
        exact hinside e he hfree

theorem shallow_segments (h : p.depth + table.openCount p ≤ bound) :
    Shallow bound (buildSegments env table p group pieces) := by
  induction p, group, pieces using pieces_induction env table with
  | nil p group =>
    rw [segments_nil]
    exact shallow_pure _
  | literal p group text pieces ih =>
    rw [segments_literal]
    exact (ih h).bind fun _ => shallow_pure _
  | token p group name pieces ih =>
    rw [segments_token]
    exact shallow_get_bind fun _ => (shallow_liftM _).bind fun _ => (ih h).bind fun _ =>
      shallow_pure _
  | reference p group symbol reference pieces ihInside ih =>
    rw [segments_reference]
    split
    · exact shallow_throw _
    refine (shallow_follow fun e he hfree => ?_).bind fun _ => (ih h).bind fun _ => shallow_pure _
    -- One key more is held, and one definition fewer is open.
    have hopen := TemplateTable.openCount_lt he (Progress.start_of_free hfree)
    have hdepth : ∀ key, (⟨p.keys ++ [key]⟩ : Progress).depth = p.depth + 1 := fun _ => by
      simp [Progress.depth]
    refine shallow_construct ?_ (ihInside e he hfree ?_)
    · rw [hdepth]
      omega
    · rw [hdepth]
      omega

theorem shallow_createTemplate (h : table.size < bound) :
    Shallow bound (createTemplate env table group name e) := by
  have hopen := table.openCount_le_size ⟨[templateKey group name]⟩
  have hdepth : (⟨[templateKey group name]⟩ : Progress).depth = 1 := rfl
  have hconstruct : Shallow bound (construct env table ⟨[templateKey group name]⟩ group name e) :=
    shallow_construct (by omega) (shallow_segments (by omega))
  exact shallow_get_bind fun _ => shallow_guard hconstruct

theorem shallow_load {c : Catalog} (h : c.templates.size < bound) : Shallow bound (load env c) := by
  rw [load_eq]
  refine (shallow_forM fun x => ?_).bind fun _ => shallow_forM fun g => shallow_forM fun x => ?_
  · exact (shallow_createToken _ _).bind fun _ => shallow_pure _
  · refine shallow_get_bind fun _ => ?_
    split
    · exact shallow_pure _
    · exact (shallow_createTemplate h).bind fun _ => shallow_pure _

end Steps

/-- **Building templates ends, whatever refers to whatever.** From every session, with every
definition and every table, a template is built or refused with room for no more constructions
inside one another than two and the definitions of the table, one that is refused because its key is
held counted; and no construction is reported to be deeper than one and the definitions of the
table. So it is with every catalog that is loaded. -/
theorem createTemplate_nesting (env : Environment) (table : TemplateTable) (group name : String)
    (e : TemplateEntry) (s : Session) :
    ((createOn env table (2 + table.size) group name e).outcome s =
        some ((createTemplate env table group name e).outcome s) ∧
      StartsUpTo (1 + table.size) s ((createTemplate env table group name e).outcome s).2) ∧
      ∀ c : Catalog, (loadOn env c (2 + c.templates.size)).outcome s =
        some ((load env c).outcome s) ∧
        StartsUpTo (1 + c.templates.size) s ((load env c).outcome s).2 := by
  refine ⟨⟨?_, shallow_createTemplate (by omega) s⟩, fun c => ⟨?_, shallow_load (by omega) s⟩⟩
  · rw [createOn_eq (by omega), Limited.outcome_ofBuild]
  · rw [loadOn_eq (by omega), Limited.outcome_ofBuild]

/-- The table of one template that refers to itself. -/
def selfTable : TemplateTable :=
  (Catalog.empty.withTemplate "template" "a" (.ofString "{@a}")).templates

/-- Another template that refers to it: the construction of the latter is the second one, and inside
it a third one is refused. -/
theorem nesting_selfTable :
    (∃ s', (createTemplate (fun _ => none) selfTable "template" "x" (.ofString "{@a}")).outcome
      .empty =
        (.error (.circularReference ["template.x", "template.a", "template.a"]), s')) ∧
      (createOn (fun _ => none) selfTable (1 + selfTable.size) "template" "x"
        (.ofString "{@a}")).outcome .empty = none := by
  refine ⟨?_, Option.isNone_iff_eq_none.1 (by decide +kernel)⟩
  have hchain :
      ((createOn (fun _ => none) selfTable 3 "template" "x" (.ofString "{@a}")).outcome .empty).map
        (fun r => match r.1 with | .error (.circularReference chain) => chain | _ => []) =
          some ["template.x", "template.a", "template.a"] := by
    decide +kernel
  rw [createOn_eq (by decide), Limited.outcome_ofBuild, Option.map_some, Option.some_inj] at hchain
  split at hchain
  · next r chain hr =>
    subst hchain
    exact ⟨_, Prod.ext hr rfl⟩
  · cases hchain

end Build

end Stencil
