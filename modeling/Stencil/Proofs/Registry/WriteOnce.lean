import Stencil.Proofs.Registry.Growing

/-!
# Registries over whole runs

Calls on one registry may succeed or fail, in any order and with any error. A call does nothing to a
registry but take in new tokens and new templates, one at a time (`Call.develops`); so over a whole
run what is bound stays bound, and everything that is bound is in order (`write_once`). A call that
fails may have taken in templates that its definitions refer to, but never what it was itself to
register.
-/

namespace Stencil

open Definition Build

variable {α β : Type} {s s' : Session} {r r' : Registry}

/-- A token that can be constructed: from its expression and its rule, and then described and given
a default. -/
def Token.Constructed (u : Token) : Prop :=
  ∃ v, Token.create u.name u.kind u.regex u.rule = .ok v ∧
    u = { v with description := u.description, default := u.default }

theorem Token.Constructed.isIdentifier_name {u : Token} (h : u.Constructed) :
    isIdentifier u.name = true := by
  obtain ⟨v, hv, -⟩ := h
  exact (Token.create_eq hv).1

namespace Registry

/-! ## Taking in new names -/

/-- A registry takes in one token or one template, under a name that is new. -/
inductive Takes (r : Registry) : Registry → Prop where
  | token {u : Token} (named : isIdentifier u.name = true) (new : r.token? u.name = none) :
      Takes r (r.addToken u)
  | template {group : String} {t : Template} (new : r.template? group t.name = none) :
      Takes r (r.addTemplate group t)

/-- A registry takes in tokens and templates, one after another. -/
abbrev Develops : Registry → Registry → Prop := Relation.ReflTransGen Takes

/-- Everything in a registry is under its own name, tokens have identifiers for names, and no group
is empty. -/
structure Orderly (r : Registry) : Prop where
  tokens : ∀ name u, r.token? name = some u → u.name = name
  templates : ∀ group name t, r.template? group name = some t → t.name = name
  identifiers : ∀ name, r.hasToken name = true → isIdentifier name = true
  groups : ∀ group g, r.templates.get? group = some g → ∃ name, (g.get? name).isSome = true

theorem orderly_empty (kinds : KindRegistry) : Orderly ⟨.empty, .empty, kinds⟩ :=
  ⟨nofun, nofun, nofun, nofun⟩

theorem Takes.keeps (h : Takes r r') : Keeps r r' := by
  cases h with
  | token _ new => exact keeps_addToken new
  | template new => exact keeps_addTemplate new

theorem Orderly.addToken {u : Token} (h : Orderly r) (hname : isIdentifier u.name = true) :
    Orderly (r.addToken u) := by
  refine ⟨fun name v hv => ?_, h.templates, fun name hhas => ?_, h.groups⟩
  · rw [token?_addToken] at hv
    split at hv
    · next heq =>
      cases hv
      exact heq
    · exact h.tokens name v hv
  · rw [hasToken, token?_addToken] at hhas
    split at hhas
    · next heq => exact heq ▸ hname
    · exact h.identifiers name hhas

theorem Orderly.addTemplate {group : String} {t : Template} (h : Orderly r) :
    Orderly (r.addTemplate group t) := by
  refine ⟨h.tokens, fun group' name u hu => ?_, h.identifiers, fun group' g hg =>
    exists_of_addTemplate h.groups hg⟩
  rw [template?_addTemplate] at hu
  split at hu
  · next heq =>
    cases hu
    exact heq.2
  · exact h.templates group' name u hu

theorem Orderly.step (hr : Orderly r) (h : Takes r r') : Orderly r' := by
  cases h with
  | token named _ => exact hr.addToken named
  | template _ => exact hr.addTemplate

theorem Develops.keeps (h : Develops r r') : Keeps r r' := by
  induction h with
  | refl => exact .refl
  | tail _ hlast ih => exact ih.trans hlast.keeps

theorem Develops.orderly (h : Develops r r') (hr : Orderly r) : Orderly r' := by
  induction h with
  | refl => exact hr
  | tail _ hlast ih => exact ih.step hlast

theorem Grows.develops {env : Environment} {table : TemplateTable} {p : Progress}
    (h : Grows env table p r r') : Develops r r' := by
  refine h.lift id fun a b hadds => ?_
  obtain ⟨-, hnew, -, hrealizes⟩ := hadds
  exact .template (hrealizes.name_eq.symm ▸ hnew)

end Registry

/-! ## Steps that take in new names -/

namespace Build

/-- Wherever a step starts, and whether it succeeds or fails, it takes in new tokens and templates
at most. -/
def Develops (b : Build α) : Prop := ∀ s : Session, s.registry.Develops (b.outcome s).2.registry

theorem develops_of {b : Build α}
    (hreturns : ∀ s a s', Returns b s a s' → s.registry.Develops s'.registry)
    (hthrows : ∀ s error s', Throws b s error s' → s.registry.Develops s'.registry) :
    Develops b := by
  intro s
  rcases h : b.outcome s with ⟨x, s'⟩
  cases x with
  | ok a => exact hreturns s a s' h
  | error error => exact hthrows s error s' h

theorem develops_pure (a : α) : Develops (pure a : Build α) := fun _ => .refl

theorem Develops.bind {b : Build α} {f : α → Build β} (hb : Develops b) (hf : ∀ a, Develops (f a)) :
    Develops (b >>= f) := by
  intro s
  have hfirst := hb s
  rw [outcome_bind]
  rcases h : b.outcome s with ⟨x, t⟩
  rw [h] at hfirst
  cases x with
  | ok a => exact hfirst.trans (hf a t)
  | error error => exact hfirst

theorem Develops.forM {f : α → Build Unit} (hf : ∀ x, Develops (f x)) (xs : List α) :
    Develops (forM xs f) := by
  induction xs with
  | nil => exact develops_pure _
  | cons x xs ih =>
    rw [List.forM_cons]
    exact (hf x).bind fun _ => ih

theorem develops_insertToken {u : Token} (hname : isIdentifier u.name = true) :
    Develops (insertToken u) := by
  refine develops_of (fun s v s' h => ?_) fun s error s' h => ?_
  · obtain ⟨hnew, -, rfl⟩ := returns_insertToken.1 h
    exact .single (.token hname hnew)
  · obtain ⟨-, -, rfl⟩ := throws_insertToken.1 h
    exact .refl

theorem develops_createToken (name : String) (o : TokenOptions) :
    Develops (createToken name o) := by
  refine develops_of (fun s u s' h => ?_) fun s error s' h => ?_
  · obtain ⟨-, kind, -, t, ht, hinsert⟩ := returns_createToken.1 h
    obtain ⟨hnew, -, rfl⟩ := returns_insertToken.1 hinsert
    obtain ⟨-, -, hname, -, rfl, -⟩ := Token.ofOptions_eq ht
    exact .single (.token hname hnew)
  · rw [eq_of_throws_createToken h]

theorem develops_insertTemplate (group : String) (t : Template) :
    Develops (insertTemplate group t) := by
  refine develops_of (fun s u s' h => ?_) fun s error s' h => ?_
  · obtain ⟨hnew, -, rfl⟩ := returns_insertTemplate.1 h
    exact .single (.template hnew)
  · obtain ⟨-, -, rfl⟩ := throws_insertTemplate.1 h
    exact .refl

section Templates

variable (env : Environment) (table : TemplateTable)

theorem develops_createTemplate (group name : String) (e : TemplateEntry) :
    Develops (createTemplate env table group name e) := by
  refine develops_of (fun s t s' h => ?_) fun s error s' h =>
    (grows_of_throws_createTemplate h).develops
  obtain ⟨r, hgrows, hnew, hrealizes, hs'⟩ := realizes_of_createTemplate h
  rw [hs']
  exact hgrows.develops.tail (.template (hrealizes.name_eq.symm ▸ hnew))

theorem develops_loadTemplate (group : String) (x : String × TemplateEntry) :
    Develops (loadTemplate env table group x) := by
  intro s
  unfold loadTemplate
  change s.registry.Develops ((unless s.registry.hasTemplate group x.1 do
    let _ ← createTemplate env table group x.1 x.2).outcome s).2.registry
  split
  · exact .refl
  · exact (develops_createTemplate env table group x.1 x.2).bind (fun _ => develops_pure _) s

theorem develops_load (c : Catalog) : Develops (load env c) := by
  rw [load_eq]
  refine .bind (.forM (fun x => ?_) _) fun _ => .forM (fun g => ?_) _
  · exact (develops_createToken x.1 x.2.toOptions).bind fun _ => develops_pure _
  · exact .forM (develops_loadTemplate env c.templates g.1) _

end Templates

end Build

/-! ## Runs of calls -/

namespace Registry

/-- A call on a registry. -/
inductive Call where
  | createToken (name : String) (o : TokenOptions)
  | insertToken (u : Token) (constructed : u.Constructed)
  | createTemplate (env : Environment) (table : TemplateTable) (group name : String)
      (e : TemplateEntry)
  | insertTemplate (group : String) (t : Template)
  | load (env : Environment) (c : Catalog)

namespace Call

/-- What a call does, its result aside. -/
def build : Call → Build Unit
  | .createToken name o => do let _ ← Build.createToken name o
  | .insertToken u _ => do let _ ← Build.insertToken u
  | .createTemplate env table group name e => do let _ ← Build.createTemplate env table group name e
  | .insertTemplate group t => do let _ ← Build.insertTemplate group t
  | .load env c => Build.load env c

/-- What a call that fails has not done: only loading and building templates may change a registry
nevertheless, and building a template does not register it. -/
def Undone (r r' : Registry) : Call → Prop
  | .createToken .. | .insertToken .. | .insertTemplate .. => r' = r
  | .createTemplate _ _ group name _ =>
    r.template? group name = none → r'.template? group name = none
  | .load .. => True

theorem develops (call : Call) : Build.Develops call.build := by
  cases call with
  | createToken name o => exact (develops_createToken name o).bind fun _ => develops_pure _
  | insertToken u constructed =>
    exact (develops_insertToken constructed.isIdentifier_name).bind fun _ => develops_pure _
  | createTemplate env table group name e =>
    exact (develops_createTemplate env table group name e).bind fun _ => develops_pure _
  | insertTemplate group t => exact (develops_insertTemplate group t).bind fun _ => develops_pure _
  | load env c => exact develops_load env c

theorem undone {call : Call} {error : BuildError} (h : Throws call.build s error s') :
    call.Undone s.registry s'.registry := by
  cases call with
  | createToken name o => exact congrArg _ (eq_of_throws_createToken (throws_bind_pure.1 h))
  | insertToken u constructed => exact congrArg _ (throws_insertToken.1 (throws_bind_pure.1 h)).2.2
  | createTemplate env table group name e =>
    intro hnone
    have hextends := (grows_of_throws_createTemplate (throws_bind_pure.1 h)).extends
    rw [hextends.held group name (by simp [Progress.isHeld]), hnone]
  | insertTemplate group t => exact congrArg _ (throws_insertTemplate.1 (throws_bind_pure.1 h)).2.2
  | load env c => trivial

end Call

/-- What calls, one after another, make of a session. -/
def after (s : Session) (calls : List Call) : Session :=
  calls.foldl (fun s call => (call.build.outcome s).2) s

theorem develops_after (s : Session) (calls : List Call) :
    s.registry.Develops (after s calls).registry := by
  induction calls generalizing s with
  | nil => exact .refl
  | cons call calls ih => exact (call.develops s).trans (ih _)

/-- **A registry is write-once over whole runs.** Whatever calls are made on it, and whether they
succeed or fail, what is bound stays bound to the same, and everything is in order; and a call that
fails has not registered what it was to register. -/
theorem write_once (kinds : KindRegistry) (calls : List Call) :
    let s := after ⟨⟨.empty, .empty, kinds⟩, []⟩ calls
    s.registry.Orderly ∧ (∀ more, s.registry.Keeps (after s more).registry) ∧
      ∀ (call : Call) error s', call.build.outcome s = (.error error, s') →
        call.Undone s.registry s'.registry :=
  ⟨(develops_after _ calls).orderly (orderly_empty kinds),
    fun more => (develops_after _ more).keeps, fun _ _ _ h => Call.undone h⟩

end Registry

end Stencil
