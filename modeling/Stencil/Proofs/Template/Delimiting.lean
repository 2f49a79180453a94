import Stencil.Proofs.Template.Spelling

/-!
# Where tokens end

In delimited segments a literal that begins with a character outside a class stands behind each
token. Texts of the class for the tokens are then seen in the whole text
(`DelimitedBy.eq_of_flatten_eq`): each ends where the class ends. If two sequences of texts make the
same whole and those of one are of the class, those of the other are as well, for there are not more
characters outside the class in the whole than the literals have (`within_of_countP`).
-/

namespace Stencil

namespace Segment

variable {inside : Char → Bool} {ss : List Segment} {s : Segment} {u : Token}
  {vs ws : List (List Char)}

/-- Every token is followed by the end, or by a literal that begins with a character outside a
class. -/
def DelimitedBy (inside : Char → Bool) (ss : List Segment) : Prop :=
  ∀ before u behind, ss = before ++ .token u :: behind →
    behind = [] ∨ ∃ w rest c cs, behind = .literal w :: rest ∧ w.toList = c :: cs ∧ inside c = false

/-- A text that a flat segment can stand for: its own text for a literal, and a text of the class
for a token. -/
inductive Within (inside : Char → Bool) : Segment → List Char → Prop
  | literal (w : String) : Within inside (.literal w) w.toList
  | token (u : Token) {w : List Char} : (∀ c ∈ w, inside c = true) → Within inside (.token u) w
  | template (name : String) (kind : TemplateKind) (ss : List Segment) :
      Within inside (.template name kind ss) []

theorem within_spell {τ : String → String}
    (h : ∀ u, .token u ∈ ss → ∀ c ∈ (τ u.name).toList, inside c = true) :
    List.Forall₂ (Within inside) ss (ss.map (spell τ)) := by
  rw [List.forall₂_map_right_iff, List.forall₂_same]
  intro s hs
  cases s with
  | literal w => exact .literal w
  | token u => exact .token u (h u hs)
  | template name kind ss => exact .template name kind ss

theorem takeWhile_append_stop {w rest : List Char} (hw : ∀ c ∈ w, inside c = true)
    (hrest : ∀ c ∈ rest.head?, inside c = false) : (w ++ rest).takeWhile inside = w := by
  rw [List.takeWhile_append_of_pos hw]
  cases rest with
  | nil => simp
  | cons c cs => simp [hrest c rfl]

namespace DelimitedBy

theorem tail (h : DelimitedBy inside (s :: ss)) : DelimitedBy inside ss :=
  fun before u behind heq => h (s :: before) u behind (by rw [heq, List.cons_append])

/-- Behind a token stands the end or a character outside the class. -/
theorem stops (h : DelimitedBy inside (.token u :: ss)) {other : Char → Bool}
    (hws : List.Forall₂ (Within other) ss ws) : ∀ c ∈ ws.flatten.head?, inside c = false := by
  intro d hd
  rcases h [] u ss rfl with rfl | ⟨w, rest, c, cs, rfl, hw, hc⟩
  · cases hws
    cases hd
  · cases hws with
    | cons hfirst _ =>
      cases hfirst
      rw [List.flatten_cons, hw] at hd
      cases hd
      exact hc

theorem stops_spell (h : DelimitedBy inside (.token u :: ss)) (τ : String → String) :
    ∀ c ∈ (ss.flatMap (spell τ)).head?, inside c = false := by
  have hws : List.Forall₂ (Within fun _ => true) ss (ss.map (spell τ)) :=
    within_spell fun _ _ _ _ => rfl
  rw [List.flatMap_def]
  exact h.stops hws

/-- Texts of the class are seen in the whole text. -/
theorem eq_of_flatten_eq (h : DelimitedBy inside ss) (hvs : List.Forall₂ (Within inside) ss vs)
    (hws : List.Forall₂ (Within inside) ss ws) (heq : vs.flatten = ws.flatten) : vs = ws := by
  induction hvs generalizing ws with
  | nil =>
    cases hws
    rfl
  | @cons s v ss vs hv hvs ih =>
    cases hws with
    | @cons _ w _ ws hw hws =>
      have hfirst : v = w := by
        cases hv with
        | literal =>
          cases hw
          rfl
        | token u hv =>
          cases hw with
          | token _ hw =>
            have htake := congrArg (List.takeWhile inside) heq
            rwa [List.flatten_cons, List.flatten_cons, takeWhile_append_stop hv (h.stops hvs),
              takeWhile_append_stop hw (h.stops hws)] at htake
        | template =>
          cases hw
          rfl
      subst hfirst
      rw [ih h.tail hws (List.append_cancel_left heq)]

end DelimitedBy

/-- Where there are not more characters outside the class than the literals have, all texts are of
the class. -/
theorem within_of_countP (hvs : List.Forall₂ (Within inside) ss vs)
    (hws : List.Forall₂ (Within fun _ => true) ss ws) :
    vs.flatten.countP (fun c => !inside c) ≤ ws.flatten.countP (fun c => !inside c) ∧
      (ws.flatten.countP (fun c => !inside c) ≤ vs.flatten.countP (fun c => !inside c) →
        List.Forall₂ (Within inside) ss ws) := by
  induction hvs generalizing ws with
  | nil =>
    cases hws
    exact ⟨Nat.le_refl _, fun _ => .nil⟩
  | @cons s v ss vs hv hvs ih =>
    cases hws with
    | @cons _ w _ ws hw hws =>
      obtain ⟨hle, hwithin⟩ := ih hws
      rw [List.flatten_cons, List.flatten_cons, List.countP_append, List.countP_append]
      cases hv with
      | literal v =>
        cases hw
        exact ⟨by omega, fun h => .cons (.literal v) (hwithin (by omega))⟩
      | template =>
        cases hw
        exact ⟨by omega, fun h => .cons (.template ..) (hwithin (by omega))⟩
      | token u hv =>
        have hnone : v.countP (fun c => !inside c) = 0 := List.countP_eq_zero.2 fun c hc => by
          simp [hv c hc]
        refine ⟨by omega, fun h => .cons (.token u fun c hc => ?_) (hwithin (by omega))⟩
        have hnone' : w.countP (fun c => !inside c) = 0 := by omega
        simpa using List.countP_eq_zero.1 hnone' c hc

end Segment

end Stencil
