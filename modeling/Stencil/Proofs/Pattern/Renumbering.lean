import Stencil.Proofs.Pattern.Language

/-!
# Numbers of groups

The expression of a token is read alone and as part of the expression of a template, and its groups
get other numbers there. `Renumbered` relates the two patterns. They have the same language and ways
to the same positions, and a pattern leaves alone what is remembered under the numbers that it does
not use.
-/

namespace Stencil.Pattern

/-- Two patterns that ask for no earlier text and differ in the numbers of their groups alone; those
of the second are as required. -/
inductive Renumbered (ok : Nat → Prop) : Pattern → Pattern → Prop
  | empty : Renumbered ok empty empty
  | one (set : CharSet) : Renumbered ok (one set) (one set)
  | check (a : Assertion) : Renumbered ok (check a) (check a)
  | seq {p p' q q' : Pattern} : Renumbered ok p p' → Renumbered ok q q' →
      Renumbered ok (seq p q) (seq p' q')
  | alt {p p' q q' : Pattern} : Renumbered ok p p' → Renumbered ok q q' →
      Renumbered ok (alt p q) (alt p' q')
  | group {i j : Nat} {p p' : Pattern} : ok j → Renumbered ok p p' →
      Renumbered ok (group i p) (group j p')
  | repeated {p p' : Pattern} (min : Nat) (max : Option Nat) (greedy : Bool) :
    Renumbered ok p p' → Renumbered ok (repeated p min max greedy) (repeated p' min max greedy)
  | atomic {p p' : Pattern} : Renumbered ok p p' → Renumbered ok (atomic p) (atomic p')

/-- Whether a pattern asks for the text of a group again. -/
def asksAgain : Pattern → Bool
  | empty | one _ | check _ => false
  | seq p q | alt p q => p.asksAgain || q.asksAgain
  | group _ p | repeated p _ _ _ | atomic p => p.asksAgain
  | again _ => true

namespace Renumbered

variable {ok : Nat → Prop} {p q : Pattern}

theorem refl (p : Pattern) (hp : p.asksAgain = false) : Renumbered (fun _ => True) p p := by
  induction p with
  | empty => exact .empty
  | one set => exact .one set
  | check a => exact .check a
  | seq p q ihp ihq =>
    simp only [asksAgain, Bool.or_eq_false_iff] at hp
    exact .seq (ihp hp.1) (ihq hp.2)
  | alt p q ihp ihq =>
    simp only [asksAgain, Bool.or_eq_false_iff] at hp
    exact .alt (ihp hp.1) (ihq hp.2)
  | group i p ih => exact .group trivial (ih hp)
  | repeated p min max greedy ih => exact .repeated min max greedy (ih hp)
  | again i => cases hp
  | atomic p ih => exact .atomic (ih hp)

theorem isRegular_eq (h : Renumbered ok p q) : q.isRegular = p.isRegular := by
  induction h with
  | empty | one | check | atomic => rfl
  | seq _ _ ihp ihq | alt _ _ ihp ihq => simp only [isRegular, ihp, ihq]
  | group _ _ ih | repeated _ _ _ _ ih => simpa only [isRegular] using ih

theorem language_eq (h : Renumbered ok p q) : q.language = p.language := by
  induction h with
  | empty | one | check | atomic => rfl
  | seq _ _ ihp ihq | alt _ _ ihp ihq => simp only [language, ihp, ihq]
  | group _ _ ih => exact ih
  | repeated _ _ _ _ ih => simp only [language, ih]; rfl

theorem asksAgain_eq (h : Renumbered ok p q) : q.asksAgain = false := by
  induction h with
  | empty | one | check => rfl
  | seq _ _ ihp ihq | alt _ _ ihp ihq => simp only [asksAgain, ihp, ihq, Bool.or_false]
  | group _ _ ih | repeated _ _ _ _ ih | atomic _ ih => simpa only [asksAgain] using ih

/-- The ways of both patterns lead to the same positions. -/
theorem alike_ways (h : Renumbered ok p q) (strict : Bool) (text : Array Char) :
    Alike (ways strict text p) (ways strict text q) := by
  induction h with
  | empty => exact Alike.self
  | one set =>
    intro s t h
    simp only [ways, h]
    split
    · split <;> simp [Spot.advance, h]
    · rfl
  | check a =>
    intro s t h
    have : s.satisfies text a = t.satisfies text a := by
      simp [Spot.satisfies, Spot.before, Spot.behind, h]
    simp only [ways, this]
    split <;> simp [h]
  | seq _ _ ihp ihq => exact ihp.flatMap ihq
  | alt _ _ ihp ihq =>
    intro s t h
    simp only [ways, List.map_append, ihp h, ihq h]
  | @group i j p p' _ _ ih =>
    intro s t h
    simpa [ways, Spot.mark, Function.comp_def] using ih (s := s.mark (2 * i)) (t := t.mark (2 * j))
      h
  | repeated min max greedy _ ih => exact (ih.rounds min).flatMap (ih.furtherRounds ..)
  | atomic _ ih =>
    intro s t h
    simp only [ways, List.map_take, ih h]

end Renumbered

theorem positional_ways (strict : Bool) (text : Array Char) {p : Pattern}
    (hp : p.asksAgain = false) :
    Positional (ways strict text p) := (Renumbered.refl p hp).alike_ways strict text

/-! ## What a pattern remembers -/

/-- What a function remembers on the way is kept under numbers of the given kind. -/
def MarksOnly (ok : Nat → Prop) (f : Spot → List Spot) : Prop :=
  ∀ s, ∀ e ∈ f s, ∃ ms, e.marks = ms ++ s.marks ∧ ∀ m ∈ ms, ok (m.1 / 2)

/-- More is remembered, under numbers of the given kind. -/
def Spot.RemembersMore (ok : Nat → Prop) (s e : Spot) : Prop :=
  ∃ ms, e.marks = ms ++ s.marks ∧ ∀ m ∈ ms, ok (m.1 / 2)

namespace MarksOnly

variable {ok : Nat → Prop} {f g : Spot → List Spot}

theorem refl (s : Spot) : Spot.RemembersMore ok s s := ⟨[], rfl, by simp⟩

theorem trans {s x e : Spot} (hsx : Spot.RemembersMore ok s x) (hxe : Spot.RemembersMore ok x e) :
    Spot.RemembersMore ok s e := by
  obtain ⟨ms, hms, hok⟩ := hsx
  obtain ⟨ms', hms', hok'⟩ := hxe
  refine ⟨ms' ++ ms, by rw [hms', hms, List.append_assoc], fun m hm => ?_⟩
  exact (List.mem_append.1 hm).elim (hok' m) (hok m)

theorem self : MarksOnly ok fun s => [s] := Along.self refl

theorem flatMap (hf : MarksOnly ok f) (hg : MarksOnly ok g) :
    MarksOnly ok fun s => (f s).flatMap g :=
  Along.flatMap trans hf hg

theorem rounds (hf : MarksOnly ok f) (n : Nat) : MarksOnly ok (Pattern.rounds f n) :=
  Along.rounds refl trans hf n

theorem furtherRounds (hf : MarksOnly ok f) (strict greedy : Bool)
    (fuel : Nat) (left : Option Nat) :
    MarksOnly ok (Pattern.furtherRounds strict greedy f fuel left) :=
  Along.furtherRounds refl trans hf strict greedy fuel left

end MarksOnly

/-- A pattern remembers where it matched under the numbers of its groups. -/
theorem Renumbered.marksOnly_ways {ok : Nat → Prop} {p q : Pattern} (h : Renumbered ok p q)
    (strict : Bool) (text : Array Char) : MarksOnly ok (ways strict text q) := by
  induction h with
  | empty => exact MarksOnly.self
  | one set =>
    intro s e he
    simp only [ways] at he
    split at he
    · split at he
      · obtain rfl := List.mem_singleton.1 he
        exact ⟨[], rfl, by simp⟩
      · cases he
    · cases he
  | check a =>
    intro s e he
    simp only [ways] at he
    split at he
    · exact MarksOnly.self s e he
    · cases he
  | seq _ _ ihp ihq => exact ihp.flatMap ihq
  | alt _ _ ihp ihq => exact fun s e he => (List.mem_append.1 he).elim (ihp s e) (ihq s e)
  | @group i j p p' hj _ ih =>
    intro s e he
    obtain ⟨x, hx, rfl⟩ := List.mem_map.1 he
    obtain ⟨ms, hms, hok⟩ := ih (s.mark (2 * j)) x hx
    refine ⟨(2 * j + 1, x.pos) :: ms ++ [(2 * j, s.pos)], by simp [Spot.mark, hms], ?_⟩
    have odd : (2 * j + 1) / 2 = j := by omega
    have even : 2 * j / 2 = j := by omega
    simp only [List.cons_append, List.mem_cons, List.mem_append, List.not_mem_nil, or_false]
    rintro m (rfl | hm | rfl)
    · exact odd.symm ▸ hj
    · exact hok m hm
    · exact even.symm ▸ hj
  | repeated min max greedy _ ih =>
    exact (ih.rounds min).flatMap (ih.furtherRounds strict greedy _ _)
  | atomic _ ih => exact fun s e he => ih s e (List.mem_of_mem_take he)

/-- What is remembered under other numbers is still there. -/
theorem MarksOnly.lookup_eq {ok : Nat → Prop} {f : Spot → List Spot}
    (hf : MarksOnly ok f) {s e : Spot} (he : e ∈ f s) {slot : Nat} (h : ¬ ok (slot / 2)) :
    e.marks.lookup slot = s.marks.lookup slot := by
  obtain ⟨ms, hms, hok⟩ := hf s e he
  rw [hms]
  clear hms
  induction ms with
  | nil => rfl
  | cons m ms ih =>
    have : (slot == m.1) = false := by
      rw [beq_eq_false_iff_ne]
      rintro rfl
      exact h (hok m (by simp))
    obtain ⟨k, v⟩ := m
    rw [List.cons_append, List.lookup_cons, this]
    exact ih fun m hm => hok m (by simp [hm])

/-! ## Groups -/

theorem Renumbered.mono {ok ok' : Nat → Prop} {p q : Pattern} (h : Renumbered ok p q)
    (hok : ∀ i, ok i → ok' i) : Renumbered ok' p q := by
  induction h with
  | empty => exact .empty
  | one set => exact .one set
  | check a => exact .check a
  | seq _ _ ihp ihq => exact .seq ihp ihq
  | alt _ _ ihp ihq => exact .alt ihp ihq
  | group hj _ ih => exact .group (hok _ hj) ih
  | repeated min max greedy _ ih => exact .repeated min max greedy ih
  | atomic _ ih => exact .atomic ih

section

variable {strict : Bool} {text : Array Char} {i : Nat} {p q : Pattern} {s e : Spot}

/-- A group remembers where it has matched. -/
theorem Renumbered.group?_eq (hq : p.Renumbered (i < ·) q)
    (he : e ∈ ways strict text (.group i q) s) : e.group? i = some (s.pos, e.pos) := by
  obtain ⟨x, hx, rfl⟩ := List.mem_map.1 he
  have hstart : x.marks.lookup (2 * i) = (s.mark (2 * i)).marks.lookup (2 * i) :=
    (hq.marksOnly_ways strict text).lookup_eq hx (by omega)
  have hne : (2 * i == 2 * i + 1) = false := by simp
  simp [Spot.group?, Spot.mark, List.lookup_cons, hne, hstart]

/-- What is remembered under lower numbers stays where a group is passed. -/
theorem Renumbered.group?_below (hq : p.Renumbered (i < ·) q)
    (he : e ∈ ways strict text (.group i q) s) {j : Nat} (hj : j < i) :
    e.group? j = s.group? j := by
  have hmarks : MarksOnly (i ≤ ·) (ways strict text (.group i q)) :=
    (Renumbered.group (Nat.le_refl i) (hq.mono fun _ => Nat.le_of_lt) :
      Renumbered (i ≤ ·) (.group i p) (.group i q)).marksOnly_ways strict text
  rw [Spot.group?, Spot.group?, hmarks.lookup_eq he (by omega), hmarks.lookup_eq he (by omega)]

/-- A group of a pattern ends where the pattern does. -/
theorem Renumbered.pos_ways_group (hq : p.Renumbered (i < ·) q) (strict : Bool)
    (text : Array Char) (s : Spot) :
    (ways strict text (.group i q) s).map Spot.pos =
      (ways strict text p ⟨s.pos, []⟩).map Spot.pos := by
  have hmarked := (hq.alike_ways strict text) (s := ⟨s.pos, []⟩) (t := s.mark (2 * i)) rfl
  rw [hmarked]
  simp [ways, Spot.mark, Function.comp_def]

end

end Stencil.Pattern
