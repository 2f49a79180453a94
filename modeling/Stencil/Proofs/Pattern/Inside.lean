import Stencil.Proofs.Pattern.Renumbering
import Stencil.Proofs.Pattern.Steady

/-!
# Reading inside a group

An expression is read alone, and as the contents of a group of a longer expression. `Inside` relates
the two states of reading: the second holds what the first holds, with other numbers of groups,
above the groups that are open around it. Each way in which a reader goes on keeps them related.
`Top` says what a reader has read that is in no group; `Top.inside` and `Top.leave` lead into one
and out of it.
-/

namespace Stencil.Pattern

variable {ok : Nat → Prop}

/-! ## Contents -/

/-- Parts of alternatives that differ in the numbers of groups alone. -/
inductive Item.Renumbered (ok : Nat → Prop) : Item → Item → Prop
  | part {p q : Pattern} (fresh : Bool) : Pattern.Renumbered ok p q →
    Item.Renumbered ok (.part p fresh) (.part q fresh)
  | setting : Item.Renumbered ok .setting .setting

/-- Contents that differ in the numbers of groups alone. -/
structure Contents.Renumbered (ok : Nat → Prop) (c d : Contents) : Prop where
  items : List.Forall₂ (Item.Renumbered ok) c.items d.items
  branches : List.Forall₂ (Pattern.Renumbered ok) c.branches d.branches

theorem Renumbered.concat {ps qs : List Pattern} (h : List.Forall₂ (Renumbered ok) ps qs) :
    Renumbered ok (concat ps) (concat qs) := by
  induction h with
  | nil => exact .empty
  | cons hp hps ih =>
    cases hps with
    | nil => exact hp
    | cons => exact .seq hp ih

theorem Renumbered.choice {ps qs : List Pattern} (h : List.Forall₂ (Renumbered ok) ps qs) :
    Renumbered ok (choice ps) (choice qs) := by
  induction h with
  | nil => exact .empty
  | cons hp hps ih =>
    cases hps with
    | nil => exact hp
    | cons => exact .alt hp ih

namespace Contents.Renumbered

variable {c d : Contents} {p q : Pattern}

theorem empty : Contents.Renumbered ok .empty .empty := ⟨.nil, .nil⟩

theorem push (h : c.Renumbered ok d) (hp : p.Renumbered ok q) :
    (c.push p).Renumbered ok (d.push q) :=
  ⟨.cons (.part true hp) h.items, h.branches⟩

theorem branch (h : c.Renumbered ok d) : c.branch.Renumbered ok d.branch := by
  have patterns : ∀ {is js : List Item}, List.Forall₂ (Item.Renumbered ok) is js →
      List.Forall₂ (Pattern.Renumbered ok) (is.filterMap Item.pattern?)
      (js.filterMap Item.pattern?) := by
    intro is js h
    induction h with
    | nil => exact .nil
    | cons hi _ ih =>
      cases hi with
      | part _ hp => exact .cons hp ih
      | setting => exact ih
  exact .concat (List.rel_reverse (patterns h.items))

theorem alternate (h : c.Renumbered ok d) : c.alternate.Renumbered ok d.alternate :=
  ⟨.nil, .cons h.branch h.branches⟩

theorem close (h : c.Renumbered ok d) : c.close.Renumbered ok d.close :=
  .choice (List.rel_reverse (.cons h.branch h.branches))

end Contents.Renumbered

/-! ## Readers -/

namespace Reader

variable {r r' : Reader} {cs : List Char}

theorem openGroup_eq {i : Option Nat} {f : Flags} (h : r.openGroup i f cs = .ok r') :
    r' = { r with
      contents := .empty, opened := ⟨r.contents, r.flags, i⟩ :: r.opened, flags := f,
      rest := cs } := by
  unfold openGroup at h
  split at h
  · cases h
  · cases h
    rfl

theorem openCapture_eq (h : r.openCapture cs = .ok r') :
    r' = { r with
      contents := .empty, opened := ⟨r.contents, r.flags, some (r.groups + 1)⟩ :: r.opened,
      groups := r.groups + 1, rest := cs } :=
  openGroup_eq h

theorem dot_eq {p : Pattern} (h : r.dot = .ok p) : ∃ s, p = .one s := by
  unfold dot at h
  split at h
  · cases h
  · split at h
    · cases h
      exact ⟨_, rfl⟩
    · split at h <;> cases h <;> exact ⟨_, rfl⟩

theorem renumbered_dot {p : Pattern} (h : r.dot = .ok p) : p.Renumbered ok p := by
  obtain ⟨s, rfl⟩ := dot_eq h
  exact .one s

/-! ## Runs -/

section Runs

variable {step : Reader → Except Fault Reader} {n : Nat}

theorem run_end (hr : r.rest = []) : run step n r = .ok r := by
  cases n with
  | zero => rfl
  | succ n => simp [run, hr]

theorem run_step (hr : r.rest ≠ []) : run step (n + 1) r = step r >>= run step n := by
  simp [run, hr]

/-- By some steps one reader becomes another one; there are no more of them than characters that
they take. -/
def LeadsTo (step : Reader → Except Fault Reader) (r r' : Reader) : Prop :=
  ∃ k, k + r'.rest.length ≤ r.rest.length ∧ ∀ n, run step (k + n) r = run step n r'

theorem LeadsTo.refl (r : Reader) : LeadsTo step r r := ⟨0, by omega, fun n => by rw [Nat.zero_add]⟩

theorem LeadsTo.trans {r1 r2 : Reader} (h : LeadsTo step r r1) (h' : LeadsTo step r1 r2) :
    LeadsTo step r r2 := by
  obtain ⟨k, hk, hrun⟩ := h
  obtain ⟨k', hk', hrun'⟩ := h'
  refine ⟨k + k', by omega, fun n => ?_⟩
  rw [Nat.add_assoc, hrun, hrun']

theorem LeadsTo.of_step (h : step r = .ok r') (hlength : r'.rest.length < r.rest.length) :
    LeadsTo step r r' := by
  have hne : r.rest ≠ [] := List.ne_nil_of_length_pos (by omega)
  refine ⟨1, by omega, fun n => ?_⟩
  rw [Nat.add_comm, run_step hne, h]
  rfl

/-- A reader that has come to the end of an expression has read it. -/
theorem LeadsTo.run_eq (h : LeadsTo step r r') (hend : r'.rest = []) :
    run step (r.rest.length + 1) r = .ok r' := by
  obtain ⟨k, hk, hrun⟩ := h
  obtain ⟨n, hn⟩ : ∃ n, r.rest.length + 1 = k + n := ⟨r.rest.length + 1 - k, by omega⟩
  rw [hn, hrun, run_end hend]

/-- What no step takes from the names stays there. -/
theorem run_names (hstep : ∀ {r r'}, step r = .ok r' → r.names <:+ r'.names)
    (h : run step n r = .ok r') : r.names <:+ r'.names := by
  induction n generalizing r with
  | zero =>
    cases h
    exact List.suffix_rfl
  | succ n ih =>
    by_cases hr : r.rest = []
    · rw [run_end hr] at h
      cases h
      exact List.suffix_rfl
    · rw [run_step hr] at h
      obtain ⟨r1, hr1, h⟩ := bind_eq_ok.1 h
      exact (hstep hr1).trans (ih h)

end Runs

end Reader

/-! ## Readers inside groups -/

/-- Open groups that differ in their numbers alone. -/
structure OpenGroup.Renumbered (ok : Nat → Prop) (o o' : OpenGroup) : Prop where
  outer : o.outer.Renumbered ok o'.outer
  flags : o'.flags = o.flags
  index : Option.Rel (fun _ j => ok j) o.index o'.index

/-- `R` reads inside the groups `base`, with `more` behind, what `r` reads alone. -/
structure Reader.Inside (base : List OpenGroup) (bound : Nat) (names : List (String × Nat))
    (more : List Char) (r R : Reader) : Prop where
  flags : R.flags = r.flags
  contents : r.contents.Renumbered (bound < ·) R.contents
  opened : ∃ os, R.opened = os ++ base ∧ List.Forall₂ (OpenGroup.Renumbered (bound < ·)) r.opened os
  groups : bound ≤ R.groups
  /-- No group that was given a name alone. -/
  unnamed : r.names = []
  names : R.names = names
  rest : R.rest = r.rest ++ more

namespace Reader.Inside

variable {base : List OpenGroup} {bound : Nat} {names : List (String × Nat)} {more cs : List Char}
  {r r' R R' : Reader} {p q : Pattern}

theorem push (h : Inside base bound names more r R) (hp : p.Renumbered (bound < ·) q) :
    Inside base bound names more (r.push p cs) (R.push q (cs ++ more)) :=
  ⟨h.flags, h.contents.push hp, h.opened, h.groups, h.unnamed, h.names, rfl⟩

theorem one (s : CharSet) : (Pattern.one s).Renumbered (bound < ·) (.one s) := .one s

theorem literal_eq (h : Inside base bound names more r R) (c : Char) :
    R.literal c = r.literal c := by
  simp only [literal, h.flags]

theorem caret_eq (h : Inside base bound names more r R) : R.caret = r.caret := by
  simp only [caret, h.flags]

theorem dollar_eq (h : Inside base bound names more r R) : R.dollar = r.dollar := by
  simp only [dollar, h.flags]

theorem dot_eq (h : Inside base bound names more r R) : R.dot = r.dot := by
  simp only [dot, h.flags]

theorem pushLiteral (h : Inside base bound names more r R) (c : Char) :
    Inside base bound names more (r.push (r.literal c) cs) (R.push (R.literal c) (cs ++ more)) := by
  rw [h.literal_eq]
  exact h.push (.one _)

theorem pushAtom (h : Inside base bound names more r R) (a : Atom) :
    Inside base bound names more (r.pushAtom a cs) (R.pushAtom a (cs ++ more)) := by
  cases a with
  | literal c => exact h.pushLiteral c
  | set s => exact h.push (.one s)
  | position a => exact h.push (.check a)

theorem alternate (h : Inside base bound names more r R) :
    Inside base bound names more { r with contents := r.contents.alternate, rest := cs }
      { R with contents := R.contents.alternate, rest := cs ++ more } :=
  ⟨h.flags, h.contents.alternate, h.opened, h.groups, h.unnamed, h.names, rfl⟩

theorem openGroup (h : Inside base bound names more r R) {i j : Option Nat}
    (hij : Option.Rel (fun _ j => bound < j) i j) {f g : Flags} (hg : g = f)
    (hr : r.openGroup i f cs = .ok r') (hR : R.openGroup j g (cs ++ more) = .ok R') :
    Inside base bound names more r' R' := by
  subst hg
  obtain ⟨os, hos, hopened⟩ := h.opened
  obtain rfl := openGroup_eq hr
  obtain rfl := openGroup_eq hR
  exact ⟨rfl, .empty, ⟨_ :: os, by rw [hos, List.cons_append],
    .cons ⟨h.contents, h.flags, hij⟩ hopened⟩, h.groups, h.unnamed, h.names, rfl⟩

theorem openCapture (h : Inside base bound names more r R) (hr : r.openCapture cs = .ok r')
    (hR : R.openCapture (cs ++ more) = .ok R') : Inside base bound names more r' R' := by
  have counted : Inside base bound names more { r with groups := r.groups + 1 }
      { R with groups := R.groups + 1 } :=
    ⟨h.flags, h.contents, h.opened, Nat.le_succ_of_le h.groups, h.unnamed, h.names, h.rest⟩
  unfold Reader.openCapture at hr hR
  exact counted.openGroup (.some (Nat.lt_succ_of_le h.groups)) h.flags hr hR

end Reader.Inside

/-! ## Readers outside all groups -/

namespace Reader

/-- A reader outside all groups and without flags, that has read the given patterns. -/
structure Top (ps : List Pattern) (names : List (String × Nat)) (rest : List Char)
    (r : Reader) : Prop where
  flags : r.flags = {}
  contents : r.contents = ⟨(ps.map (Item.part · true)).reverse, []⟩
  opened : r.opened = []
  names_eq : r.names = names
  groups : ∀ m ∈ names, m.2 ≤ r.groups
  rest_eq : r.rest = rest

/-- The reader inside a new group with a name. -/
def entered (r : Reader) (name : String) (rest : List Char) : Reader :=
  { r with
    contents := .empty, opened := [⟨r.contents, r.flags, some (r.groups + 1)⟩],
    groups := r.groups + 1, names := (name, r.groups + 1) :: r.names, rest }

namespace Top

variable {ps : List Pattern} {names : List (String × Nat)} {rest : List Char} {r : Reader}

theorem start (cs : List Char) : Top [] [] cs (.start cs) := ⟨rfl, rfl, rfl, rfl, by simp, rfl⟩

theorem push (h : Top ps names rest r) (p : Pattern) (tail : List Char) :
    Top (ps ++ [p]) names tail (r.push p tail) :=
  ⟨h.flags, by simp [Reader.push, Contents.push, h.contents], h.opened, h.names_eq, h.groups, rfl⟩

theorem literal_eq (h : Top ps names rest r) (c : Char) : r.literal c = .char c := by
  simp [Reader.literal, h.flags, CharSet.foldIf, Pattern.char]

theorem contents_close (h : Top ps names rest r) : r.contents.close = .concat ps := by
  have hitems : ((ps.map (Item.part · true)).reverse.filterMap Item.pattern?).reverse = ps := by
    rw [List.filterMap_reverse, List.reverse_reverse, List.filterMap_map]
    exact List.filterMap_some
  rw [h.contents, Contents.close, Contents.branch]
  simp only [hitems]
  rfl

/-- At the end of an expression, only its size can be in the way. -/
theorem ofReader (h : Top ps names [] r) : Expression.ofReader r =
    if sizeLimit < (concat ps).size then .error .tooLarge else .ok ⟨concat ps, names⟩ := by
  unfold Expression.ofReader
  simp only [h.opened, h.contents_close, h.names_eq]
  rfl

/-- What has been read at the end of an expression. -/
theorem ofReader_eq {e : Expression} (h : Top ps names [] r) (he : Expression.ofReader r = .ok e) :
    e = ⟨.concat ps, names⟩ := by
  obtain ⟨-, rfl, -⟩ := Expression.ofReader_eq_ok he
  rw [h.contents_close, h.names_eq]

/-- In a new group, an expression is read that is read alone. -/
theorem inside (h : Top ps names rest r) (name : String) (cs more : List Char) :
    Inside [⟨r.contents, r.flags, some (r.groups + 1)⟩] (r.groups + 1)
      ((name, r.groups + 1) :: names) more (.start cs) (r.entered name (cs ++ more)) :=
  ⟨h.flags, .empty, ⟨[], rfl, .nil⟩, Nat.le_refl _, rfl, by simp [entered, h.names_eq], rfl⟩

/-- Behind the group, its contents have been read. -/
theorem leave {name : String} {i : Nat} {R : Reader} (h : Top ps names rest r)
    (hi : i = r.groups + 1) (hnames : R.names = (name, i) :: names) (hgroups : i ≤ R.groups)
    (tail : List Char) :
    Top (ps ++ [.group i R.contents.close]) ((name, i) :: names) tail
      { R with flags := {}, contents := r.contents.push (.group i R.contents.close), opened := [],
               rest := tail } := by
  refine ⟨rfl, by simp [Contents.push, h.contents], rfl, hnames, fun m hm => ?_, rfl⟩
  rcases List.mem_cons.1 hm with rfl | hm
  · exact hgroups
  · have hlt : m.2 ≤ i := hi ▸ Nat.le_succ_of_le (h.groups m hm)
    exact hlt.trans hgroups

end Top

end Reader

end Stencil.Pattern
