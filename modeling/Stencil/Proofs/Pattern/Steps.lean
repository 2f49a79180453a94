import Stencil.Proofs.Pattern.Inside

/-!
# What a step of reading does

A step adds a part, repeats the last one, begins an alternative, sets flags, or opens or closes a
group (`step_does`). What a step preserves follows from this by a case for each of them. What the
beginning of a group does depends on its first signs alone (`opening`, `readGroup_eq`).
-/

namespace Stencil.Pattern.Reader

variable {r r' : Reader} {cs : List Char}

/-- A group with a name begins here. -/
def NamesGroup (f : Flags) (cs ds : List Char) : Prop :=
  ∃ es, f.trim cs = '(' :: es ∧ looksAround (f.trim es) = false ∧
    (f.trim es = '?' :: 'P' :: '<' :: ds ∨ f.trim es = '?' :: '<' :: ds)

theorem NamesGroup.step_eq {ds : List Char} (h : NamesGroup r.flags r.rest ds) :
    step r = r.openNamed ds := by
  obtain ⟨es, hes, hlook, hds⟩ := h
  rw [step, hes]
  simp only [readSign, readGroup, hlook, Bool.false_eq_true, if_false]
  rcases hds with hds | hds <;> simp only [hds]

/-- What a step does to a reader. -/
inductive Does (r : Reader) : Reader → Prop
  /-- Goes over blanks to the end. -/
  | skip : Does r { r with rest := [] }
  | take (s : CharSet) (cs : List Char) : Does r (r.push (.one s) cs)
  | look (a : Assertion) (cs : List Char) : Does r (r.push (.check a) cs)
  | alternate (cs : List Char) : Does r { r with contents := r.contents.alternate, rest := cs }
  | repeatLast {p : Pattern} {fresh : Bool} {items : List Item} (min : Nat)
      (max : Option Nat) (greedy : Bool)
    (cs : List Char) : r.contents.items = .part p fresh :: items →
    Does r { r with
      contents := { r.contents with items := .part (.repeated p min max greedy) false :: items },
      rest := cs }
  | set (f : Flags) (cs : List Char) :
    Does r { r with
      flags := f, rest := cs,
      contents := { r.contents with items := .setting :: r.contents.items } }
  | enter (index : Option Nat) (f : Flags) (groups : Nat) (cs : List Char) :
    Does r { r with
      contents := .empty, opened := ⟨r.contents, r.flags, index⟩ :: r.opened, groups, flags := f,
      rest := cs }
  | name {ds : List Char} (name : String) (cs : List Char) : NamesGroup r.flags r.rest ds →
    r.openNamed ds = { r with names := (name, r.groups + 1) :: r.names }.openCapture cs →
    Does r { r with
      contents := .empty, opened := ⟨r.contents, r.flags, some (r.groups + 1)⟩ :: r.opened,
      groups := r.groups + 1, names := (name, r.groups + 1) :: r.names, rest := cs }
  | leave {o : OpenGroup} {opened : List OpenGroup} (p : Pattern) (cs : List Char) :
      r.opened = o :: opened →
    p = r.contents.close ∨ (∃ i, p = .group i r.contents.close) →
    Does r { r with contents := o.outer.push p, opened, flags := o.flags, rest := cs }

theorem openNamed_eq_openCapture (h : r.openNamed cs = .ok r') : ∃ name rest,
    r.openNamed cs = { r with names := (name, r.groups + 1) :: r.names }.openCapture rest := by
  unfold openNamed at h ⊢
  simp only at h ⊢
  split at h
  · split at h
    · cases h
    · next hname =>
      split at h
      · cases h
      · next hfresh => exact ⟨_, _, by rw [if_neg hname, if_neg hfresh]⟩
  · cases h

theorem repeatLast_does {min : Nat} {max : Option Nat} {lazy : Bool}
    (h : r.repeatLast min max lazy cs = .ok r') : Does r r' := by
  unfold repeatLast at h
  split at h
  · next hitems =>
    cases h
    exact .repeatLast _ _ _ _ hitems
  · cases h

theorem readCounted_does (h : r.readCounted cs = .ok r') : Does r r' := by
  unfold readCounted at h
  obtain ⟨⟨min, ds⟩, -, h⟩ := bind_eq_ok.1 h
  obtain ⟨⟨max, es⟩, -, h⟩ := bind_eq_ok.1 h
  simp only at h
  split at h
  · split at h
    · cases h
    · exact repeatLast_does h
  · cases h

/-! ## Groups -/

/-- Reads the flags of a group behind its question mark. -/
def readSetting (r : Reader) (cs : List Char) : Except Fault Reader := do
  let (flags, stop, bare, rest) ← readFlags r.flags [] true false cs
  if stop = ':' then r.openGroup none flags rest
  else if bare then throw .nothingToRepeat
  else return { r with
    flags, rest, contents := { r.contents with items := .setting :: r.contents.items } }

/-- What stands behind the parenthesis of a group. -/
inductive Opening
  | named
  | setting
  | capture

/-- Reads on behind the signs that tell what a group is. -/
def Opening.read : Opening → Reader → List Char → Except Fault Reader
  | named => openNamed
  | setting => readSetting
  | capture => openCapture

/-- What a group is by its first signs, and what stands behind these. -/
def opening : List Char → Opening × List Char
  | '?' :: 'P' :: '<' :: rest => (.named, rest)
  | '?' :: '<' :: rest => (.named, rest)
  | '?' :: rest => (.setting, rest)
  | cs => (.capture, cs)

theorem readGroup_eq (r : Reader) (cs : List Char) :
    r.readGroup cs =
      if looksAround (r.flags.trim cs) then .error .lookAround
      else (opening (r.flags.trim cs)).1.read r (opening (r.flags.trim cs)).2 := by
  unfold readGroup
  generalize r.flags.trim cs = ds
  refine if_congr Iff.rfl rfl ?_
  split
  · rfl
  · rfl
  · next hnamed hangle =>
    rw [opening]
    · rfl
    · exact hnamed
    · exact hangle
  · next hnamed hangle hquestion =>
    rw [opening]
    · rfl
    · exact hnamed
    · exact hangle
    · exact hquestion

theorem readGroup_eq_ok (h : r.readGroup cs = .ok r') :
    looksAround (r.flags.trim cs) = false ∧
      (opening (r.flags.trim cs)).1.read r (opening (r.flags.trim cs)).2 = .ok r' := by
  rw [readGroup_eq] at h
  split at h
  · cases h
  · next hlook => exact ⟨Bool.eq_false_iff.2 hlook, h⟩

theorem readSetting_eq (h : r.readSetting cs = .ok r') : ∃ f stop bare rest,
    readFlags r.flags [] true false cs = .ok (f, stop, bare, rest) ∧
      (r' = { r with
          contents := .empty, opened := ⟨r.contents, r.flags, none⟩ :: r.opened,
          flags := f, rest } ∨
        r' = { r with
          flags := f, rest, contents := { r.contents with
            items := .setting :: r.contents.items } }) := by
  obtain ⟨⟨f, stop, bare, rest⟩, hflags, h⟩ := bind_eq_ok.1 h
  simp only at h
  refine ⟨f, stop, bare, rest, hflags, ?_⟩
  split at h
  · exact .inl (openGroup_eq h)
  · split at h
    · cases h
    · cases h
      exact .inr rfl

theorem opening_eq_named (h : (opening cs).1 = .named) :
    cs = '?' :: 'P' :: '<' :: (opening cs).2 ∨ cs = '?' :: '<' :: (opening cs).2 := by
  unfold opening at h ⊢
  split at h
  · exact .inl rfl
  · exact .inr rfl
  · cases h
  · cases h

theorem readGroup_does (hrest : r.flags.trim r.rest = '(' :: cs) (h : r.readGroup cs = .ok r') :
    Does r r' := by
  obtain ⟨hlook, h⟩ := readGroup_eq_ok h
  cases hopening : (opening (r.flags.trim cs)).1 with
  | named =>
    rw [hopening] at h
    obtain ⟨name, rest, heq⟩ := openNamed_eq_openCapture h
    obtain rfl := openCapture_eq (heq.symm.trans h)
    exact .name name rest ⟨cs, hrest, hlook, opening_eq_named hopening⟩ heq
  | setting =>
    rw [hopening] at h
    obtain ⟨f, -, -, rest, -, rfl | rfl⟩ := readSetting_eq h
    · exact .enter ..
    · exact .set ..
  | capture =>
    rw [hopening] at h
    rw [openCapture_eq h]
    exact .enter ..

theorem closeGroup_does (h : r.closeGroup cs = .ok r') : Does r r' := by
  unfold closeGroup at h
  split at h
  · cases h
  · next o opened hopened =>
    cases h
    refine .leave _ _ hopened ?_
    cases o.index with
    | none => exact .inl rfl
    | some i => exact .inr ⟨i, rfl⟩

theorem pushAtom_does (r : Reader) (a : Atom) (cs : List Char) : Does r (r.pushAtom a cs) := by
  cases a with
  | literal c => exact .take ..
  | set s => exact .take ..
  | position a => exact .look ..

/-- A step does one of these things. -/
theorem step_does (h : step r = .ok r') : Does r r' := by
  unfold step at h
  split at h
  · cases h
    exact .skip
  next c cs hcs =>
  unfold readSign at h
  split at h
  · exact readGroup_does hcs h
  · exact closeGroup_does h
  · cases h
    exact .alternate _
  · obtain ⟨⟨s, cs⟩, -, h⟩ := bind_eq_ok.1 h
    cases h
    exact .take s cs
  · exact repeatLast_does h
  · exact repeatLast_does h
  · exact repeatLast_does h
  · exact readCounted_does h
  · obtain ⟨⟨a, cs⟩, -, h⟩ := bind_eq_ok.1 h
    cases h
    exact pushAtom_does r a cs
  · obtain ⟨p, hp, h⟩ := bind_eq_ok.1 h
    obtain ⟨s, rfl⟩ := dot_eq hp
    cases h
    exact .take s _
  · cases h
    exact .look ..
  · cases h
    exact .look ..
  · cases h
    exact .take ..

/-- A step adds no name but that of a group. -/
theorem step_names (h : step r = .ok r') : r.names <:+ r'.names := by
  cases step_does h with
  | name name cs => exact List.suffix_cons _ _
  | _ => exact List.suffix_rfl

end Stencil.Pattern.Reader
