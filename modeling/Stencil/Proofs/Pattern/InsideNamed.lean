import Stencil.Proofs.Pattern.InsidePlain

/-!
# Reading named groups inside a group

The names of the groups of an expression are looked at for one thing, that none of them stands
twice. A reader that remembers no names goes on like one that does (`stepUnnamed_of_step`), and what
it reads from an expression alone it reads from it inside a group of a longer expression, also where
the expression names groups (`run_unnamed_alike`).
-/

namespace Stencil.Pattern.Reader

variable {base : List OpenGroup} {bound : Nat} {more cs : List Char} {r r' R R' : Reader}

/-- The reader without the names of groups. -/
def unnamed (r : Reader) : Reader := { r with names := [] }

@[simp] theorem flags_unnamed (r : Reader) : r.unnamed.flags = r.flags := rfl

@[simp] theorem rest_unnamed (r : Reader) : r.unnamed.rest = r.rest := rfl

@[simp] theorem opened_unnamed (r : Reader) : r.unnamed.opened = r.opened := rfl

theorem unnamed_of_names (h : r.names = []) : r.unnamed = r := by
  cases r
  cases h
  rfl

/-- Reads one sign of an expression and forgets the names of groups. -/
def stepUnnamed (r : Reader) : Except Fault Reader := (step r.unnamed).map unnamed

/-! ## Names are looked at nowhere else -/

theorem openGroup_unnamed {i : Option Nat} {f : Flags} (h : r.openGroup i f cs = .ok r') :
    r.unnamed.openGroup i f cs = .ok r'.unnamed := by
  unfold openGroup at h ⊢
  split at h
  · cases h
  · next hdepth =>
    cases h
    exact if_neg hdepth

theorem openCapture_unnamed (h : r.openCapture cs = .ok r') :
    r.unnamed.openCapture cs = .ok r'.unnamed :=
  openGroup_unnamed (r := { r with groups := r.groups + 1 }) h

/-- A group with a name opens like one without, whatever stands behind. -/
theorem openNamed_eq_ok (h : r.openNamed cs = .ok r') :
    ∃ rest, r.unnamed.openCapture rest = .ok r'.unnamed ∧
      ∀ R : Reader, R.names = [] → ∀ more, (R.openNamed (cs ++ more)).map unnamed =
        R.openCapture (rest ++ more) := by
  unfold openNamed at h
  simp only at h
  split at h
  · next d rest c name hdrop htake =>
    have hbehind := takeWhile_append_of_dropWhile hdrop
    split at h
    · cases h
    · next hchars =>
      split at h
      · cases h
      · refine ⟨rest, ?_, fun R hR more => ?_⟩
        · have hopen := openCapture_unnamed h
          exact hopen
        · unfold openNamed
          simp only [hbehind, htake, hR, List.cons_append, List.lookup_nil, Option.isSome_none]
          rw [if_neg hchars, if_neg Bool.false_ne_true]
          simp only [openCapture, openGroup]
          split
          · rfl
          · simp [Except.map, unnamed, hR]
  · cases h

theorem repeatLast_unnamed {min : Nat} {max : Option Nat} {lazy : Bool}
    (h : r.repeatLast min max lazy cs = .ok r') :
    r.unnamed.repeatLast min max lazy cs = .ok r'.unnamed := by
  unfold repeatLast at h ⊢
  have hcontents : r.unnamed.contents = r.contents := rfl
  rw [hcontents]
  split at h
  · cases h
    rfl
  · cases h

theorem readCounted_unnamed (h : r.readCounted cs = .ok r') :
    r.unnamed.readCounted cs = .ok r'.unnamed := by
  unfold readCounted at h ⊢
  obtain ⟨⟨min, ds⟩, hmin, h⟩ := bind_eq_ok.1 h
  refine bind_eq_ok.2 ⟨_, hmin, ?_⟩
  obtain ⟨⟨max, es⟩, hmax, h⟩ := bind_eq_ok.1 h
  refine bind_eq_ok.2 ⟨_, hmax, ?_⟩
  simp only at h ⊢
  split at h
  · split at h
    · cases h
    · next hordered =>
      rw [if_neg hordered]
      exact repeatLast_unnamed h
  · cases h

theorem closeGroup_unnamed (h : r.closeGroup cs = .ok r') :
    r.unnamed.closeGroup cs = .ok r'.unnamed := by
  simp only [closeGroup, opened_unnamed] at h ⊢
  split at h
  · cases h
  · cases h
    rfl

theorem readSetting_unnamed (h : r.readSetting cs = .ok r') :
    r.unnamed.readSetting cs = .ok r'.unnamed := by
  obtain ⟨⟨f, stop, bare, rest⟩, hflags, h⟩ := bind_eq_ok.1 h
  refine bind_eq_ok.2 ⟨(f, stop, bare, rest), hflags, ?_⟩
  simp only at h ⊢
  split at h
  · next hstop =>
    rw [if_pos hstop]
    exact openGroup_unnamed h
  · next hstop =>
    rw [if_neg hstop]
    split at h
    · cases h
    · next hbare =>
      rw [if_neg hbare]
      cases h
      rfl

theorem readGroup_unnamed (h : r.readGroup cs = .ok r') :
    (r.unnamed.readGroup cs).map unnamed = .ok r'.unnamed := by
  obtain ⟨hlook, h⟩ := readGroup_eq_ok h
  rw [readGroup_eq, flags_unnamed, if_neg (Bool.eq_false_iff.1 hlook)]
  cases hopening : (opening (r.flags.trim cs)).1 with
  | named =>
    rw [hopening] at h
    obtain ⟨rest, hopen, hnamed⟩ := openNamed_eq_ok h
    have heq := hnamed r.unnamed rfl []
    rw [List.append_nil, List.append_nil] at heq
    exact heq.trans hopen
  | setting =>
    rw [hopening] at h
    exact congrArg _ (readSetting_unnamed h)
  | capture =>
    rw [hopening] at h
    exact congrArg _ (openCapture_unnamed h)

/-- Where no names are remembered, a reader goes on in the same way. -/
theorem stepUnnamed_of_step (h : step r = .ok r') : stepUnnamed r = .ok r'.unnamed := by
  have same : ∀ {x : Except Fault Reader}, x = .ok r'.unnamed → x.map unnamed = .ok r'.unnamed := by
    rintro _ rfl
    rfl
  simp only [stepUnnamed, step, flags_unnamed, rest_unnamed] at h ⊢
  split at h
  · cases h
    rfl
  · unfold readSign at h ⊢
    split at h
    · exact readGroup_unnamed h
    · exact same (closeGroup_unnamed h)
    · cases h
      rfl
    · obtain ⟨⟨s, cs⟩, hs, h⟩ := bind_eq_ok.1 h
      cases h
      simp only [flags_unnamed, hs]
      rfl
    · exact same (repeatLast_unnamed h)
    · exact same (repeatLast_unnamed h)
    · exact same (repeatLast_unnamed h)
    · exact same (readCounted_unnamed h)
    · obtain ⟨⟨a, cs⟩, ha, h⟩ := bind_eq_ok.1 h
      cases h
      simp only [flags_unnamed, ha]
      cases a <;> rfl
    · obtain ⟨p, hp, h⟩ := bind_eq_ok.1 h
      have hdot : r.unnamed.dot = .ok p := hp
      cases h
      simp only [hdot]
      rfl
    all_goals
      cases h
      rfl

theorem run_unnamed {n : Nat} (h : run step n r = .ok r') :
    run stepUnnamed n r.unnamed = .ok r'.unnamed := by
  induction n generalizing r with
  | zero =>
    cases h
    rfl
  | succ n ih =>
    by_cases hrest : r.rest = []
    · rw [run_end hrest] at h
      cases h
      exact run_end hrest
    · rw [run_step hrest] at h
      obtain ⟨r1, hr1, h⟩ := bind_eq_ok.1 h
      have hfirst := stepUnnamed_of_step hr1
      rw [run_step (r := r.unnamed) hrest]
      exact bind_eq_ok.2 ⟨_, hfirst, ih h⟩

/-! ## Inside of groups -/

/-- A step adds no name, or opens a group with one. -/
theorem step_names_or (h : step r = .ok r') :
    r'.names = r.names ∨ ∃ ds, NamesGroup r.flags r.rest ds ∧ r.openNamed ds = .ok r' := by
  cases step_does h with
  | name name cs hnamed => exact .inr ⟨_, hnamed, hnamed.step_eq ▸ h⟩
  | _ => exact .inl rfl

theorem NamesGroup.append {f : Flags} {cs ds : List Char} (h : NamesGroup f cs ds)
    (hmore : ∃ cs, more = ')' :: cs) : NamesGroup f (cs ++ more) (ds ++ more) := by
  obtain ⟨es, hes, hlook, hds⟩ := h
  have hne : f.trim es ≠ [] := by
    rcases hds with hds | hds <;> rw [hds] <;> exact List.cons_ne_nil _ _
  refine ⟨es ++ more, ?_, ?_, ?_⟩
  · rw [Flags.trim_append fun _ => hes ▸ List.cons_ne_nil _ _, hes]
    rfl
  · rw [Flags.trim_append fun _ => hne, looksAround_append hmore, hlook]
  · rw [Flags.trim_append fun _ => hne]
    exact hds.imp (fun h => by rw [h]; rfl) fun h => by rw [h]; rfl

/-- One step of an expression that may name groups. -/
theorem stepUnnamed_alike (hr : stepUnnamed r = .ok r') (hon : r'.opened ≠ [] → r'.GoesOn) :
    StepsAlike (· = []) stepUnnamed r r' := by
  have forgets : ∀ {x y : Reader}, x.names = [] → stepUnnamed x = .ok y → ∃ z,
      step x = .ok z ∧ z.unnamed = y := by
    intro x y hx hy
    rw [stepUnnamed, unnamed_of_names hx] at hy
    cases hz : step x with
    | error fault => simp [hz, Except.map] at hy
    | ok z =>
      rw [hz] at hy
      exact ⟨z, rfl, Except.ok.inj hy⟩
  by_cases hnames : r.names = []
  case neg => exact .inl fun base bound names more R R' _ h => absurd h.unnamed hnames
  obtain ⟨r1, hr1, rfl⟩ := forgets hnames hr
  rcases step_names_or hr1 with hsame | ⟨ds, hnamed, hopen⟩
  · have hnames1 : r1.names = [] := hsame.trans hnames
    rw [unnamed_of_names hnames1] at hon ⊢
    refine (step_alike hr1 hnames1 hon).imp (fun hstep base bound names more R R' hnone h hR => ?_)
      fun ⟨hf, hrest, hstep⟩ => ⟨hf, hrest, fun base bound names R R' hnone h hR => ?_⟩
    · subst hnone
      obtain ⟨R1, hR1, rfl⟩ := forgets h.names hR
      obtain ⟨R2, h2, hlast⟩ := hstep base bound [] more R R1 h hR1
      refine ⟨R2, h2, hlast.imp (fun heq => ?_) fun ⟨hrest, hlast⟩ =>
        ⟨hrest, stepUnnamed_of_step hlast⟩⟩
      rw [← heq, unnamed_of_names h2.names]
    · subst hnone
      obtain ⟨R1, hR1, rfl⟩ := forgets h.names hR
      exact hstep base bound [] R R1 h hR1
  · refine .inl fun base bound names more R R' hnone h hR => ⟨R', ?_, .inl rfl⟩
    subst hnone
    obtain ⟨rest, hr1, hR1⟩ := openNamed_eq_ok hopen
    rw [unnamed_of_names hnames] at hr1
    have hstep : step R = R.openNamed (ds ++ ')' :: more) := by
      refine NamesGroup.step_eq ?_
      rw [h.flags, h.rest]
      exact hnamed.append ⟨more, rfl⟩
    rw [stepUnnamed, unnamed_of_names h.names, hstep, hR1 R h.names] at hR
    exact h.openCapture hr1 hR

/-- An expression is read as a pattern in every group, the names of its own groups forgotten. -/
def ReadsNamed (regex : String) (p : Pattern) : Prop :=
  ∀ base bound more k R R', Inside base bound [] (')' :: more) (.start regex.toList) R →
    run stepUnnamed (regex.toList.length + 1 + k) R = .ok R' →
      ∃ m R1, k ≤ m ∧ Filled base bound [] more p R1 ∧ run stepUnnamed m R1 = .ok R'

/-- What is read alone to where no group is left is read in every group, unless it ends in a
comment. -/
theorem run_unnamed_alike {regex : String}
    (hr : run step (regex.toList.length + 1) (.start regex.toList) = .ok r) (hrest : r.rest = [])
    (hopened : r.opened = []) :
    ReadsNamed regex r.contents.close ∨ (r.flags.ignoreSpace = true ∧ ∀ base bound k R R',
      Inside base bound [] [')', '$'] (.start regex.toList) R →
        run stepUnnamed (regex.toList.length + 1 + k) R = .ok R' → ∃ os,
          R'.opened = os ++ base) := by
  have hclean : ∀ {x x1 : Reader} {n}, stepUnnamed x = .ok x1 →
      run stepUnnamed n x1 = .ok r.unnamed → x1.names = [] := by
    intro x x1 n hx _
    rw [stepUnnamed] at hx
    cases hy : step x.unnamed with
    | error fault => simp [hy, Except.map] at hx
    | ok y =>
      rw [hy] at hx
      cases hx
      rfl
  have hrun : run stepUnnamed (regex.toList.length + 1) (.start regex.toList) = .ok r.unnamed :=
    run_unnamed hr
  have hstep : ∀ {x x' : Reader}, stepUnnamed x = .ok x' → x'.names = [] →
      (x'.opened ≠ [] → x'.GoesOn) → StepsAlike (· = []) stepUnnamed x x' := fun hx _ =>
      stepUnnamed_alike hx
  refine (runs_alike hstep hclean hrun hopened).imp
    (fun hinside base bound more k R R' h hR => ?_) fun ⟨hf, hcomment⟩ =>
    ⟨hf, fun base bound k R R' h hR => ?_⟩
  · obtain ⟨m, R1, hm, h1, hR⟩ := hinside base bound [] more k R R' rfl h hR
    exact ⟨m, R1, hm, h1.filled hrest hopened, hR⟩
  · exact hcomment base bound [] k R R' rfl h hR

end Stencil.Pattern.Reader
