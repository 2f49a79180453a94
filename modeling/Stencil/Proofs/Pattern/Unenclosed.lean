import Stencil.Proofs.Pattern.Enclosed

/-!
# From between anchors to alone

A reader between anchors goes on like the reader of the expression alone (`Reader.step_parted`),
until this meets a parenthesis that closes no group, or the parenthesis of the anchors is taken as
part of something else; then the group of the anchors stays open to the end. So what gets over the
anchors is read alone with the same contents, or closes a group that it has not opened
(`Reader.run_within`).
-/

namespace Stencil.Pattern.Reader

variable {o : OpenGroup} {r r' R R' : Reader} {cs : List Char}

/-- The reader in a group of its own, with the end of the anchors behind. -/
def within (o : OpenGroup) (r : Reader) : Reader :=
  { r with opened := r.opened ++ [o], rest := r.rest ++ [')', '$'] }

/-- How far a reader between anchors gets with a sign, where that of the expression alone comes to
`x`. -/
inductive Parted (o : OpenGroup) : (x : Except Fault Reader) → Reader → Prop
  | alike (r : Reader) : Parted o (.ok r) (r.within o)
  /-- The expression closes a group that it has not opened. -/
  | unopened (R : Reader) : Parted o (.error .unopenedGroup) R
  /-- The parenthesis of the anchors is gone, and their group still open. -/
  | taken (x : Except Fault Reader) {R : Reader} : R.rest <:+ ['$'] → R.opened ≠ [] → Parted o x R
  /-- A brace is left in front of the end of the anchors, which counts no rounds. -/
  | stuck (x : Except Fault Reader) {R : Reader} {inner : List Char} : R.rest = '{' :: inner →
    R.flags.trim inner = [')', '$'] → Parted o x R

theorem opened_within_ne_nil (o : OpenGroup) (r : Reader) :
    (r.within o).opened ≠ [] := by simp [within]

/-! ## Repetitions -/

section Repetitions

variable {f : Flags} {rest : List Char} {min max : Option Nat} {m : Nat} {lazy : Bool}

theorem repeatLast_parted (h : (r.within o).repeatLast m max lazy (cs ++ [')', '$']) = .ok R) :
    Parted o (r.repeatLast m max lazy cs) R := by
  unfold repeatLast at h
  split at h
  · next p fresh items hitems =>
    cases h
    have hitems : r.contents.items = .part p fresh :: items := hitems
    rw [repeatLast, hitems]
    exact .alike _
  · cases h

/-- A repetition that takes the parenthesis of the anchors leaves their group open. -/
theorem repeatLast_taken {x : Except Fault Reader}
    (h : (r.within o).repeatLast m max lazy cs = .ok R) (hcs : cs <:+ ['$']) : Parted o x R := by
  obtain ⟨-, hopened, hrest⟩ := repeatLast_eq h
  exact .taken x (hrest ▸ hcs) (hopened ▸ opened_within_ne_nil o r)

/-- No count goes on over a parenthesis. -/
theorem readCount_enclosed {n : Option Nat} (h : readCount f (cs ++ [')', '$']) = .ok (n, rest)) :
    ∃ ds, rest = ds ++ [')', '$'] ∧ readCount f cs = .ok (n, ds) := by
  have hspace : Unicode.isSpace ')' = false := by decide
  have hinside : (((')' : Char).isDigit) || (f.ignoreSpace && Unicode.isSpace ')')) = false := by
    rw [hspace, Bool.and_false]
    rfl
  have blanks := fun cs => (takeWhile_append_stop hspace cs ['$']).2
  have counted := fun cs => takeWhile_append_stop (p := fun c => c.isDigit ||
    (f.ignoreSpace && Unicode.isSpace c)) hinside cs ['$']
  simp only [readCount, blanks, counted] at h ⊢
  split at h
  · next hempty =>
    cases h
    exact ⟨_, rfl, if_pos hempty⟩
  · next hempty =>
    rw [if_neg hempty]
    split at h
    · cases h
    · next hlimit =>
      cases h
      exact ⟨_, rfl, if_neg hlimit⟩

theorem readUpper_enclosed (h : readUpper f min (cs ++ [')', '$']) = .ok (max, rest)) :
    ∃ ds, rest = ds ++ [')', '$'] ∧ readUpper f min cs = .ok (max, ds) := by
  cases cs with
  | nil =>
    cases h
    exact ⟨[], rfl, rfl⟩
  | cons c cs =>
    by_cases hc : c = ','
    case neg =>
      rw [List.cons_append, readUpper] at h
      · cases h
        refine ⟨c :: cs, rfl, ?_⟩
        rw [readUpper]
        exact fun ds heq => hc (List.cons.inj heq).1
      · exact fun ds heq => hc (List.cons.inj heq).1
    subst hc
    simp only [List.cons_append, readUpper] at h ⊢
    have hempty : readCount f [] = .ok (none, []) := by simp [readCount]
    rcases f.trim_enclosed cs with htrim | htrim
    case inr =>
      simp only [htrim, hempty] at h
      cases h
    rw [htrim] at h
    split at h
    · next es heq =>
      obtain ⟨es, hes, rfl⟩ := exists_of_append_eq ['\x7d'] (by decide) heq
      cases h
      exact ⟨'\x7d' :: es, rfl, by simp only [hes, List.cons_append, List.nil_append]⟩
    · next hbrace =>
      obtain ⟨⟨m, es⟩, hm, h⟩ := bind_eq_ok.1 h
      obtain ⟨es, rfl, halone⟩ := readCount_enclosed hm
      simp only at h
      split at h
      · cases h
      · next hsome =>
        cases h
        refine ⟨es, rfl, ?_⟩
        split
        · next ds heq => exact absurd (by rw [heq]; rfl) (hbrace (ds ++ [')', '$']))
        · refine bind_eq_ok.2 ⟨_, halone, ?_⟩
          simp only [if_neg hsome]
          rfl

theorem readCounted_parted (h : (r.within o).readCounted (cs ++ [')', '$']) = .ok R) :
    Parted o (r.readCounted cs) R := by
  unfold readCounted at h ⊢
  have hflags : (r.within o).flags = r.flags := rfl
  rw [hflags] at h
  rcases r.flags.trim_enclosed cs with htrim | htrim
  case inr =>
    have hempty : readCount r.flags [] = .ok (none, []) := by simp [readCount]
    rw [htrim, hempty] at h
    cases h
  rw [htrim] at h
  obtain ⟨⟨min, ds⟩, hmin, hupper⟩ := bind_eq_ok.1 h
  obtain ⟨⟨max, es⟩, hmax, hrepeat⟩ := bind_eq_ok.1 hupper
  clear h hupper
  obtain ⟨ds, rfl, hcount⟩ := readCount_enclosed hmin
  obtain ⟨es, rfl, hupper⟩ := readUpper_enclosed hmax
  simp only [bind, Except.bind, hcount, hupper] at hrepeat ⊢
  split at hrepeat
  case h_2 => cases hrepeat
  next min es hes =>
  obtain ⟨es, rfl, rfl⟩ := exists_of_append_eq ['\x7d'] (by decide) hes
  simp only [List.cons_append, List.nil_append]
  split at hrepeat
  · cases hrepeat
  next hordered =>
  rw [if_neg hordered]
  rcases r.flags.trim_enclosed es with hlast | hlast
  · rw [hlast, takeLazy_append (.parenthesis ['$'])] at hrepeat
    exact repeatLast_parted hrepeat
  · rw [hlast] at hrepeat
    exact repeatLast_taken hrepeat List.nil_suffix

end Repetitions

/-! ## Groups -/

theorem openGroup_parted {i : Option Nat} {f : Flags}
    (h : (r.within o).openGroup i f (cs ++ [')', '$']) = .ok R) :
    Parted o (r.openGroup i f cs) R := by
  unfold openGroup at h
  split at h
  · cases h
  · next hdepth =>
    cases h
    have hdepth : ¬ maxDepth ≤ r.opened.length := fun hle => hdepth (by simp [within]; omega)
    rw [openGroup, if_neg hdepth]
    exact .alike _

theorem openCapture_parted (h : (r.within o).openCapture (cs ++ [')', '$']) = .ok R) :
    Parted o (r.openCapture cs) R :=
  openGroup_parted (r := { r with groups := r.groups + 1 }) h

theorem openNamed_parted (h : (r.within o).openNamed (cs ++ [')', '$']) = .ok R) :
    Parted o (r.openNamed cs) R := by
  unfold openNamed at h ⊢
  cases hdrop : cs.dropWhile (· ≠ '>') with
  | nil =>
    have hnone : (cs ++ [')', '$']).dropWhile (· ≠ '>') = [] := by
      rw [List.dropWhile_append, hdrop]
      decide
    simp only [hnone] at h
    cases h
  | cons d ds =>
    obtain ⟨htake, hbehind⟩ := takeWhile_append_of_dropWhile hdrop [')', '$']
    simp only [hbehind, htake, List.cons_append] at h ⊢
    generalize cs.takeWhile (· ≠ '>') = written at h ⊢
    cases written with
    | nil => cases h
    | cons c name =>
      have hnames : (r.within o).names = r.names := rfl
      simp only [hnames] at h ⊢
      split at h
      · cases h
      next hname =>
      rw [if_neg hname]
      split at h
      · cases h
      next hfresh =>
      rw [if_neg hfresh]
      exact openCapture_parted
        (r := { r with names := (.ofList (c :: name), r.groups + 1) :: r.names }) h

theorem readFlags_enclosed {f g : Flags} {seen rest : List Char}
    {on lastMinus bare : Bool} {stop : Char}
    (h : readFlags f seen on lastMinus (cs ++ [')', '$']) = .ok (g, stop, bare, rest)) :
    rest <:+ ['$'] ∨ ∃ ds, rest = ds ++ [')', '$'] ∧
    readFlags f seen on lastMinus cs = .ok (g, stop, bare, ds) := by
  induction cs generalizing f seen on lastMinus with
  | nil =>
    simp only [List.nil_append, readFlags] at h
    split at h
    · split at h
      · cases h
      · cases h
        exact .inl List.suffix_rfl
    · next hend => exact absurd (Or.inr trivial) hend
  | cons c cs ih =>
    simp only [readFlags, List.cons_append] at h ⊢
    split at h
    · next hend =>
      rw [if_pos hend]
      split at h
      · cases h
      · next hminus =>
        cases h
        exact .inr ⟨cs, rfl, if_neg hminus⟩
    next hend =>
    rw [if_neg hend]
    split at h
    · next hminus =>
      rw [if_pos hminus]
      split at h
      · next hon =>
        rw [if_pos hon]
        exact ih h
      · cases h
    next hminus =>
    rw [if_neg hminus]
    split at h
    · cases h
    next hseen =>
    rw [if_neg hseen]
    cases hset : f.set? c on with
    | none => simp [hset] at h
    | some f' =>
      simp only [hset] at h ⊢
      exact ih h

theorem readSetting_parted (h : (r.within o).readSetting (cs ++ [')', '$']) = .ok R) :
    Parted o (r.readSetting cs) R := by
  obtain ⟨⟨g, stop, bare, rest⟩, hg, h⟩ := bind_eq_ok.1 h
  have hflags : (r.within o).flags = r.flags := rfl
  rw [hflags] at hg
  simp only at h
  rcases readFlags_enclosed hg with htaken | ⟨ds, rfl, halone⟩
  · split at h
    · rw [openGroup_eq h]
      exact .taken _ htaken (List.cons_ne_nil _ _)
    · split at h
      · cases h
      · cases h
        exact .taken _ htaken (opened_within_ne_nil o r)
  · simp only [readSetting, halone, bind, Except.bind]
    split at h
    · next hstop =>
      rw [if_pos hstop]
      exact openGroup_parted h
    · next hstop =>
      rw [if_neg hstop]
      split at h
      · cases h
      · next hbare =>
        rw [if_neg hbare]
        cases h
        exact .alike _

theorem readGroup_parted (h : (r.within o).readGroup (cs ++ [')', '$']) = .ok R) :
    Parted o (r.readGroup cs) R := by
  have hflags : (r.within o).flags = r.flags := rfl
  rw [readGroup_eq, hflags] at h
  rcases r.flags.trim_enclosed cs with htrim | htrim
  case inr =>
    rw [htrim] at h
    have hopen : (r.within o).openCapture [] = .ok R := h
    rw [openCapture_eq hopen]
    exact .taken _ List.nil_suffix (List.cons_ne_nil _ _)
  rw [htrim, looksAround_append ⟨['$'], rfl⟩, opening_append ⟨['$'], rfl⟩] at h
  rw [readGroup_eq]
  split at h
  · cases h
  next hlook =>
  rw [if_neg hlook]
  cases hopening : (opening (r.flags.trim cs)).1 <;> rw [hopening] at h
  · exact openNamed_parted h
  · exact readSetting_parted h
  · exact openCapture_parted h

theorem closeGroup_parted (h : (r.within o).closeGroup (cs ++ [')', '$']) = .ok R) :
    Parted o (r.closeGroup cs) R := by
  cases hopened : r.opened with
  | nil =>
    rw [closeGroup, hopened]
    exact .unopened R
  | cons p ps =>
    simp only [closeGroup, within, hopened, List.cons_append] at h
    cases h
    rw [closeGroup, hopened]
    exact .alike _

/-! ## Signs -/

theorem pushAtom_within (o : OpenGroup) (r : Reader) (a : Atom) (cs : List Char) :
    (r.within o).pushAtom a (cs ++ [')', '$']) = (r.pushAtom a cs).within o := by
  cases a <;> rfl

theorem readSign_parted {c : Char} (h : (r.within o).readSign c (cs ++ [')', '$']) = .ok R) :
    Parted o (r.readSign c cs) R := by
  have hflags : (r.within o).flags = r.flags := rfl
  have hlazy := takeLazy_append (.parenthesis ['$']) cs
  unfold readSign at h ⊢
  split at h
  · exact readGroup_parted h
  · exact closeGroup_parted h
  · cases h
    exact .alike _
  · obtain ⟨⟨s, ds⟩, hs, h⟩ := bind_eq_ok.1 h
    obtain ⟨ds, rfl, halone⟩ := readBracket_enclosed hs
    rw [hflags] at halone
    cases h
    simp only [halone]
    exact .alike _
  · simp only [hlazy] at h
    exact repeatLast_parted h
  · simp only [hlazy] at h
    exact repeatLast_parted h
  · simp only [hlazy] at h
    exact repeatLast_parted h
  · exact readCounted_parted h
  · obtain ⟨⟨a, ds⟩, ha, h⟩ := bind_eq_ok.1 h
    cases h
    rcases readEscape_enclosed ha with htaken | ⟨ds, rfl, halone⟩ | ⟨⟨b, rfl⟩, inner, rfl, htrim⟩
    · obtain ⟨-, hopened, hrest⟩ := (r.within o).pushAtom_eq a ds
      refine .taken _ ?_ ?_
      · rwa [hrest]
      · rw [hopened]
        exact opened_within_ne_nil o r
    · rw [hflags] at halone
      simp only [halone, pushAtom_within]
      exact .alike _
    · exact .stuck _ rfl htrim
  · obtain ⟨p, hp, h⟩ := bind_eq_ok.1 h
    have halone : r.dot = .ok p := hp
    cases h
    simp only [halone]
    exact .alike _
  all_goals
    cases h
    exact .alike _

/-! ## Steps -/

/-- A step between anchors that goes over more than blanks. -/
theorem step_parted (hrest : r.flags.trim r.rest ≠ []) (h : step (r.within o) = .ok R) :
    Parted o (step r) R := by
  obtain ⟨c, cs, hcs⟩ := List.exists_cons_of_ne_nil hrest
  have hwithin : (r.within o).flags.trim (r.within o).rest = c :: (cs ++ [')', '$']) := by
    rw [← List.cons_append, ← hcs]
    exact Flags.trim_append fun _ => hrest
  unfold step at h ⊢
  rw [hwithin] at h
  rw [hcs]
  exact readSign_parted h

/-- The reader behind the group of the anchors. -/
def leave (o : OpenGroup) (r : Reader) : Reader :=
  { r with
    contents := o.outer.push (match o.index with
      | some index => .group index r.contents.close
      | none => r.contents.close)
    opened := [], flags := o.flags, rest := ['$'] }

/-- At the end of the expression the parenthesis closes the group of the anchors, if no other group
is open. -/
theorem step_end (hrest : r.flags.trim r.rest = []) (h : step (r.within o) = .ok R) :
    (r.opened = [] ∧ R = r.leave o) ∨ (R.rest <:+ ['$'] ∧ R.opened ≠ []) := by
  have htrim := r.flags.trim_enclosed r.rest
  rw [hrest, List.nil_append] at htrim
  rcases htrim with htrim | htrim
  · have hwithin : (r.within o).flags.trim (r.within o).rest = [')', '$'] := htrim
    unfold step at h
    rw [hwithin] at h
    have hclose : (r.within o).closeGroup ['$'] = .ok R := h
    cases hopened : r.opened with
    | nil =>
      simp only [closeGroup, within, hopened, List.nil_append] at hclose
      cases hclose
      exact .inl ⟨rfl, rfl⟩
    | cons p ps =>
      simp only [closeGroup, within, hopened, List.cons_append] at hclose
      cases hclose
      exact .inr ⟨List.suffix_rfl, by simp⟩
  · have hwithin : (r.within o).flags.trim (r.within o).rest = [] := htrim
    unfold step at h
    rw [hwithin] at h
    cases h
    exact .inr ⟨List.nil_suffix, opened_within_ne_nil o r⟩

/-- A dollar sign closes no group. -/
theorem run_taken {n : Nat} (hrest : R.rest <:+ ['$']) (h : run step n R = .ok R') :
    R'.opened = R.opened := by
  rcases List.suffix_cons_iff.1 hrest with hrest | hrest
  · cases n with
    | zero =>
      cases h
      rfl
    | succ n =>
      have hdollar : step R = .ok (R.push R.dollar []) := by
        unfold step
        rw [hrest, R.flags.trim_dollar]
        rfl
      rw [run_step (by simp [hrest]), hdollar] at h
      replace h : run step n (R.push R.dollar []) = .ok R' := h
      rw [run_end rfl] at h
      cases h
      rfl
  · rw [run_end (List.suffix_nil.1 hrest)] at h
    cases h
    rfl

/-- A brace in front of the end of the anchors counts no rounds. -/
theorem step_stuck {inner : List Char} (hrest : R.rest = '{' :: inner)
    (htrim : R.flags.trim inner = [')', '$']) : step R = .error .badRepetition := by
  have hspace : ¬ Unicode.isSpace '{' = true := by decide
  have hbrace : R.flags.trim R.rest = '{' :: inner := by
    simp [hrest, Flags.trim, skipBlanks, hspace]
  unfold step
  rw [hbrace]
  have hcounted : R.readCounted inner = .error .badRepetition := by
    have hspace : Unicode.isSpace ')' = false := by decide
    have hcount : readCount R.flags [')', '$'] = .ok (none, [')', '$']) := by
      simp [readCount, hspace]
    unfold readCounted
    rw [htrim, hcount]
    rfl
  exact hcounted

/-! ## Whole expressions -/

/-- Behind the group of the anchors, the dollar sign is read. -/
theorem run_leave {n : Nat} (h : run step n (r.leave o) = .ok R) (hrest : R.rest = []) :
    R = (r.leave o).push (r.leave o).dollar [] := by
  cases n with
  | zero =>
    cases h
    cases hrest
  | succ n =>
    have hdollar : step (r.leave o) = .ok ((r.leave o).push (r.leave o).dollar []) := by
      have htrim : (r.leave o).flags.trim (r.leave o).rest = ['$'] := Flags.trim_dollar _
      unfold step
      rw [htrim]
      rfl
    rw [run_step (List.cons_ne_nil _ _), hdollar] at h
    replace h : run step n ((r.leave o).push (r.leave o).dollar []) = .ok R := h
    rw [run_end rfl] at h
    exact (Except.ok.inj h).symm

/-- A reader of the expression alone goes over the blanks at its end. -/
theorem run_blanks {n : Nat} (hn : r.rest.length ≤ n) (hrest : r.flags.trim r.rest = []) :
    run step n r = .ok { r with rest := [] } := by
  by_cases hnil : r.rest = []
  · rw [run_end hnil]
    cases r
    cases hnil
    rfl
  · obtain ⟨n, rfl⟩ : ∃ k, n = k + 1 := ⟨n - 1, by have := List.length_pos_of_ne_nil hnil; omega⟩
    have hblanks : step r = .ok { r with rest := [] } := by
      unfold step
      rw [hrest]
    rw [run_step hnil, hblanks]
    exact run_end rfl

/-- What is read to behind the anchors is read alone with the same contents, or closes a group that
it has not opened. -/
theorem run_within {m n : Nat} (hn : r.rest.length ≤ n) (h : run step m (r.within o) = .ok R)
    (hrest : R.rest = []) (hopened : R.opened = []) : run step n r = .error .unopenedGroup ∨
      ∃ r', run step n r = .ok r' ∧ r'.opened = [] ∧
        R = (r'.leave o).push (r'.leave o).dollar [] := by
  induction m generalizing n r with
  | zero =>
    cases h
    exact absurd hopened (opened_within_ne_nil o r)
  | succ m ih =>
    rw [run_step (by simp [within])] at h
    obtain ⟨R1, hR1, h⟩ := bind_eq_ok.1 h
    have hclosed : ¬ (R1.rest <:+ ['$'] ∧ R1.opened ≠ []) := fun ⟨hshort, hne⟩ =>
      hne (run_taken hshort h ▸ hopened)
    by_cases hend : r.flags.trim r.rest = []
    · rcases step_end hend hR1 with ⟨hr, rfl⟩ | htaken
      · exact .inr ⟨{ r with rest := [] }, run_blanks hn hend, hr, run_leave h hrest⟩
      · exact absurd htaken hclosed
    have hne : r.rest ≠ [] := fun hnil => hend (hnil ▸ r.flags.trim_nil)
    obtain ⟨n, rfl⟩ : ∃ k, n = k + 1 := ⟨n - 1, by have := List.length_pos_of_ne_nil hne; omega⟩
    rw [run_step hne]
    have hparted := step_parted hend hR1
    have hlength : ∀ {r1}, step r = .ok r1 → r1.rest.length < r.rest.length := fun hr1 =>
      step_length hne hr1
    generalize step r = x at hparted hlength ⊢
    cases hparted with
    | alike r1 =>
      have hr1 := hlength rfl
      exact ih (by omega) h
    | unopened => exact .inl rfl
    | taken _ hshort hopen => exact absurd ⟨hshort, hopen⟩ hclosed
    | stuck _ hbrace htrim =>
      cases m with
      | zero =>
        cases h
        rw [hbrace] at hrest
        cases hrest
      | succ m =>
        rw [run_step (hbrace ▸ List.cons_ne_nil _ _), step_stuck hbrace htrim] at h
        cases h

end Stencil.Pattern.Reader
