import Stencil.Proofs.Pattern.Steps

/-!
# Reading an expression inside a group

What a reader reads from an expression alone, it reads from it inside a group of a longer expression
(`run_alike`), if no group and no name of it is left at its end. There is one exception: an
expression that ends in a comment does not, as the comment takes the parenthesis behind it.
`ReadsInside` says of an expression that it is read in every group, as is one that leaves no flag
that drops blanks (`readsInside_of_alone?`).
-/

namespace Stencil.Pattern.Reader

variable {base : List OpenGroup} {bound : Nat} {names : List (String × Nat)} {more cs : List Char}
  {r r' R R' : Reader}

/-- A reader has not come to the end of a text where blanks and comments are dropped. -/
def GoesOn (r : Reader) : Prop := r.flags.ignoreSpace = true → r.rest ≠ []

/-- What is read from `r` to `r'` is read inside of groups, by `g`, with a parenthesis behind,
unless it ends in a comment: this goes on over the parenthesis. -/
def GoesAlike (g : Reader → List Char → Except Fault Reader) (r r' : Reader) : Prop :=
  (∀ base bound names more R R', Inside base bound names (')' :: more) r R →
    g R (')' :: more) = .ok R' → Inside base bound names (')' :: more) r' R') ∨
  (r'.flags.ignoreSpace = true ∧ r'.rest = [] ∧ ∀ base bound names R R',
    Inside base bound names [')', '$'] r R → g R [')', '$'] = .ok R' →
      R'.opened = R.opened ∧ R'.rest = [])

/-! ## Repetitions -/

theorem repeatLast_eq {min : Nat} {max : Option Nat} {lazy : Bool}
    (h : r.repeatLast min max lazy cs = .ok r') :
    r'.flags = r.flags ∧ r'.opened = r.opened ∧ r'.rest = cs := by
  unfold repeatLast at h
  split at h
  · cases h
    exact ⟨rfl, rfl, rfl⟩
  · cases h

theorem repeatLast_inside (h : Inside base bound names more r R) {min : Nat}
    {max : Option Nat} {lazy : Bool} (hr : r.repeatLast min max lazy cs = .ok r')
    (hR : R.repeatLast min max lazy (cs ++ more) = .ok R') :
    Inside base bound names more r' R' := by
  have items := h.contents.items
  unfold repeatLast at hr hR
  split at hr
  case h_2 => cases hr
  next p fresh is hr_items =>
  rw [hr_items] at items
  cases hRis : R.contents.items with
  | nil => simp [hRis] at items
  | cons j js =>
    rw [hRis] at items hR
    cases items with
    | cons hi his =>
    cases hi with
    | part _ hp =>
    simp only [h.flags] at hR
    cases hr
    cases hR
    exact ⟨rfl, ⟨.cons (.part false (.repeated _ _ _ hp)) his, h.contents.branches⟩,
      h.opened, h.groups, h.unnamed, h.names, rfl⟩

theorem ne_nil_of_dropWhile {p : Char → Bool} (h : cs.dropWhile p ≠ []) : cs ≠ [] := by
  rintro rfl
  exact h rfl

theorem readCount_append {f : Flags} {n : Option Nat} {rest : List Char}
    (h : readCount f cs = .ok (n, rest)) (hrest : rest ≠ []) :
    readCount f (cs ++ more) = .ok (n, rest ++ more) := by
  have hresult : rest = ((cs.dropWhile Unicode.isSpace).dropWhile
      fun c => c.isDigit || (f.ignoreSpace && Unicode.isSpace c)).dropWhile Unicode.isSpace := by
    unfold readCount at h
    simp only at h
    split at h
    · cases h
      rfl
    · split at h <;> cases h
      rfl
  -- Each of the three runs ends before the end of the text.
  have hrest3 := hresult ▸ hrest
  have hrest2 := ne_nil_of_dropWhile hrest3
  obtain ⟨c1, t1, h1⟩ := List.exists_cons_of_ne_nil (ne_nil_of_dropWhile hrest2)
  rw [h1] at hrest3 hrest2
  obtain ⟨c2, t2, h2⟩ := List.exists_cons_of_ne_nil hrest2
  rw [h2] at hrest3
  obtain ⟨c3, t3, h3⟩ := List.exists_cons_of_ne_nil hrest3
  have run1 := takeWhile_append_of_dropWhile h1 more
  have run2 := takeWhile_append_of_dropWhile h2 more
  have run3 := takeWhile_append_of_dropWhile h3 more
  simp only [readCount, h1, h2, h3] at h
  simp only [readCount, run1.2, run2.1, run2.2, run3.2]
  split at h
  · next hempty =>
    cases h
    rw [if_pos hempty]
  · next hempty =>
    rw [if_neg hempty]
    split at h
    · cases h
    · next hlimit =>
      cases h
      rw [if_neg hlimit]

theorem readUpper_append {f : Flags} {min max : Option Nat} {rest : List Char}
    (h : readUpper f min cs = .ok (max, rest)) (hrest : rest ≠ []) :
    readUpper f min (cs ++ more) = .ok (max, rest ++ more) := by
  cases cs with
  | nil =>
    cases h
    exact absurd rfl hrest
  | cons c cs =>
    by_cases hc : c = ','
    · subst hc
      simp only [readUpper, List.cons_append] at h ⊢
      have hne : f.trim cs ≠ [] := by
        intro hnil
        have hnone : readCount f [] = .ok (none, []) := by simp [readCount]
        simp only [hnil, hnone] at h
        cases h
      rw [Flags.trim_append fun _ => hne]
      obtain ⟨d, ds, hds⟩ := List.exists_cons_of_ne_nil hne
      rw [hds] at h ⊢
      by_cases hd : d = '\x7d'
      · subst hd
        cases h
        rfl
      · split at h
        · next heq => exact absurd (List.cons.inj heq).1 hd
        · obtain ⟨⟨m, es⟩, hm, h⟩ := bind_eq_ok.1 h
          simp only at h
          split at h
          · cases h
          · next hsome =>
            cases h
            split
            · next heq => exact absurd (List.cons.inj heq).1 hd
            · refine bind_eq_ok.2 ⟨_, readCount_append hm hrest, ?_⟩
              simp only [if_neg hsome]
              rfl
    · simp only [readUpper, List.cons_append] at h ⊢
      split at h
      · next heq => exact absurd (List.cons.inj heq).1 hc
      · cases h
        split
        · next heq => exact absurd (List.cons.inj heq).1 hc
        · rfl

theorem readCounted_alike (hr : r.readCounted cs = .ok r') :
    GoesAlike (fun R more => R.readCounted (cs ++ more)) r r' := by
  unfold readCounted at hr
  obtain ⟨⟨min, ds⟩, hmin, hupper⟩ := bind_eq_ok.1 hr
  obtain ⟨⟨max, es⟩, hmax, hrepeat⟩ := bind_eq_ok.1 hupper
  clear hr hupper
  simp only at hmax hrepeat
  split at hrepeat
  case h_2 => cases hrepeat
  next min es =>
  have hds : ds ≠ [] := by
    rintro rfl
    cases hmax
  have hcs : r.flags.trim cs ≠ [] := by
    intro hnil
    rw [hnil] at hmin
    cases hmin
  split at hrepeat
  · cases hrepeat
  next hordered =>
  have hcounted : ∀ {base bound names more R R'}, Inside base bound names more r R →
      R.readCounted (cs ++ more) = .ok R' →
      R.repeatLast min max (takeLazy (r.flags.trim (es ++ more))).1
      (takeLazy (r.flags.trim (es ++ more))).2 =
        .ok R' := by
    intro base bound names more R R' h hR
    unfold readCounted at hR
    rw [h.flags, Flags.trim_append fun _ => hcs, readCount_append hmin hds] at hR
    simp only [bind, Except.bind, readUpper_append hmax (List.cons_ne_nil _ _),
      List.cons_append] at hR
    rwa [if_neg hordered] at hR
  obtain htrim | ⟨hf, hnil, hend⟩ := r.flags.trim_closing es
  · refine .inl fun base bound names more R R' h hR => ?_
    have hlast := hcounted h hR
    rw [htrim, takeLazy_append (.parenthesis more)] at hlast
    exact repeatLast_inside h hrepeat hlast
  · rw [hnil] at hrepeat
    obtain ⟨hflags, -, hrest⟩ := repeatLast_eq hrepeat
    refine .inr ⟨hflags ▸ hf, hrest, fun base bound names R R' h hR => ?_⟩
    have hlast := hcounted h hR
    rw [hend] at hlast
    exact (repeatLast_eq hlast).2

/-! ## Escape sequences -/

theorem pushAtom_eq (r : Reader) (a : Atom) (cs : List Char) :
    (r.pushAtom a cs).flags = r.flags ∧ (r.pushAtom a cs).opened = r.opened ∧
    (r.pushAtom a cs).rest = cs := by
  cases a <;> exact ⟨rfl, rfl, rfl⟩

theorem readEscape_alike {a : Atom} {ds : List Char} (ha : readEscape r.flags cs = .ok (a, ds)) :
    GoesAlike (fun R more => do
      let (a, ds) ← readEscape R.flags (cs ++ more)
      return R.pushAtom a ds) r (r.pushAtom a ds) := by
  have hpush : ∀ {base bound names more R R' ds'}, Inside base bound names more r R →
      readEscape r.flags (cs ++ more) = .ok (a, ds') →
      (do
        let (a, ds) ← readEscape R.flags (cs ++ more)
        return R.pushAtom a ds : Except Fault Reader) = .ok R' →
      R' = R.pushAtom a ds' := by
    intro base bound names more R R' ds' h hread hR
    rw [h.flags, hread] at hR
    cases hR
    rfl
  obtain hall | ⟨hf, rfl, hend⟩ := closing_readEscape ha
  · refine .inl fun base bound names more R R' h hR => ?_
    rw [hpush h (hall more) hR]
    exact h.pushAtom a
  · obtain ⟨hflags, -, hrest⟩ := r.pushAtom_eq a []
    refine .inr ⟨hflags ▸ hf, hrest, fun base bound names R R' h hR => ?_⟩
    rw [hpush h hend hR]
    exact (R.pushAtom_eq a []).2

/-! ## Groups -/

theorem readFlags_append {f g : Flags} {seen : List Char} {on lastMinus bare : Bool}
    {rest : List Char} {stop : Char}
    (h : readFlags f seen on lastMinus cs = .ok (g, stop, bare, rest)) :
    readFlags f seen on lastMinus (cs ++ more) = .ok (g, stop, bare, rest ++ more) := by
  induction cs generalizing f seen on lastMinus with
  | nil => cases h
  | cons c cs ih =>
    simp only [readFlags, List.cons_append] at h ⊢
    by_cases hend : c = ':' ∨ c = ')'
    · rw [if_pos hend] at h ⊢
      split at h
      · cases h
      · next hminus =>
        cases h
        rw [if_neg hminus]
    rw [if_neg hend] at h ⊢
    by_cases hminus : c = '-'
    · rw [if_pos hminus] at h ⊢
      cases on with
      | true => exact ih h
      | false => cases h
    rw [if_neg hminus] at h ⊢
    by_cases hseen : seen.contains c = true
    · rw [if_pos hseen] at h
      cases h
    rw [if_neg hseen] at h ⊢
    cases hset : f.set? c on with
    | none => simp [hset] at h
    | some f' =>
      simp only [hset] at h ⊢
      exact ih h

theorem closeGroup_inside (h : Inside base bound names more r R) (hr : r.closeGroup cs = .ok r')
    (hR : R.closeGroup (cs ++ more) = .ok R') : Inside base bound names more r' R' := by
  obtain ⟨os, hos, hopened⟩ := h.opened
  unfold closeGroup at hr hR
  rw [hos] at hR
  cases hropened : r.opened with
  | nil => simp [hropened] at hr
  | cons o opened =>
    rw [hropened] at hopened
    cases hopened with
    | @cons _ o' _ os' ho hopened =>
      simp only [hropened, List.cons_append] at hr hR
      have hindex := ho.index
      revert hindex hr hR
      cases o.index <;> cases o'.index <;> intro hr hR hindex <;>
        cases hindex <;> cases hr <;> cases hR
      · exact ⟨ho.flags, ho.outer.push h.contents.close, ⟨os', rfl, hopened⟩,
          h.groups, h.unnamed, h.names, rfl⟩
      · next hj =>
          exact ⟨ho.flags, ho.outer.push (.group hj h.contents.close), ⟨os', rfl, hopened⟩,
            h.groups, h.unnamed, h.names, rfl⟩

theorem openNamed_names (h : r.openNamed cs = .ok r') : r'.names ≠ [] := by
  unfold openNamed at h
  simp only at h
  split at h
  · split at h
    · cases h
    · split at h
      · cases h
      · rw [openCapture_eq h]
        exact List.cons_ne_nil _ _
  · cases h

theorem isPrefixOf_append {s : List Char} (hs : ')' ∉ s) (hmore : ∃ cs, more = ')' :: cs) :
    s.isPrefixOf (cs ++ more) = s.isPrefixOf cs := by
  obtain ⟨more, rfl⟩ := hmore
  induction s generalizing cs with
  | nil => simp
  | cons c s ih =>
    simp only [List.mem_cons, not_or] at hs
    cases cs with
    | nil =>
      have : (c == ')') = false := by simpa using fun h => hs.1 h.symm
      simp [List.isPrefixOf, this]
    | cons d cs => simp [List.isPrefixOf, ih hs.2]

theorem looksAround_append (hmore : ∃ cs, more = ')' :: cs) (cs : List Char) :
    looksAround (cs ++ more) = looksAround cs := by
  have h1 : ∀ s ∈ ["?=", "?!", "?<=", "?<!"], s.toList.isPrefixOf (cs ++ more) =
      s.toList.isPrefixOf cs := by
    intro s hs
    refine isPrefixOf_append ?_ hmore
    simp only [List.mem_cons, List.not_mem_nil, or_false] at hs
    rcases hs with rfl | rfl | rfl | rfl <;> decide
  simp only [looksAround, List.any_cons, List.any_nil, h1 "?=" (by simp), h1 "?!" (by simp),
    h1 "?<=" (by simp), h1 "?<!" (by simp)]

/-- What a group is does not change by what stands behind the parenthesis that closes it. -/
theorem opening_append (hmore : ∃ cs, more = ')' :: cs) (cs : List Char) :
    opening (cs ++ more) = ((opening cs).1, (opening cs).2 ++ more) := by
  obtain ⟨more, rfl⟩ := hmore
  fun_cases opening cs with
  | case1 => rfl
  | case2 => rfl
  | case3 rest hnamed hangle =>
    rw [List.cons_append, opening]
    · intro tail heq
      obtain ⟨ds, hds, -⟩ := exists_of_append_eq ['P', '<'] (by decide) heq
      exact hnamed ds hds
    · intro tail heq
      obtain ⟨ds, hds, -⟩ := exists_of_append_eq ['<'] (by decide) heq
      exact hangle ds hds
  | case4 _ _ _ hquestion =>
    have hnot : ∀ tail, cs ++ ')' :: more ≠ '?' :: tail := by
      intro tail heq
      obtain ⟨ds, hds, -⟩ := exists_of_append_eq ['?'] (by decide) heq
      exact hquestion ds hds
    rw [opening]
    · exact fun _ => hnot _
    · exact fun _ => hnot _
    · exact hnot

theorem readSetting_inside (h : Inside base bound names more r R) (hr : r.readSetting cs = .ok r')
    (hR : R.readSetting (cs ++ more) = .ok R') : Inside base bound names more r' R' := by
  obtain ⟨⟨f, stop, bare, rest⟩, hflags, hopen⟩ := bind_eq_ok.1 hr
  simp only [readSetting, h.flags, readFlags_append hflags, bind, Except.bind] at hopen hR
  split at hopen
  · next hstop =>
    rw [if_pos hstop] at hR
    exact h.openGroup .none rfl hopen hR
  · next hstop =>
    rw [if_neg hstop] at hR
    split at hopen
    · cases hopen
    · next hbare =>
      rw [if_neg hbare] at hR
      cases hopen
      cases hR
      exact ⟨rfl, ⟨.cons .setting h.contents.items, h.contents.branches⟩,
        h.opened, h.groups, h.unnamed, h.names, rfl⟩

theorem readGroup_inside (hmore : ∃ cs, more = ')' :: cs) (h : Inside base bound names more r R)
    (hr : r.readGroup cs = .ok r') (hR : R.readGroup (cs ++ more) = .ok R') (hnames : r'.names = [])
    (hon : r'.opened ≠ [] → r'.GoesOn) : Inside base bound names more r' R' := by
  replace hr := (readGroup_eq_ok hr).2
  replace hR := (readGroup_eq_ok hR).2
  have hne : r.flags.ignoreSpace = true → r.flags.trim cs ≠ [] := by
    intro hf hnil
    rw [hnil] at hr
    rw [openCapture_eq hr] at hon
    exact hon (List.cons_ne_nil _ _) hf rfl
  rw [h.flags, Flags.trim_append hne, opening_append hmore] at hR
  cases hopening : (opening (r.flags.trim cs)).1 with
  | named =>
    rw [hopening] at hr
    exact absurd hnames (openNamed_names hr)
  | setting =>
    rw [hopening] at hr hR
    exact readSetting_inside h hr hR
  | capture =>
    rw [hopening] at hr hR
    exact h.openCapture hr hR

/-! ## Signs -/

theorem readSign_alike {c : Char} (hr : r.readSign c cs = .ok r') (hnames : r'.names = [])
    (hon : r'.opened ≠ [] → r'.GoesOn) :
    GoesAlike (fun R more => R.readSign c (cs ++ more)) r r' := by
  unfold readSign at hr
  split at hr
  · exact .inl fun _ _ _ more _ _ h hR => readGroup_inside ⟨more, rfl⟩ h hr hR hnames hon
  · exact .inl fun _ _ _ _ _ _ h hR => closeGroup_inside h hr hR
  · cases hr
    refine .inl fun _ _ _ _ _ _ h hR => ?_
    cases hR
    exact h.alternate
  · obtain ⟨⟨s, ds⟩, hs, hpush⟩ := bind_eq_ok.1 hr
    cases hpush
    refine .inl fun _ _ _ more _ _ h hR => ?_
    simp only [readSign, h.flags, readBracket_append ⟨more, rfl⟩ hs] at hR
    cases hR
    exact h.push (.one s)
  · refine .inl fun _ _ _ more _ _ h hR => ?_
    simp only [readSign, takeLazy_append (.parenthesis more)] at hR
    exact repeatLast_inside h hr hR
  · refine .inl fun _ _ _ more _ _ h hR => ?_
    simp only [readSign, takeLazy_append (.parenthesis more)] at hR
    exact repeatLast_inside h hr hR
  · refine .inl fun _ _ _ more _ _ h hR => ?_
    simp only [readSign, takeLazy_append (.parenthesis more)] at hR
    exact repeatLast_inside h hr hR
  · exact readCounted_alike hr
  · obtain ⟨⟨a, ds⟩, ha, hpush⟩ := bind_eq_ok.1 hr
    cases hpush
    exact readEscape_alike ha
  · obtain ⟨p, hp, hpush⟩ := bind_eq_ok.1 hr
    cases hpush
    refine .inl fun _ _ _ _ _ _ h hR => ?_
    simp only [readSign, h.dot_eq, hp] at hR
    cases hR
    exact h.push (renumbered_dot hp)
  · cases hr
    refine .inl fun _ _ _ _ _ _ h hR => ?_
    cases hR
    rw [h.caret_eq]
    exact h.push (.check _)
  · cases hr
    refine .inl fun _ _ _ _ _ _ h hR => ?_
    cases hR
    rw [h.dollar_eq]
    exact h.push (.check _)
  · cases hr
    refine .inl fun _ _ _ _ _ _ h hR => ?_
    unfold readSign at hR
    split at hR
    all_goals first | exact absurd rfl ‹_› | skip
    cases hR
    exact h.pushLiteral _

theorem step_parenthesis (hrest : r.rest = ')' :: cs) : step r = r.closeGroup cs := by
  unfold step
  rw [hrest, Flags.trim_parenthesis]
  rfl

/-- One step. Blanks at the end are read together with the parenthesis behind. -/
theorem step_alike (hr : step r = .ok r') (hnames : r'.names = [])
    (hon : r'.opened ≠ [] → r'.GoesOn) :
    (∀ base bound names more R R', Inside base bound names (')' :: more) r R → step R = .ok R' →
      ∃ R1, Inside base bound names (')' :: more) r' R1 ∧
        (R1 = R' ∨ r'.rest = [] ∧ step R1 = .ok R')) ∨
    (r'.flags.ignoreSpace = true ∧ r'.rest = [] ∧ ∀ base bound names R R',
      Inside base bound names [')', '$'] r R → step R = .ok R' →
      R'.opened = R.opened ∧ R'.rest = []) := by
  unfold step at hr
  split at hr
  · next hblank =>
    cases hr
    obtain htrim | ⟨hf, -, hend⟩ := r.flags.trim_closing r.rest
    · refine .inl fun base bound names more R R' h hR => ?_
      refine ⟨{ R with rest := ')' :: more }, ⟨h.flags, h.contents, h.opened, h.groups,
        h.unnamed, h.names, rfl⟩, .inr ⟨rfl, ?_⟩⟩
      rw [step_parenthesis rfl]
      rw [step, h.flags, h.rest, htrim, hblank] at hR
      exact hR
    · refine .inr ⟨hf, rfl, fun base bound names R R' h hR => ?_⟩
      rw [step, h.flags, h.rest, hend] at hR
      cases hR
      exact ⟨rfl, rfl⟩
  · next c cs hcs =>
    have hsign : ∀ {base bound names more R}, Inside base bound names more r R →
        step R = R.readSign c (cs ++ more) := by
      intro base bound names more R h
      rw [step, h.flags, h.rest, Flags.trim_append fun _ => hcs ▸ List.cons_ne_nil _ _, hcs]
      rfl
    obtain hall | ⟨hf, hrest, hend⟩ := readSign_alike hr hnames hon
    · refine .inl fun base bound names more R R' h hR => ⟨R', ?_, .inl rfl⟩
      exact hall base bound names more R R' h ((hsign h).symm.trans hR)
    · refine .inr ⟨hf, hrest, fun base bound names R R' h hR => ?_⟩
      exact hend base bound names R R' h ((hsign h).symm.trans hR)

/-! ## Whole expressions -/

section

variable {ok : List (String × Nat) → Prop} {go : Reader → Except Fault Reader} {n : Nat}

/-- What a step reads from `r` to `r'`, it reads inside of groups, behind names of a kind. Blanks at
the end are read together with the parenthesis behind, and a comment goes on over it. -/
def StepsAlike (ok : List (String × Nat) → Prop) (go : Reader → Except Fault Reader)
    (r r' : Reader) : Prop :=
  (∀ base bound names more R R', ok names → Inside base bound names (')' :: more) r R →
    go R = .ok R' → ∃ R1, Inside base bound names (')' :: more) r' R1 ∧
      (R1 = R' ∨ r'.rest = [] ∧ go R1 = .ok R')) ∨
  (r'.flags.ignoreSpace = true ∧ r'.rest = [] ∧ ∀ base bound names R R', ok names →
    Inside base bound names [')', '$'] r R → go R = .ok R' → R'.opened = R.opened ∧ R'.rest = [])

/-- What is read in so many steps to where no group and no name is left is read alike inside of
groups, if this is so of each step. -/
theorem runs_alike
    (hstep : ∀ {r r'}, go r = .ok r' → r'.names = [] → (r'.opened ≠ [] → r'.GoesOn) →
      StepsAlike ok go r r')
    (hclean : ∀ {r r1 n}, go r = .ok r1 → run go n r1 = .ok r' → r1.names = [])
    (hr : run go n r = .ok r') (hopened : r'.opened = []) :
    (∀ base bound names more k R R', ok names → Inside base bound names (')' :: more) r R →
      run go (n + k) R = .ok R' → ∃ m R1, k ≤ m ∧ Inside base bound names (')' :: more) r' R1 ∧
      run go m R1 = .ok R') ∨
    (r'.flags.ignoreSpace = true ∧ ∀ base bound names k R R', ok names →
      Inside base bound names [')', '$'] r R → run go (n + k) R = .ok R' → ∃ os,
        R'.opened = os ++ base) := by
  induction n generalizing r with
  | zero =>
    cases hr
    exact .inl fun base bound names more k R R' _ h hR => ⟨_, R, by omega, h, hR⟩
  | succ n ih =>
    by_cases hrest : r.rest = []
    · rw [run_end hrest] at hr
      cases hr
      exact .inl fun base bound names more k R R' _ h hR => ⟨_, R, by omega, h, hR⟩
    rw [run_step hrest] at hr
    obtain ⟨r1, hr1, hr⟩ := bind_eq_ok.1 hr
    have hlast : r1.rest = [] → r' = r1 := by
      intro hnil
      rw [run_end hnil] at hr
      exact (Except.ok.inj hr).symm
    have hon1 : r1.opened ≠ [] → r1.GoesOn := by
      intro hne _ hnil
      exact hne (hlast hnil ▸ hopened)
    have hfirst : ∀ {base bound names more k R R'}, Inside base bound names more r R →
        run go (n + 1 + k) R = .ok R' → ∃ R1, go R = .ok R1 ∧ run go (n + k) R1 = .ok R' := by
      intro base bound names more k R R' h hR
      rw [Nat.add_right_comm, run_step (by simp [h.rest, hrest])] at hR
      exact bind_eq_ok.1 hR
    obtain hstep | ⟨hf, hnil, hstep⟩ := hstep hr1 (hclean hr1 hr) hon1
    · by_cases hnil : r1.rest = []
      · obtain rfl := hlast hnil
        refine .inl fun base bound names more k R R' hok h hR => ?_
        obtain ⟨R1, hR1, hR⟩ := hfirst h hR
        obtain ⟨R2, h2, rfl | ⟨-, hR2⟩⟩ := hstep base bound names more R R1 hok h hR1
        · exact ⟨n + k, R2, by omega, h2, hR⟩
        · refine ⟨n + k + 1, R2, by omega, h2, ?_⟩
          rw [run_step (by simp [h2.rest]), hR2]
          exact hR
      have hinside : ∀ {base bound names more R R1}, ok names →
          Inside base bound names (')' :: more) r R → go R = .ok R1 →
          Inside base bound names (')' :: more) r1 R1 := by
        intro base bound names more R R1 hok h hR1
        obtain ⟨R2, h2, rfl | ⟨hend, -⟩⟩ := hstep base bound names more R R1 hok h hR1
        · exact h2
        · exact absurd hend hnil
      refine (ih hr).imp (fun hrun base bound names more k R R' hok h hR => ?_)
        fun ⟨hf, hrun⟩ => ⟨hf, fun base bound names k R R' hok h hR => ?_⟩
      · obtain ⟨R1, hR1, hR⟩ := hfirst h hR
        exact hrun base bound names more k R1 R' hok (hinside hok h hR1) hR
      · obtain ⟨R1, hR1, hR⟩ := hfirst h hR
        exact hrun base bound names k R1 R' hok (hinside hok h hR1) hR
    · obtain rfl := hlast hnil
      refine .inr ⟨hf, fun base bound names k R R' hok h hR => ?_⟩
      obtain ⟨R1, hR1, hR⟩ := hfirst h hR
      obtain ⟨hsame, hrest1⟩ := hstep base bound names R R1 hok h hR1
      obtain ⟨os, hos, -⟩ := h.opened
      rw [run_end hrest1] at hR
      cases hR
      exact ⟨os, hsame.trans hos⟩

end

/-- What is read to where no group and no name is left is read alike inside of groups. -/
theorem run_alike {n : Nat} (hr : run step n r = .ok r') (hnames : r'.names = [])
    (hopened : r'.opened = []) :
    (∀ base bound names more k R R', Inside base bound names (')' :: more) r R →
      run step (n + k) R = .ok R' → ∃ m R1, k ≤ m ∧ Inside base bound names (')' :: more) r' R1 ∧
      run step m R1 = .ok R') ∨
    (r'.flags.ignoreSpace = true ∧ ∀ base bound names k R R',
      Inside base bound names [')', '$'] r R → run step (n + k) R = .ok R' → ∃ os,
        R'.opened = os ++ base) := by
  have hstep : ∀ {r r'}, step r = .ok r' → r'.names = [] → (r'.opened ≠ [] → r'.GoesOn) →
      StepsAlike (fun _ => True) step r r' := fun hr hnames hon =>
    (step_alike hr hnames hon).imp (fun h base bound names more R R' _ =>
      h base bound names more R R') fun ⟨hf, hrest, h⟩ => ⟨hf, hrest,
        fun base bound names R R' _ => h base bound names R R'⟩
  have hclean : ∀ {r r1 n}, step r = .ok r1 → run step n r1 = .ok r' → r1.names = [] := fun _ hr =>
    List.suffix_nil.1 (hnames ▸ run_names step_names hr)
  exact (runs_alike hstep hclean hr hopened).imp
    (fun h base bound names more k R R' => h base bound names more k R R' trivial)
    fun ⟨hf, h⟩ => ⟨hf, fun base bound names k R R' => h base bound names k R R' trivial⟩

/-- A reader that has read a pattern in the innermost of its groups and come to the parenthesis
behind. -/
structure Filled (base : List OpenGroup) (bound : Nat) (names : List (String × Nat))
    (more : List Char) (p : Pattern) (R : Reader) : Prop where
  contents : p.Renumbered (bound < ·) R.contents.close
  opened : R.opened = base
  groups : bound ≤ R.groups
  names_eq : R.names = names
  rest_eq : R.rest = ')' :: more

theorem Inside.filled (h : Inside base bound names (')' :: more) r R) (hrest : r.rest = [])
    (hopened : r.opened = []) : Filled base bound names more r.contents.close R := by
  obtain ⟨os, hos, hempty⟩ := h.opened
  rw [hopened] at hempty
  cases hempty
  exact ⟨h.contents.close, hos, h.groups, h.names, by rw [h.rest, hrest]; rfl⟩

/-- An expression is read as a pattern in every group. -/
def ReadsInside (regex : String) (p : Pattern) : Prop :=
  ∀ base bound names more k R R', Inside base bound names (')' :: more) (.start regex.toList) R →
    run step (regex.toList.length + 1 + k) R = .ok R' →
      ∃ m R1, k ≤ m ∧ Filled base bound names more p R1 ∧ run step m R1 = .ok R'

/-- The pattern of an expression that is read alone and leaves nothing behind: no open group, no
blanks to be dropped and no name. -/
def alone? (regex : String) : Option Pattern :=
  match run step (regex.toList.length + 1) (.start regex.toList) with
  | .ok r =>
    if r.rest = [] ∧ r.opened.isEmpty ∧ r.names = [] ∧ r.flags.ignoreSpace = false then some
      r.contents.close
    else none
  | .error _ => none

/-- An expression that is read alone as a pattern and leaves no open group and no name. -/
def ReadsAlone (regex : String) (p : Pattern) : Prop :=
  ∃ r, run step (regex.toList.length + 1) (.start regex.toList) = .ok r ∧
    r.rest = [] ∧ r.opened = [] ∧ r.names = [] ∧ r.contents.close = p

/-- An expression that is read to its end adds its pattern. -/
theorem alone?_of_leadsTo {regex : String} {c : Contents} {p : Pattern}
    (h : LeadsTo step (.start regex.toList)
      { Reader.start regex.toList with contents := c, rest := [] })
    (hclose : c.close = p) : alone? regex = some p := by
  have hrun : run step (regex.toList.length + 1) (.start regex.toList) = _ := h.run_eq rfl
  unfold alone?
  rw [hrun]
  exact (if_pos ⟨rfl, rfl, rfl, rfl⟩).trans (congrArg some hclose)

theorem alone?_eq_some {regex : String} {p : Pattern} (h : alone? regex = some p) :
    ∃ r, run step (regex.toList.length + 1) (.start regex.toList) = .ok r ∧
      r.rest = [] ∧ r.opened = [] ∧ r.names = [] ∧ r.flags.ignoreSpace = false ∧
      r.contents.close = p := by
  unfold alone? at h
  split at h
  · next r hr =>
    split at h
    · next hleft =>
      cases h
      exact ⟨r, hr, hleft.1, List.isEmpty_iff.1 hleft.2.1, hleft.2.2.1, hleft.2.2.2, rfl⟩
    · cases h
  · cases h

/-- Where no blanks are to be dropped, nothing can take the parenthesis. -/
theorem readsInside_of_alone? {regex : String} {p : Pattern} (h : alone? regex = some p) :
    ReadsInside regex p := by
  obtain ⟨r, hr, hrest, hopened, hnames, hflags, rfl⟩ := alone?_eq_some h
  obtain hrun | ⟨hf, -⟩ := run_alike hr hnames hopened
  · intro base bound names more k R R' h hR
    obtain ⟨m, R1, hm, h1, hR⟩ := hrun base bound names more k R R' h hR
    exact ⟨m, R1, hm, h1.filled hrest hopened, hR⟩
  · rw [hflags] at hf
    cases hf

end Stencil.Pattern.Reader
