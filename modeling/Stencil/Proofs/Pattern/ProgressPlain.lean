import Stencil.Proofs.Pattern.InsidePlain

/-!
# Reading plain expressions gets on

What a function leaves of an expression that it reads from is shorter than the expression, and
nearly always an end of it. A step takes at least one sign (`Reader.step_length`), so that the fuel
of a reader is enough to read to the end (`Reader.run_rest`).
-/

namespace Stencil.Pattern

variable {f : Flags} {cs rest : List Char}

/-! ## Blanks and comments -/

mutual

theorem skipBlanks_suffix : ∀ cs : List Char, skipBlanks cs <:+ cs
  | [] => List.suffix_rfl
  | c :: cs => by
    rw [skipBlanks]
    split
    · exact (skipBlanks_suffix cs).trans (List.suffix_cons _ _)
    · split
      · exact (skipComment_suffix cs).trans (List.suffix_cons _ _)
      · exact List.suffix_rfl

theorem skipComment_suffix : ∀ cs : List Char, skipComment cs <:+ cs
  | [] => List.suffix_rfl
  | c :: cs => by
    rw [skipComment]
    split
    · exact (skipBlanks_suffix cs).trans (List.suffix_cons _ _)
    · exact (skipComment_suffix cs).trans (List.suffix_cons _ _)

end

theorem Flags.trim_suffix (f : Flags) (cs : List Char) : f.trim cs <:+ cs := by
  unfold trim
  split
  · exact skipBlanks_suffix cs
  · exact List.suffix_rfl

/-! ## Escape sequences -/

theorem readHexDigits_suffix {count value n : Nat}
    (h : readHexDigits f count value cs = .ok (n, rest)) : rest <:+ cs := by
  induction count generalizing value cs with
  | zero =>
    cases h
    exact List.suffix_rfl
  | succ count ih =>
    cases cs with
    | nil => cases h
    | cons c cs =>
      simp only [readHexDigits] at h
      split at h
      · exact ((ih h).trans (f.trim_suffix cs)).trans (List.suffix_cons _ _)
      · cases h

theorem readHexBrace_suffix {seen : Bool} {value n : Nat}
    (h : readHexBrace f seen value cs = .ok (n, rest)) : rest <:+ cs := by
  induction cs generalizing seen value with
  | nil => cases h
  | cons c cs ih =>
    have hcons := List.suffix_cons c cs
    simp only [readHexBrace] at h
    repeat' split at h
    all_goals first | (cases h; done) | (cases h; exact hcons) | exact (ih h).trans hcons

theorem readHex_suffix {count : Nat} {c : Char} (h : readHex f count cs = .ok (c, rest)) :
    rest <:+ cs := by
  have htrim := f.trim_suffix cs
  obtain ⟨n, -, ⟨ds, hds, hn⟩ | ⟨-, hn⟩⟩ := readHex_eq_ok.1 h
  · rw [hds] at htrim
    exact ((readHexBrace_suffix hn).trans (List.suffix_cons _ _)).trans htrim
  · exact (readHexDigits_suffix hn).trans htrim

theorem takeProperty_suffix {written : List Char} (h : takeProperty f cs = .ok (written, rest)) :
    rest <:+ cs := by
  have htrim := f.trim_suffix cs
  unfold takeProperty at h
  split at h
  · cases h
  · next inner hinner =>
    rw [hinner] at htrim
    split at h
    · next d ds hd =>
      cases h
      have hbrace : d :: rest <:+ inner := hd ▸ List.dropWhile_suffix _
      exact (((List.suffix_cons _ _).trans hbrace).trans (List.suffix_cons _ _)).trans htrim
    · cases h
  · next c ds _ hds =>
    rw [hds] at htrim
    split at h
    · cases h
    · cases h
      exact (List.suffix_cons _ _).trans htrim

theorem readProperty_suffix {negated : Bool} {a : Atom}
    (h : readProperty f negated cs = .ok (a, rest)) : rest <:+ cs := by
  by_cases hw : f.wide = true
  · simp only [readProperty, hw, Bool.not_true, Bool.false_eq_true, if_false] at h
    obtain ⟨⟨written, ds⟩, hd, h⟩ := bind_eq_ok.1 h
    simp only at h
    split at h
    · cases h
      exact takeProperty_suffix hd
    · cases h
  · simp [readProperty, hw] at h
    cases h

theorem readBoundary_suffix {a : Atom} (h : readBoundary f cs = .ok (a, rest)) : rest <:+ cs := by
  unfold readBoundary at h
  split at h
  · next inner =>
    have htrim := f.trim_suffix inner
    simp only at h
    split at h
    · cases h
    · next c ds hds =>
      rw [hds] at htrim
      split at h
      · cases h
        exact List.suffix_rfl
      · split at h
        · next tail hd =>
          split at h
          · cases h
            have hbrace : '\x7d' :: rest <:+ c :: ds := hd ▸ List.dropWhile_suffix _
            exact (((List.suffix_cons _ _).trans hbrace).trans htrim).trans (List.suffix_cons _ _)
          · cases h
        · cases h
  · cases h
    exact List.suffix_rfl

theorem readEscape_suffix {a : Atom} (h : readEscape f cs = .ok (a, rest)) : rest <:+ cs := by
  cases cs with
  | nil => cases h
  | cons c cs =>
    refine List.IsSuffix.trans ?_ (List.suffix_cons c cs)
    cases readEscape_cons_eq_ok.1 h with
    | @hex _ _ _ ds _ hd => exact (f.trim_suffix ds).trans (readHex_suffix hd)
    | property _ ha => exact readProperty_suffix ha
    | boundary ha => exact readBoundary_suffix ha
    | letter => exact List.suffix_rfl

/-! ## Brackets -/

theorem readHyphens_suffix (b : Bracket) (cs : List Char) : (readHyphens f b cs).2 <:+ cs := by
  fun_induction readHyphens f b cs with
  | case1 b cs hspace => exact (f.trim_suffix cs).trans (List.suffix_cons _ _)
  | case2 b cs hspace ih => exact ih.trans (List.suffix_cons _ _)
  | case3 b cs hother => exact List.suffix_rfl

theorem takeCaret_suffix (cs : List Char) : (takeCaret f cs).2 <:+ cs := by
  have htrim := f.trim_suffix cs
  unfold takeCaret
  split
  · next ds hds =>
    rw [hds] at htrim
    exact ((f.trim_suffix ds).trans (List.suffix_cons _ _)).trans htrim
  · exact htrim

theorem openBracket_suffix {b : Bracket} (h : openBracket f cs = .ok (b, rest)) : rest <:+ cs := by
  unfold openBracket at h
  simp only at h
  split at h
  · cases h
  have hstart :=
    (readHyphens_suffix (f := f) ⟨(takeCaret f cs).1, none, []⟩ (takeCaret f cs).2).trans
      (takeCaret_suffix cs)
  split at h
  · next b' ds hds =>
    rw [hds] at hstart
    split at h
    · cases h
      exact ((f.trim_suffix ds).trans (List.suffix_cons _ _)).trans hstart
    · cases h
      exact hstart
  · have hread := Except.ok.inj h
    rwa [hread] at hstart

theorem readAsciiName?_suffix {s : CharSet} (h : readAsciiName? cs = some (s, rest)) :
    rest <:+ cs := by
  unfold readAsciiName? at h
  split at h
  · next tail hd =>
    obtain ⟨s', -, hs⟩ := Option.map_eq_some_iff.1 h
    cases hs
    have hname : ':' :: ']' :: rest <:+ cs := hd ▸ List.dropWhile_suffix _
    exact (List.suffix_append [':', ']'] rest).trans hname
  · cases h

theorem readAsciiSet?_suffix {s : CharSet} (h : readAsciiSet? f cs = some (s, rest)) :
    rest <:+ cs := by
  unfold readAsciiSet? at h
  simp only at h
  split at h
  · next ds =>
    obtain ⟨⟨s', es⟩, hs, h⟩ := Option.map_eq_some_iff.1 h
    cases h
    exact (readAsciiName?_suffix hs).trans (List.suffix_append [':', '^'] ds)
  · next ds _ =>
    obtain ⟨⟨s', es⟩, hs, h⟩ := Option.map_eq_some_iff.1 h
    cases h
    exact (readAsciiName?_suffix hs).trans (List.suffix_cons _ _)
  · cases h

theorem readMember_length {a : Atom} (h : readMember f cs = .ok (a, rest)) :
    rest.length < cs.length := by
  unfold readMember at h
  split at h
  · cases h
  · exact Nat.lt_succ_of_le (readEscape_suffix h).length_le
  · cases h
    exact Nat.lt_succ_self _

/-- A hyphen at the end of a bracket is left to be read again, without the blanks behind it. -/
theorem readRange_length {s : CharSet} (h : readRange f cs = .ok (s, rest)) :
    rest.length < cs.length := by
  have skipped : ∀ {ds es : List Char} {c : Char}, f.trim ds = c :: es → es.length < ds.length := by
    intro ds es c hds
    exact (hds ▸ f.trim_suffix ds : c :: es <:+ ds).length_le
  cases readRange_eq_ok.1 h with
  | single hfirst hes =>
    exact Nat.lt_of_le_of_lt (skipped hes) (readMember_length hfirst)
  | hyphen hfirst hes hc =>
    have hds := readMember_length hfirst
    have hes := skipped hes
    have htail := skipped hc
    simp only [List.length_cons]
    omega
  | range hfirst hes hc hend hlast =>
    have hds := readMember_length hfirst
    have hes := skipped hes
    have htail := skipped hc
    have hrest := readMember_length hlast
    simp only [List.length_cons] at hrest
    omega

theorem GoesOn.length_lt {b b' : Bracket} {outer outer' : List Bracket}
    (h : GoesOn f b outer cs b' outer' rest) : rest.length < cs.length := by
  cases h with
  | named hset => exact Nat.lt_succ_of_le (readAsciiSet?_suffix hset).length_le
  | opens _ hinner => exact Nat.lt_succ_of_le (openBracket_suffix hinner).length_le
  | closes => exact Nat.lt_succ_self _
  | operation => exact Nat.lt_succ_of_lt (Nat.lt_succ_self _)
  | member _ hs => exact readRange_length hs

theorem readBracketItems_length {fuel : Nat} {b : Bracket} {outer : List Bracket} {s : CharSet}
    (h : readBracketItems f fuel b outer cs = .ok (s, rest)) : rest.length ≤ cs.length := by
  induction fuel generalizing b outer cs with
  | zero => cases h
  | succ fuel ih =>
    refine Nat.le_trans ?_ (f.trim_suffix cs).length_le
    rcases readBracketItems_eq_ok.1 h with ⟨-, htrim, -⟩ | ⟨b', outer', ds, hgoes, h⟩
    · rw [htrim]
      exact Nat.le_succ _
    · exact (ih h).trans hgoes.length_lt.le

theorem readBracket_length {s : CharSet} (h : readBracket f cs = .ok (s, rest)) :
    rest.length ≤ cs.length := by
  obtain ⟨⟨b, ds⟩, hb, h⟩ := bind_eq_ok.1 h
  exact (readBracketItems_length h).trans (openBracket_suffix hb).length_le

/-! ## Repetitions and groups -/

namespace Reader

variable {r r' : Reader}

theorem takeLazy_suffix (cs : List Char) : (takeLazy cs).2 <:+ cs := by
  unfold takeLazy
  split
  · exact List.suffix_cons _ _
  · exact List.suffix_rfl

theorem readCount_suffix {n : Option Nat} (h : readCount f cs = .ok (n, rest)) : rest <:+ cs := by
  have hdropped : ((cs.dropWhile Unicode.isSpace).dropWhile
      fun c => c.isDigit ||
      (f.ignoreSpace && Unicode.isSpace c)).dropWhile Unicode.isSpace <:+ cs :=
    ((List.dropWhile_suffix _).trans (List.dropWhile_suffix _)).trans (List.dropWhile_suffix _)
  simp only [readCount] at h
  split at h
  · cases h
    exact hdropped
  · split at h <;> cases h
    exact hdropped

theorem readUpper_suffix {min max : Option Nat} (h : readUpper f min cs = .ok (max, rest)) :
    rest <:+ cs := by
  unfold readUpper at h
  split at h
  · next ds =>
    refine List.IsSuffix.trans ?_ ((f.trim_suffix ds).trans (List.suffix_cons _ _))
    split at h
    · next es hes =>
      cases h
      rw [hes]
    · obtain ⟨⟨m, es⟩, hm, h⟩ := bind_eq_ok.1 h
      simp only at h
      split at h
      · cases h
      · cases h
        exact readCount_suffix hm
  · cases h
    exact List.suffix_rfl

theorem readCounted_suffix (h : r.readCounted cs = .ok r') : r'.rest <:+ cs := by
  unfold readCounted at h
  obtain ⟨⟨min, ds⟩, hmin, hupper⟩ := bind_eq_ok.1 h
  obtain ⟨⟨max, es⟩, hmax, hrepeat⟩ := bind_eq_ok.1 hupper
  clear h hupper
  have hes := ((readUpper_suffix hmax).trans (readCount_suffix hmin)).trans (r.flags.trim_suffix cs)
  simp only at hrepeat
  split at hrepeat
  · next min tail =>
    split at hrepeat
    · cases hrepeat
    · rw [(repeatLast_eq hrepeat).2.2]
      exact (((takeLazy_suffix _).trans (r.flags.trim_suffix tail)).trans
        (List.suffix_cons _ _)).trans hes
  · cases hrepeat

theorem readFlags_suffix {seen : List Char} {on lastMinus bare : Bool} {g : Flags} {stop : Char}
    (h : readFlags f seen on lastMinus cs = .ok (g, stop, bare, rest)) : rest <:+ cs := by
  induction cs generalizing f seen on lastMinus with
  | nil => cases h
  | cons c cs ih =>
    have hcons := List.suffix_cons c cs
    simp only [readFlags] at h
    repeat' split at h
    all_goals first | (cases h; done) | (cases h; exact hcons) | exact (ih h).trans hcons

theorem openNamed_suffix (h : r.openNamed cs = .ok r') : r'.rest <:+ cs := by
  unfold openNamed at h
  simp only at h
  split at h
  · next d ds c name hdrop _ =>
    have hds : d :: ds <:+ cs := hdrop ▸ List.dropWhile_suffix _
    split at h
    · cases h
    · split at h
      · cases h
      · rw [openCapture_eq h]
        exact (List.suffix_cons _ _).trans hds
  · cases h

theorem opening_suffix (cs : List Char) : (opening cs).2 <:+ cs := by
  fun_cases opening cs with
  | case1 rest => exact List.suffix_append ['?', 'P', '<'] rest
  | case2 rest => exact List.suffix_append ['?', '<'] rest
  | case3 rest => exact List.suffix_cons '?' rest
  | case4 => exact List.suffix_rfl

theorem readSetting_suffix (h : r.readSetting cs = .ok r') : r'.rest <:+ cs := by
  obtain ⟨f, stop, bare, rest, hflags, rfl | rfl⟩ := readSetting_eq h
  · exact readFlags_suffix hflags
  · exact readFlags_suffix hflags

theorem readGroup_suffix (h : r.readGroup cs = .ok r') : r'.rest <:+ cs := by
  refine List.IsSuffix.trans ?_ ((opening_suffix _).trans (r.flags.trim_suffix cs))
  replace h := (readGroup_eq_ok h).2
  cases hopening : (opening (r.flags.trim cs)).1 <;> rw [hopening] at h
  · exact openNamed_suffix h
  · exact readSetting_suffix h
  · rw [openCapture_eq h]

theorem closeGroup_rest (h : r.closeGroup cs = .ok r') : r'.rest = cs := by
  unfold closeGroup at h
  split at h
  · cases h
  · cases h
    rfl

/-! ## Steps -/

theorem readSign_length {c : Char} (h : r.readSign c cs = .ok r') : r'.rest.length ≤ cs.length := by
  have hlazy := (takeLazy_suffix cs).length_le
  unfold readSign at h
  split at h
  · exact (readGroup_suffix h).length_le
  · rw [closeGroup_rest h]
  · cases h
    exact Nat.le_refl _
  · obtain ⟨⟨s, ds⟩, hs, h⟩ := bind_eq_ok.1 h
    cases h
    exact readBracket_length hs
  · rwa [(repeatLast_eq h).2.2]
  · rwa [(repeatLast_eq h).2.2]
  · rwa [(repeatLast_eq h).2.2]
  · exact (readCounted_suffix h).length_le
  · obtain ⟨⟨a, ds⟩, ha, h⟩ := bind_eq_ok.1 h
    cases h
    rw [(r.pushAtom_eq a ds).2.2]
    exact (readEscape_suffix ha).length_le
  · obtain ⟨p, -, h⟩ := bind_eq_ok.1 h
    cases h
    exact Nat.le_refl _
  all_goals
    cases h
    exact Nat.le_refl _

/-- A step takes a sign. -/
theorem step_length (hrest : r.rest ≠ []) (h : step r = .ok r') :
    r'.rest.length < r.rest.length := by
  have htrim := (r.flags.trim_suffix r.rest).length_le
  unfold step at h
  split at h
  · cases h
    exact List.length_pos_iff.2 hrest
  · next c cs hcs =>
    rw [hcs] at htrim
    exact Nat.lt_of_le_of_lt (readSign_length h) htrim

/-- With fuel for each sign, a reader gets to the end. -/
theorem run_rest {n : Nat} (hn : r.rest.length ≤ n) (h : run step n r = .ok r') : r'.rest = [] := by
  induction n generalizing r with
  | zero =>
    cases h
    exact List.length_eq_zero_iff.1 (Nat.le_zero.1 hn)
  | succ n ih =>
    by_cases hrest : r.rest = []
    · rw [run_end hrest] at h
      cases h
      exact hrest
    · rw [run_step hrest] at h
      obtain ⟨r1, hr1, h⟩ := bind_eq_ok.1 h
      have := step_length hrest hr1
      exact ih (by omega) h

end Reader

/-- An expression is read to its end, and no group is left open there. -/
theorem Expression.read_eq_ok {regex : String} {e : Expression}
    (h : Expression.read regex = .ok e) :
    ∃ r, Reader.run Reader.step (regex.toList.length + 1) (.start regex.toList) = .ok r ∧
      r.rest = [] ∧ r.opened = [] ∧ r.contents.close = e.pattern := by
  obtain ⟨r, hr, he⟩ := bind_eq_ok.1 h
  obtain ⟨hopened, rfl, -⟩ := ofReader_eq_ok he
  exact ⟨r, hr, Reader.run_rest (Nat.le_succ _) hr, hopened, rfl⟩

end Stencil.Pattern
