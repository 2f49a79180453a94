import Stencil.Proofs.Pattern.ProgressPlain

/-!
# Reading between anchors

Between anchors, an expression stands in a group of its own, with the parenthesis that closes the
group and a dollar sign behind it. What is taken there from the beginning of a text is taken from
the text alone, unless the parenthesis is taken with it (`Parts`), and then nothing is left to close
the group with. So a reader that gets over the anchors reads the expression alone as well, with the
same contents, or meets a parenthesis in it that closes no group (`Reader.run_within`).
-/

namespace Stencil.Pattern

variable {f : Flags} {cs rest : List Char}

/-- What a function takes from a text with the end of the anchors behind, it takes from the text
alone, unless it takes the parenthesis with it. -/
def Parts {α : Type} (g : List Char → Except Fault (α × List Char)) : Prop :=
  ∀ ⦃cs a rest⦄, g (cs ++ [')', '$']) = .ok (a, rest) →
    rest <:+ ['$'] ∨ ∃ ds, rest = ds ++ [')', '$'] ∧ g cs = .ok (a, ds)

/-! ## Blanks and comments -/

theorem Flags.trim_enclosed (f : Flags) (cs : List Char) :
    f.trim (cs ++ [')', '$']) = f.trim cs ++ [')', '$'] ∨ f.trim (cs ++ [')', '$']) = [] :=
  (f.trim_closing cs).imp (fun h => h _) fun h => h.2.2

theorem Flags.trim_dollar (f : Flags) : f.trim ['$'] = ['$'] := by
  have hspace : ¬ Unicode.isSpace '$' = true := by decide
  simp [trim, skipBlanks, hspace]

/-! ## Escape sequences -/

theorem parts_readHexDigits (count value : Nat) : Parts (readHexDigits f count value) := by
  induction count generalizing value with
  | zero =>
    intro cs a rest h
    cases h
    exact .inr ⟨cs, rfl, rfl⟩
  | succ count ih =>
    intro cs a rest h
    cases cs with
    | nil =>
      have hdigit : hexValue? ')' = none := by decide
      simp [readHexDigits, hdigit] at h
    | cons c cs =>
      simp only [readHexDigits, List.cons_append] at h ⊢
      cases hv : hexValue? c with
      | none => simp [hv] at h
      | some v =>
        simp only [hv] at h ⊢
        rcases f.trim_enclosed cs with htrim | htrim
        · rw [htrim] at h
          exact ih _ h
        · rw [htrim] at h
          exact .inl ((readHexDigits_suffix h).trans List.nil_suffix)

theorem readHexBrace_enclosed {seen : Bool} {value n : Nat}
    (h : readHexBrace f seen value (cs ++ [')', '$']) = .ok (n, rest)) :
    ∃ ds, rest = ds ++ [')', '$'] ∧ readHexBrace f seen value cs = .ok (n, ds) := by
  induction cs generalizing seen value with
  | nil =>
    have hdigit : hexValue? ')' = none := by decide
    have hspace : Unicode.isSpace ')' = false := by decide
    simp [readHexBrace, hdigit, hspace] at h
  | cons c cs ih =>
    simp only [readHexBrace, List.cons_append] at h ⊢
    by_cases hc : c = '\x7d'
    · simp only [if_pos hc] at h ⊢
      cases seen with
      | true =>
        cases h
        exact ⟨cs, rfl, rfl⟩
      | false => cases h
    · simp only [if_neg hc] at h ⊢
      split at h
      · next hs =>
        rw [if_pos hs]
        exact ih h
      · next hs =>
        rw [if_neg hs]
        cases hv : hexValue? c with
        | none => simp [hv] at h
        | some v =>
          simp only [hv] at h ⊢
          exact ih h

theorem parts_readHex (count : Nat) : Parts (readHex f count) := by
  intro cs a rest h
  obtain ⟨n, ha, hn⟩ := readHex_eq_ok.1 h
  rcases f.trim_enclosed cs with htrim | htrim
  · rw [htrim] at hn
    rcases hn with ⟨ds, hds, hn⟩ | ⟨hbrace, hn⟩
    · obtain ⟨es, hes, rfl⟩ := exists_of_append_eq ['{'] (by decide) hds
      obtain ⟨ds, rfl, halone⟩ := readHexBrace_enclosed hn
      exact .inr ⟨ds, rfl, readHex_eq_ok.2 ⟨n, ha, .inl ⟨es, hes, halone⟩⟩⟩
    · rcases parts_readHexDigits count 0 hn with htaken | ⟨ds, hds, halone⟩
      · exact .inl htaken
      · refine .inr ⟨ds, hds,
          readHex_eq_ok.2 ⟨n, ha, .inr ⟨fun es hes => hbrace (es ++ [')', '$']) ?_, halone⟩⟩⟩
        rw [hes, List.cons_append]
  · rw [htrim] at hn
    rcases hn with ⟨ds, hds, -⟩ | ⟨-, hn⟩
    · cases hds
    · exact .inl ((readHexDigits_suffix hn).trans List.nil_suffix)

theorem parts_takeProperty : Parts (takeProperty f) := by
  intro cs a rest h
  unfold takeProperty at h ⊢
  rcases f.trim_enclosed cs with htrim | htrim
  case inr =>
    rw [htrim] at h
    cases h
  rw [htrim] at h
  cases htext : f.trim cs with
  | nil =>
    rw [htext] at h
    cases h
    exact .inl List.suffix_rfl
  | cons c ds =>
    rw [htext, List.cons_append] at h
    refine .inr ?_
    by_cases hc : c = '{'
    · subst hc
      simp only at h ⊢
      cases hd : ds.dropWhile (· ≠ '\x7d') with
      | nil =>
        have hnone : (ds ++ [')', '$']).dropWhile (· ≠ '\x7d') = [] := by
          rw [List.dropWhile_append, hd]
          decide
        rw [hnone] at h
        cases h
      | cons e es =>
        obtain ⟨htake, hdrop⟩ := takeWhile_append_of_dropWhile hd [')', '$']
        rw [hdrop, htake] at h
        cases h
        exact ⟨es, rfl, rfl⟩
    · split at h
      · next heq => cases heq
      · next heq => exact absurd (List.cons.inj heq).1 hc
      · next heq =>
        cases heq
        split at h
        · cases h
        · next hback =>
          cases h
          refine ⟨ds, rfl, ?_⟩
          simp only [if_neg hback]

theorem parts_readProperty (negated : Bool) : Parts (readProperty f negated) := by
  intro cs a rest h
  by_cases hw : f.wide = true
  · simp only [readProperty, hw, Bool.not_true, Bool.false_eq_true, if_false] at h ⊢
    obtain ⟨⟨written, ds⟩, hd, h⟩ := bind_eq_ok.1 h
    simp only at h
    split at h
    · next inner p hp =>
      cases h
      rcases parts_takeProperty hd with htaken | ⟨es, hes, halone⟩
      · exact .inl htaken
      · refine .inr ⟨es, hes, bind_eq_ok.2 ⟨_, halone, ?_⟩⟩
        simp only [hp]
        rfl
    · cases h
  · simp [readProperty, hw] at h
    cases h

/-- A word boundary with a brace behind that no name of a boundary follows, but the end of the
anchors. -/
def BraceLeft (f : Flags) (a : Atom) (rest : List Char) : Prop :=
  (∃ b, a = .position b) ∧ ∃ inner, rest = '{' :: inner ∧ f.trim inner = [')', '$']

theorem readBoundary_enclosed {a : Atom} (h : readBoundary f (cs ++ [')', '$']) = .ok (a, rest)) :
    (∃ ds, rest = ds ++ [')', '$'] ∧ readBoundary f cs = .ok (a, ds)) ∨ BraceLeft f a rest := by
  cases cs with
  | nil =>
    cases h
    exact .inl ⟨[], rfl, rfl⟩
  | cons c cs =>
    by_cases hc : c = '{'
    case neg =>
      simp only [List.cons_append, readBoundary] at h ⊢
      split at h
      · next heq => exact absurd (List.cons.inj heq).1 hc
      · cases h
        refine .inl ⟨c :: cs, rfl, ?_⟩
        split
        · next heq => exact absurd (List.cons.inj heq).1 hc
        · rfl
    subst hc
    simp only [List.cons_append, readBoundary] at h ⊢
    rcases f.trim_enclosed cs with htrim | htrim
    case inr =>
      rw [htrim] at h
      cases h
    rw [htrim] at h
    cases htext : f.trim cs with
    | nil =>
      rw [htext] at h htrim
      have hname : (!((')' : Char).isAlpha || (')' : Char) == '-')) = true := by decide
      simp only [List.nil_append] at h
      rw [if_pos hname] at h
      cases h
      exact .inr ⟨⟨_, rfl⟩, _, rfl, htrim⟩
    | cons d ds =>
      rw [htext, List.cons_append] at h
      refine .inl ?_
      simp only at h ⊢
      split at h
      · next hd =>
        cases h
        exact ⟨'{' :: cs, rfl, if_pos hd⟩
      · next hd =>
        rw [if_neg hd]
        cases hdrop : (d :: ds).dropWhile (fun c => c.isAlpha || c == '-') with
        | nil =>
          have htail : (d :: (ds ++ [')', '$'])).dropWhile (fun c => c.isAlpha || c == '-') =
              [')', '$'] := by
            rw [← List.cons_append, List.dropWhile_append, hdrop]
            decide
          rw [htail] at h
          cases h
        | cons e es =>
          obtain ⟨htake, hdrop'⟩ := takeWhile_append_of_dropWhile hdrop [')', '$']
          rw [← List.cons_append, hdrop', htake] at h
          by_cases he : e = '\x7d'
          · subst he
            simp only [List.cons_append] at h ⊢
            split at h
            · next b hb =>
              cases h
              exact ⟨es, rfl, rfl⟩
            · cases h
          · simp [he] at h

theorem readEscape_enclosed {a : Atom} (h : readEscape f (cs ++ [')', '$']) = .ok (a, rest)) :
    rest <:+ ['$'] ∨ (∃ ds, rest = ds ++ [')', '$'] ∧ readEscape f cs = .ok (a, ds)) ∨
    BraceLeft f a rest := by
  cases cs with
  | nil =>
    have hliteral : readEscape f [')', '$'] = .ok (.literal ')', ['$']) := rfl
    rw [List.nil_append, hliteral] at h
    cases h
    exact .inl List.suffix_rfl
  | cons c cs =>
    simp only [List.cons_append, readEscape_cons_eq_ok] at h ⊢
    cases h with
    | @hex _ _ _ ds hx hd =>
      rcases parts_readHex _ hd with htaken | ⟨es, rfl, halone⟩
      · exact .inl ((f.trim_suffix ds).trans htaken)
      · rcases f.trim_enclosed es with hes | hes <;> rw [hes]
        · exact .inr (.inl ⟨f.trim es, rfl, .hex hx halone⟩)
        · exact .inl List.nil_suffix
    | property hp ha =>
      rcases parts_readProperty _ ha with htaken | ⟨es, hes, halone⟩
      · exact .inl htaken
      · exact .inr (.inl ⟨es, hes, .property hp halone⟩)
    | boundary ha =>
      exact .inr ((readBoundary_enclosed ha).imp_left fun ⟨ds, hds, halone⟩ =>
        ⟨ds, hds, .boundary halone⟩)
    | letter _ hall => exact .inr (.inl ⟨cs, rfl, .letter cs hall⟩)

/-! ## Brackets -/

theorem takeCaret_enclosed (f : Flags) (cs : List Char) :
    takeCaret f (cs ++ [')', '$']) = ((takeCaret f cs).1, (takeCaret f cs).2 ++ [')', '$']) ∨
      (takeCaret f (cs ++ [')', '$'])).2 = [] := by
  unfold takeCaret
  rcases f.trim_enclosed cs with htrim | htrim
  case inr =>
    rw [htrim]
    exact .inr rfl
  rw [htrim]
  cases f.trim cs with
  | nil => exact .inl rfl
  | cons c ds =>
    by_cases hc : c = '^'
    · subst hc
      exact (f.trim_enclosed ds).imp (fun hds => by simp only [List.cons_append, hds]) id
    · simp [hc]

theorem readHyphens_enclosed (f : Flags) (b : Bracket) (cs : List Char) :
    readHyphens f b (cs ++ [')', '$']) =
      ((readHyphens f b cs).1, (readHyphens f b cs).2 ++ [')', '$']) ∨
      (readHyphens f b (cs ++ [')', '$'])).2 = [] := by
  induction cs generalizing b with
  | nil => exact .inl rfl
  | cons c cs ih =>
    by_cases hc : c = '-'
    · subst hc
      simp only [List.cons_append, readHyphens]
      split
      · exact (f.trim_enclosed cs).imp (fun htrim => by rw [htrim]) id
      · exact ih _
    · simp [readHyphens, hc]

/-- A bracket opens before the end of the anchors, or all of it is taken. -/
theorem openBracket_enclosed {b : Bracket} (h : openBracket f (cs ++ [')', '$']) = .ok (b, rest)) :
    rest = [] ∨ ∃ ds, rest = ds ++ [')', '$'] ∧ openBracket f cs = .ok (b, ds) := by
  unfold openBracket at h ⊢
  rcases takeCaret_enclosed f cs with hcaret | hcaret
  case inr =>
    simp only [hcaret, readHyphens] at h
    split at h
    · cases h
    · cases h
      exact .inl rfl
  simp only [hcaret] at h ⊢
  generalize takeCaret f cs = r at h ⊢
  split at h
  · cases h
  next hw =>
  rw [if_neg hw]
  rcases readHyphens_enclosed f ⟨r.1, none, []⟩ r.2 with hhyphens | hhyphens
  case inr =>
    split at h
    · next heq =>
      rw [heq] at hhyphens
      cases hhyphens
    · rw [Except.ok.injEq] at h
      rw [h] at hhyphens
      exact .inl hhyphens
  rw [hhyphens] at h
  generalize readHyphens f ⟨r.1, none, []⟩ r.2 = t at h ⊢
  obtain ⟨b', ds⟩ := t
  cases ds with
  | nil =>
    cases h
    exact .inr ⟨[], rfl, rfl⟩
  | cons c ds =>
    by_cases hc : c = ']'
    · subst hc
      simp only [List.cons_append] at h ⊢
      split at h
      · next hempty =>
        cases h
        rw [if_pos hempty]
        exact (f.trim_enclosed ds).symm.imp id fun htrim => ⟨_, htrim, rfl⟩
      · next hempty =>
        cases h
        rw [if_neg hempty]
        exact .inr ⟨_, rfl, rfl⟩
    · simp only [List.cons_append] at h ⊢
      split at h
      · next heq => simp_all
      · cases h
        refine .inr ⟨c :: ds, rfl, ?_⟩
        split
        · next heq => simp_all
        · rfl

theorem readMember_enclosed {a : Atom} (h : readMember f (cs ++ [')', '$']) = .ok (a, rest)) :
    rest <:+ ['$'] ∨ (∃ ds, rest = ds ++ [')', '$'] ∧ readMember f cs = .ok (a, ds)) ∨
    BraceLeft f a rest := by
  cases cs with
  | nil =>
    cases h
    exact .inl List.suffix_rfl
  | cons c cs =>
    by_cases hc : c = '\\'
    · subst hc
      exact readEscape_enclosed h
    · simp only [List.cons_append, readMember] at h ⊢
      cases h
      exact .inr (.inl ⟨cs, rfl, rfl⟩)

/-- Where something is left of the text behind blanks and comments, it is left of the text alone as
well, or it is the end of the anchors. -/
theorem trim_enclosed_cons {ds es : List Char} {c : Char}
    (h : f.trim (ds ++ [')', '$']) = c :: es) :
    (∃ es', es = es' ++ [')', '$'] ∧ f.trim ds = c :: es') ∨ (c = ')' ∧ es = ['$']) := by
  rcases f.trim_enclosed ds with htrim | htrim
  · rw [htrim] at h
    cases hds : f.trim ds with
    | nil =>
      rw [hds] at h
      cases h
      exact .inr ⟨rfl, rfl⟩
    | cons d es' =>
      rw [hds] at h
      cases h
      exact .inl ⟨es', rfl, rfl⟩
  · rw [htrim] at h
    cases h

/-- A member of a bracket is read before the end of the anchors, or leaves no more than this. -/
theorem readRange_enclosed {s : CharSet} (h : readRange f (cs ++ [')', '$']) = .ok (s, rest)) :
    rest <:+ [')', '$'] ∨ ∃ ds, rest = ds ++ [')', '$'] ∧ readRange f cs = .ok (s, ds) := by
  have hdollar : ['$'] <:+ [')', '$'] := List.suffix_cons _ _
  -- Behind a taken parenthesis stands no hyphen.
  have nohyphen : ∀ {ds es : List Char}, ds <:+ ['$'] → f.trim ds ≠ '-' :: es := by
    intro ds es hds heq
    have htrim := heq ▸ (f.trim_suffix ds).trans hds
    rcases List.suffix_cons_iff.1 htrim with heq | hnil
    · cases heq
    · cases List.suffix_nil.1 hnil
  simp only [readRange_eq_ok] at h ⊢
  cases h with
  | @single first ds es c s hfirst hes hc hs =>
    rcases readMember_enclosed hfirst with htaken | ⟨ds, rfl, halone⟩ | ⟨⟨b, rfl⟩, -⟩
    · exact .inl ((hes ▸ f.trim_suffix ds).trans (htaken.trans hdollar))
    · rcases trim_enclosed_cons hes with ⟨es, rfl, hbehind⟩ | ⟨rfl, rfl⟩
      · exact .inr ⟨c :: es, rfl, .single halone hbehind hc hs⟩
      · exact .inl List.suffix_rfl
    · cases hs
  | @hyphen first ds es tail c s hfirst hes hc hend hs =>
    rcases readMember_enclosed hfirst with htaken | ⟨ds, rfl, halone⟩ | ⟨⟨b, rfl⟩, -⟩
    · exact absurd hes (nohyphen htaken)
    · rcases trim_enclosed_cons hes with ⟨es, rfl, hbehind⟩ | ⟨heq, -⟩
      · rcases trim_enclosed_cons hc with ⟨tail, rfl, hlast⟩ | ⟨rfl, -⟩
        · exact .inr ⟨'-' :: c :: tail, rfl, .hyphen halone hbehind hlast hend hs⟩
        · rcases hend with heq | heq <;> cases heq
      · cases heq
    · cases hs
  | @range a b c ds es tail rest hfirst hes hc hend hlast hle =>
    rcases readMember_enclosed hfirst with htaken | ⟨ds, rfl, halone⟩ | ⟨⟨p, hp⟩, -⟩
    · exact absurd hes (nohyphen htaken)
    · rcases trim_enclosed_cons hes with ⟨es, rfl, hbehind⟩ | ⟨heq, -⟩
      · rcases trim_enclosed_cons hc with ⟨tail, rfl, hstart⟩ | ⟨rfl, rfl⟩
        · rw [← List.cons_append] at hlast
          rcases readMember_enclosed hlast with htaken | ⟨ds', rfl, hmember⟩ | ⟨⟨p, hp⟩, -⟩
          · exact .inl (htaken.trans hdollar)
          · exact .inr ⟨ds', rfl, .range halone hbehind hstart hend hmember hle⟩
          · cases hp
        · -- The parenthesis is the end of the range.
          cases hlast
          exact .inl hdollar
      · cases heq
    · cases hp

theorem readBracketItems_dollar {fuel : Nat} {b : Bracket} {outer : List Bracket} :
    readBracketItems f fuel b outer ['$'] = .error .unclosedBracket := by
  cases fuel with
  | zero => rfl
  | succ fuel =>
    have hrange : readRange f ['$'] = .error .unclosedBracket := by
      simp [readRange, readMember, bind, Except.bind]
      rfl
    simp [readBracketItems, f.trim_dollar, hrange, bind, Except.bind]

/-- The end of the anchors closes no bracket. -/
theorem readBracketItems_of_suffix {fuel : Nat} {b : Bracket} {outer : List Bracket}
    (hcs : cs <:+ [')', '$']) : readBracketItems f fuel b outer cs = .error .unclosedBracket := by
  rcases List.suffix_cons_iff.1 hcs with rfl | hcs
  · cases fuel with
    | zero => rfl
    | succ fuel =>
      have hrange : readRange f [')', '$'] = .ok (.single ')', ['$']) := by
        simp [readRange, readMember, bind, Except.bind, f.trim_dollar]
        rfl
      simp [readBracketItems, f.trim_parenthesis, hrange, bind, Except.bind,
        readBracketItems_dollar]
  rcases List.suffix_cons_iff.1 hcs with rfl | hcs
  · exact readBracketItems_dollar
  · rw [List.suffix_nil.1 hcs]
    exact readBracketItems_nil

/-- Reading goes on in a bracket before the end of the anchors, or leaves no more than this. -/
theorem GoesOn.enclosed {b b' : Bracket} {outer outer' : List Bracket}
    (h : GoesOn f b outer (cs ++ [')', '$']) b' outer' rest) :
    rest <:+ [')', '$'] ∨ ∃ ds, rest = ds ++ [')', '$'] ∧ GoesOn f b outer cs b' outer' ds := by
  have hmore : ∃ cs : List Char, [')', '$'] = ')' :: cs := ⟨['$'], rfl⟩
  generalize heq : cs ++ [')', '$'] = es at h
  cases h with
  | named hset =>
    obtain ⟨cs, rfl, rfl⟩ := exists_of_append_eq ['['] (by decide) heq
    rw [readAsciiSet?_append hmore] at hset
    obtain ⟨⟨s, ds⟩, halone, hrest⟩ := Option.map_eq_some_iff.1 hset
    cases hrest
    exact .inr ⟨ds, rfl, .named halone⟩
  | opens hset hinner =>
    obtain ⟨cs, rfl, rfl⟩ := exists_of_append_eq ['['] (by decide) heq
    rw [readAsciiSet?_append hmore, Option.map_eq_none_iff] at hset
    rcases openBracket_enclosed hinner with rfl | ⟨ds, rfl, halone⟩
    · exact .inl List.nil_suffix
    · exact .inr ⟨ds, rfl, .opens hset halone⟩
  | closes o outer =>
    obtain ⟨cs, rfl, rfl⟩ := exists_of_append_eq [']'] (by decide) heq
    exact .inr ⟨cs, rfl, .closes o _ cs⟩
  | operation op =>
    obtain ⟨cs, rfl, rfl⟩ := exists_of_append_eq [op.sign, op.sign] (by cases op <;> decide) heq
    exact .inr ⟨cs, rfl, .operation op _ cs⟩
  | member hsign hs =>
    subst heq
    exact (readRange_enclosed hs).imp_right fun ⟨ds, hds, halone⟩ =>
      ⟨ds, hds, .member (fun h => hsign (h.append _)) halone⟩

/-- Where a bracket is closed before the end of the anchors, it is closed in the text alone. -/
theorem readBracketItems_enclosed {fuel fuel' : Nat} {b : Bracket}
    {outer : List Bracket} {s : CharSet} (hfuel : cs.length < fuel')
    (h : readBracketItems f fuel b outer (cs ++ [')', '$']) = .ok (s, rest)) :
    ∃ ds, rest = ds ++ [')', '$'] ∧ readBracketItems f fuel' b outer cs = .ok (s, ds) := by
  induction fuel generalizing fuel' b outer cs with
  | zero => cases h
  | succ fuel ih =>
    obtain ⟨fuel', rfl⟩ := Nat.exists_eq_succ_of_ne_zero (n := fuel') (by omega)
    simp only [readBracketItems_eq_ok] at h ⊢
    have hlength := (f.trim_suffix cs).length_le
    rcases f.trim_enclosed cs with htrim | htrim <;> rw [htrim] at h
    · rcases h with ⟨houter, hclose, hs⟩ | ⟨b', outer', es, hgoes, h⟩
      · obtain ⟨ds, hds, rfl⟩ := exists_of_append_eq [']'] (by decide) hclose
        exact ⟨ds, rfl, .inl ⟨houter, hds, hs⟩⟩
      · rcases hgoes.enclosed with hsuffix | ⟨ds, rfl, halone⟩
        · rw [readBracketItems_of_suffix hsuffix] at h
          cases h
        · have hlt : ds.length < fuel' := by
            have := halone.length_lt
            omega
          obtain ⟨ds', rfl, hitems⟩ := ih hlt h
          exact ⟨ds', rfl, .inr ⟨b', outer', ds, halone, hitems⟩⟩
    · rcases h with ⟨-, hclose, -⟩ | ⟨b', outer', es, hgoes, -⟩
      · cases hclose
      · exact absurd rfl hgoes.ne_nil

/-- A bracket holds no parenthesis that closes the anchors. -/
theorem readBracket_enclosed {s : CharSet} (h : readBracket f (cs ++ [')', '$']) = .ok (s, rest)) :
    ∃ ds, rest = ds ++ [')', '$'] ∧ readBracket f cs = .ok (s, ds) := by
  obtain ⟨⟨b, es⟩, hb, h⟩ := bind_eq_ok.1 h
  simp only at h
  rcases openBracket_enclosed hb with rfl | ⟨es, rfl, halone⟩
  · rw [readBracketItems_nil] at h
    cases h
  · have hes := Nat.lt_succ_of_le (openBracket_suffix halone).length_le
    obtain ⟨ds, hds, hitems⟩ := readBracketItems_enclosed hes h
    exact ⟨ds, hds, bind_eq_ok.2 ⟨_, halone, hitems⟩⟩

end Stencil.Pattern
