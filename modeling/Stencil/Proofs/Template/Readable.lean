import Stencil.Proofs.Template.FormattedText

/-!
# Expressions that can always be read

The composite expression of segments can be read, whatever the literals are, however templates are
nested and tokens repeated, if each token is one of integers or of text without an expression of its
own. Each segment in its place leads the reader on (`leadsTo_literal`, `leadsTo_group`,
`leadsTo_recall`), so that the whole is read and nothing but its size can be in the way
(`Template.create_of_isDerived`). Each name of a token has one group then, where it occurs first,
and every later occurrence asks for the text of that group.
-/

namespace Stencil

open Pattern Pattern.Composite

variable {ps : List Pattern} {names : List (String × Nat)} {r : Pattern.Reader}
  {tail : List Char} {u : Token}

namespace Segment

/-- Behind some segments, what a segment adds to a composite expression, and what this is read as: a
group where the name of a token is new, of its number among the names, and otherwise the text of
that group again. -/
inductive StandsAs (names : List (String × Nat)) (before : List Segment) :
    Segment → List Char → List Pattern → Prop
  | literal (s : String) : StandsAs names before (.literal s) (quoteComposite s).toList
      (s.toList.map Pattern.char)
  | group {t : Token} {i : Nat} {p : Pattern} (first : ∀ u, .token u ∈ before → u.name ≠ t.name)
    (number : (t.name, i) ∈ names) (read : Composite.alone? t.regex = some p)
    (plain : p.isRegular = true) :
    StandsAs names before (.token t) (groupOf t).toList [.group i p]
  | again {t u : Token} {i : Nat} (occurred : .token u ∈ before) (same : u.name = t.name)
    (number : (t.name, i) ∈ names) : StandsAs names before (.token t) (recallOf t).toList [.again i]

theorem StandsAs.mono {names' : List (String × Nat)} {before : List Segment}
    {s : Segment} {text : List Char} {qs : List Pattern} (h : StandsAs names before s text qs)
    (hnames : names <:+ names') : StandsAs names' before s text qs := by
  cases h with
  | literal w => exact .literal w
  | group first number read plain => exact .group first (hnames.subset number) read plain
  | again occurred same number => exact .again occurred same (hnames.subset number)

/-- Behind some segments, further ones add to a composite expression one after another. -/
structure Stand (names : List (String × Nat)) (before ss : List Segment)
    (parts : List (List Char × List Pattern)) :
    Prop where
  length_eq : parts.length = ss.length
  stands : ∀ i s part, ss[i]? = some s → parts[i]? = some part →
    StandsAs names (before ++ ss.take i) s part.1 part.2

theorem stand_nil {before : List Segment} : Stand names before [] [] := ⟨rfl, by simp⟩

theorem Stand.cons {before ss : List Segment} {parts : List (List Char × List Pattern)}
    {s : Segment} {part : List Char × List Pattern} (h : Stand names (before ++ [s]) ss parts)
    (hs : StandsAs names before s part.1 part.2) :
    Stand names before (s :: ss) (part :: parts) := by
  refine ⟨congrArg Nat.succ h.length_eq, fun i s' part' hs' hpart' => ?_⟩
  cases i with
  | zero =>
    cases hs'
    cases hpart'
    simpa using hs
  | succ i => simpa using h.stands i s' part' hs' hpart'

/-- Each name of a token among segments has a number, counted from the first name on. -/
structure Numbers (ss : List Segment) (names : List (String × Nat)) : Prop where
  mem_iff : ∀ x, x ∈ names.map Prod.fst ↔ ∃ u, .token u ∈ ss ∧ u.name = x
  distinct : (names.map Prod.fst).Nodup
  counted : names.map Prod.snd = (List.range' 1 names.length).reverse

theorem numbers_nil : Numbers [] [] := ⟨by simp, List.nodup_nil, rfl⟩

variable {ss : List Segment}

theorem Numbers.append_literal (h : Numbers ss names) (s : String) :
    Numbers (ss ++ [.literal s]) names :=
  ⟨fun x => by simpa using h.mem_iff x, h.distinct, h.counted⟩

theorem Numbers.append_again (h : Numbers ss names) (hu : u.name ∈ names.map Prod.fst) :
    Numbers (ss ++ [.token u]) names := by
  refine ⟨fun x => (h.mem_iff x).trans ⟨?_, ?_⟩, h.distinct, h.counted⟩
  · rintro ⟨v, hv, rfl⟩
    exact ⟨v, List.mem_append_left _ hv, rfl⟩
  · rintro ⟨v, hv, rfl⟩
    rcases List.mem_append.1 hv with hv | hv
    · exact ⟨v, hv, rfl⟩
    · cases List.mem_singleton.1 hv
      exact (h.mem_iff _).1 hu

theorem Numbers.append_group (h : Numbers ss names) (hu : u.name ∉ names.map Prod.fst) :
    Numbers (ss ++ [.token u]) ((u.name, names.length + 1) :: names) := by
  refine ⟨fun x => ?_, List.nodup_cons.2 ⟨hu, h.distinct⟩, ?_⟩
  · rw [List.map_cons, List.mem_cons, h.mem_iff]
    constructor
    · rintro (rfl | ⟨v, hv, rfl⟩)
      · exact ⟨u, by simp, rfl⟩
      · exact ⟨v, List.mem_append_left _ hv, rfl⟩
    · rintro ⟨v, hv, rfl⟩
      rcases List.mem_append.1 hv with hv | hv
      · exact .inr ⟨v, hv, rfl⟩
      · cases List.mem_singleton.1 hv
        exact .inl rfl
  · rw [List.map_cons, h.counted, List.length_cons, List.range'_concat, List.reverse_append]
    simp [Nat.add_comm]

end Segment

open Segment

/-! ## Tokens in their groups -/

/-- The expression of such a token is read in a group as it is read alone. -/
theorem Token.IsDerived.leadsTo (h : u.IsDerived) :
    ∃ p, Composite.alone? u.regex = some p ∧ p.isRegular = true ∧ ∀ (r : Reader) (tail : List Char),
      r.flags = {} → r.contents = .empty → r.opened.length ≤ 1 →
      r.rest = u.regex.toList ++ ')' :: tail → ∃ c, c.close = p ∧
      Reader.LeadsTo step r { r with contents := c, rest := ')' :: tail } := by
  have hvalid := h.valid
  obtain ⟨kind, o, v, hkind, hregex, hv, hu⟩ := h
  have hsame : v.regex = u.regex := by rw [hu]
  rcases shape_or_choices hkind hregex (ofOptions_eq hv).1 with ⟨sh, htext⟩ | ⟨cs, hcs, hchoices⟩
  · rw [hsame] at htext
    have hordered := ordered_of_read htext hvalid
    refine ⟨_, (alone?_shape htext hordered).2, sh.isRegular_pattern,
      fun r tail hflags hcontents _ hrest => ?_⟩
    rw [htext] at hrest
    exact Reader.leadsTo_shape readsClasses (readsQuantifier hordered) hflags hcontents
      (.inr (.parenthesis tail)) hrest
  · have hne := Kind.choices?_ne_nil hcs
    rw [← hsame, hchoices]
    refine ⟨_, (alone?_choices hne).2, isRegular_choice fun p hp => ?_,
      fun r tail hflags hcontents hopened hrest => ?_⟩
    · obtain ⟨c, -, rfl⟩ := List.mem_map.1 hp
      exact isRegular_ofChars _
    · have hws : cs.map (fun c => c.display.toList) ≠ [] := by simpa using hne
      rw [toList_choicesRegex, List.cons_append, List.cons_append, List.cons_append,
        List.append_assoc] at hrest
      refine ⟨_, ?_, readsChoices.leadsTo_choices hws hflags hopened hrest⟩
      rw [hcontents, List.map_map]
      rfl

/-! ## Segments in their places -/

namespace Pattern.Composite

open Reader

/-- Outside all groups, behind groups of these names alone, a text is read as these patterns, and
then there are groups of those names, whatever follows. -/
def Reads (names : List (String × Nat)) (text : List Char) (qs : List Pattern)
    (names' : List (String × Nat)) : Prop :=
  ∀ (ps : List Pattern) (tail : List Char) (r : Reader), Top ps names (text ++ tail) r →
    r.groups = names.length → ∃ r', LeadsTo step r r' ∧ Top (ps ++ qs) names' tail r' ∧
      r'.groups = names'.length

theorem reads_nil : Reads names [] [] names := fun ps tail r h hgroups =>
  ⟨r, .refl r, by simpa using h, hgroups⟩

theorem Reads.append {text text' : List Char} {qs qs' : List Pattern}
    {names' names'' : List (String × Nat)} (h : Reads names text qs names')
    (h' : Reads names' text' qs' names'') : Reads names (text ++ text') (qs ++ qs') names'' := by
  intro ps tail r htop hgroups
  rw [List.append_assoc] at htop
  obtain ⟨r1, hleads, htop1, hgroups1⟩ := h ps _ r htop hgroups
  obtain ⟨r2, hleads', htop2, hgroups2⟩ := h' _ tail r1 htop1 hgroups1
  exact ⟨r2, hleads.trans hleads', by simpa using htop2, hgroups2⟩

theorem reads_caret : Reads names ['^'] [.check .textStart] names := by
  intro ps tail r h hgroups
  have hcaret : r.caret = .check .textStart := by rw [Reader.caret, h.flags]; rfl
  refine ⟨_, LeadsTo.of_step (step_top h rfl (by simp)) ?_, hcaret ▸ h.push r.caret tail, hgroups⟩
  rw [h.rest_eq]
  exact Nat.lt_succ_self _

theorem reads_dollar : Reads names ['$'] [.check .textEnd] names := by
  intro ps tail r h hgroups
  have hdollar : r.dollar = .check .textEnd := by rw [Reader.dollar, h.flags]; rfl
  refine ⟨_, LeadsTo.of_step (step_top h rfl (by simp)) ?_, hdollar ▸ h.push r.dollar tail, hgroups⟩
  rw [h.rest_eq]
  exact Nat.lt_succ_self _

theorem reads_literal (w : List Char) :
    Reads names (quoteChars isCompositeMeta w) (w.map Pattern.char) names := by
  induction w with
  | nil => exact reads_nil
  | cons c w ih =>
    have hfirst : Reads names (quoteChars isCompositeMeta [c]) [.char c] names := by
      intro ps tail r h hgroups
      refine ⟨_, LeadsTo.of_step (step_quoted h) ?_, h.push (.char c) tail, hgroups⟩
      have hpos := List.length_pos_of_ne_nil (quoteChars_singleton_ne_nil isCompositeMeta c)
      rw [h.rest_eq]
      exact (Nat.lt_add_of_pos_left hpos).trans_eq List.length_append.symm
    rw [quoteChars_cons]
    exact hfirst.append ih

/-- A token that is new gets the next number. -/
theorem reads_group (hu : u.IsDerived) :
    ∃ p, alone? u.regex = some p ∧ p.isRegular = true ∧ ∀ names,
      Reads names (groupOf u).toList [.group (names.length + 1) p]
        ((u.name, names.length + 1) :: names) := by
  obtain ⟨p, hread, hplain, hinside⟩ := hu.leadsTo
  refine ⟨p, hread, hplain, fun names ps tail r h hgroups => ?_⟩
  have hentered := step_entered h hu.isIdentifier_name
  obtain ⟨c, rfl, hleads⟩ :=
    hinside (r.entered u.name (u.regex.toList ++ ')' :: tail)) tail h.flags rfl (Nat.le_refl 1) rfl
  have hleave := step_leave (r := { r.entered u.name (u.regex.toList ++ ')' :: tail) with
    contents := c, rest := ')' :: tail }) h.flags rfl rfl
  rw [← hgroups]
  refine ⟨_, (LeadsTo.of_step hentered ?_).trans
    (hleads.trans (LeadsTo.of_step hleave (Nat.lt_succ_self _))), ?_, ?_⟩
  · simp only [h.rest_eq, groupOf_append, Reader.entered, List.length_cons, List.length_append]
    omega
  · refine h.leave (R := { r.entered u.name (u.regex.toList ++ ')' :: tail) with
      contents := c, rest := ')' :: tail })
      rfl ?_ (Nat.le_refl _) tail
    simp [Reader.entered, h.names_eq]
  · simp [Reader.entered, hgroups]

/-- A token that has occurred. -/
theorem reads_recall {i : Nat} (hname : isIdentifier u.name = true)
    (hi : names.lookup u.name = some i) : Reads names (recallOf u).toList [.again i] names := by
  intro ps tail r h hgroups
  have hstep := step_recall h hname
  rw [hi] at hstep
  refine ⟨_, LeadsTo.of_step hstep ?_, h.push (.again i) tail, hgroups⟩
  simp only [h.rest_eq, recallOf_append, Reader.push, List.length_cons, List.length_append]
  omega

/-- What stands for a segment, behind others whose tokens have been numbered. -/
theorem reads_segment {before : List Segment} {s : Segment} {seen : List String} (ss : List Segment)
    (hflat : s.isTemplate = false) (htokens : ∀ u, s = .token u → u.IsDerived)
    (hnumbers : Numbers before names) (hseen : ∀ x, x ∈ seen ↔ x ∈ names.map Prod.fst) :
    ∃ text qs names' seen', Reads names text qs names' ∧ names <:+ names' ∧
      Numbers (before ++ [s]) names' ∧ (∀ x, x ∈ seen' ↔ x ∈ names'.map Prod.fst) ∧
      StandsAs names' before s text qs ∧ written seen (s :: ss) = text ++ written seen' ss := by
  cases s with
  | literal w =>
    have htext : quoteChars isCompositeMeta w.toList = (quoteComposite w).toList := by
      simp [quoteComposite]
    refine ⟨_, _, names, seen, htext ▸ reads_literal w.toList, List.suffix_rfl,
      hnumbers.append_literal w, hseen, .literal w, ?_⟩
    simp [written]
  | token u =>
    have hu := htokens u rfl
    by_cases hname : u.name ∈ seen
    · have hknown := (hseen _).1 hname
      obtain ⟨v, hv, hsame⟩ := (hnumbers.mem_iff _).1 hknown
      obtain ⟨i, hi⟩ := exists_lookup hknown
      refine ⟨_, _, names, seen, reads_recall hu.isIdentifier_name hi, List.suffix_rfl,
        hnumbers.append_again hknown, hseen, .again hv hsame (mem_names_of_lookup hi), ?_⟩
      rw [written, if_pos hname]
    · have hnew : u.name ∉ names.map Prod.fst := fun hmem => hname ((hseen _).2 hmem)
      obtain ⟨p, hread, hplain, hreads⟩ := reads_group hu
      have hseen' : ∀ x, x ∈ seen ++ [u.name] ↔
          x ∈ ((u.name, names.length + 1) :: names).map Prod.fst := by
        intro x
        rw [List.mem_append, hseen x, List.mem_singleton, or_comm, List.map_cons, List.mem_cons]
      have hfirst : ∀ v, .token v ∈ before → v.name ≠ u.name := fun v hv heq =>
        hnew ((hnumbers.mem_iff _).2 ⟨v, hv, heq⟩)
      refine ⟨_, _, _, _, hreads names, List.suffix_cons _ _, hnumbers.append_group hnew, hseen',
        .group hfirst (List.mem_cons_self ..) hread hplain, ?_⟩
      rw [written, if_neg hname]
  | template => cases hflat

/-- Flat segments are read one after another. -/
theorem reads_written {before ss : List Segment} {seen : List String}
    (hflat : ∀ s ∈ ss, s.isTemplate = false) (htokens : ∀ u, .token u ∈ ss → u.IsDerived)
    (hnumbers : Numbers before names) (hseen : ∀ x, x ∈ seen ↔ x ∈ names.map Prod.fst) :
    ∃ parts names', Reads names (written seen ss) (parts.flatMap Prod.snd) names' ∧
      names <:+ names' ∧ Numbers (before ++ ss) names' ∧ Stand names' before ss parts ∧
      written seen ss = parts.flatMap Prod.fst := by
  induction ss generalizing names before seen with
  | nil =>
    refine ⟨[], names, reads_nil, List.suffix_rfl, ?_, stand_nil, rfl⟩
    rwa [List.append_nil]
  | cons s ss ih =>
    obtain ⟨text, qs, names1, seen1, hreads, hsuffix, hnumbers1, hseen1, hstands, htext⟩ :=
      reads_segment ss (hflat s (List.mem_cons_self ..))
        (fun u hu => htokens u (hu ▸ List.mem_cons_self ..)) hnumbers hseen
    obtain ⟨parts, names2, hreads', hsuffix', hnumbers2, hstand, hparts⟩ :=
      ih (fun x hx => hflat x (List.mem_cons_of_mem _ hx))
        (fun u hu => htokens u (List.mem_cons_of_mem _ hu)) hnumbers1 hseen1
    refine ⟨(text, qs) :: parts, names2, ?_, hsuffix.trans hsuffix', by simpa using hnumbers2,
      hstand.cons (hstands.mono hsuffix'), ?_⟩
    · rw [htext]
      exact hreads.append hreads'
    · rw [htext, hparts]
      rfl

/-- An expression that is read outside all groups can only be too large. -/
theorem read_of_reads {regex : String} {qs : List Pattern} {names : List (String × Nat)}
    (h : Reads [] regex.toList qs names) : Composite.read regex =
      if sizeLimit < (concat qs).size then .error .tooLarge else .ok ⟨concat qs, names⟩ := by
  have htop : Top [] [] (regex.toList ++ []) (.start regex.toList) :=
    (List.append_nil regex.toList).symm ▸ Top.start regex.toList
  obtain ⟨r, hleads, hend, -⟩ := h [] [] (.start regex.toList) htop rfl
  have hrun : Reader.run step (regex.toList.length + 1) (.start regex.toList) = .ok r :=
    hleads.run_eq hend.rest_eq
  rw [Composite.read, readChars, hrun]
  exact hend.ofReader

end Pattern.Composite

/-! ## Templates -/

theorem Pattern.size_concat_le (p q : Pattern) (ps : List Pattern) :
    (concat (p :: ps)).size ≤ (concat (p :: (ps ++ [q]))).size := by
  induction ps generalizing p with
  | nil => exact Nat.le_add_right ..
  | cons p' ps ih => exact Nat.add_le_add_left (ih p') p.size

/-- **Composition never makes an expression that cannot be read.** Whatever the literals are,
however templates are nested and tokens repeated: with tokens of integers and of text without an
expression of their own, the expression is put together from what each segment adds in its place.
Each name of a token has one group, where it occurs first, and further occurrences ask for the text
of that group, which is closed before them. A template is refused only if the pattern of this
expression is too large. -/
theorem Template.create_of_isDerived (name : String) (kind : TemplateKind) (ss : List Segment)
    (htokens : ∀ u, .token u ∈ flattenAll ss → u.IsDerived) :
    ∃ parts names, Stand names [] (flattenAll ss) parts ∧ Numbers (flattenAll ss) names ∧
      (regexAll ss).toList = parts.flatMap Prod.fst ∧
      create name kind ss =
        if sizeLimit <
          (concat (.check .textStart :: (parts.flatMap Prod.snd ++ [.check .textEnd]))).size then
          .error (.invalidRegex name .tooLarge)
        else .ok {
          name, kind, segments := ss
          whole := ⟨concat (.check .textStart :: (parts.flatMap Prod.snd ++ [.check .textEnd])),
            names⟩
          leading := ⟨concat (.check .textStart :: parts.flatMap Prod.snd), names⟩ } := by
  have hseen : ∀ x, x ∈ ([] : List String) ↔ x ∈ ([] : List (String × Nat)).map Prod.fst := by simp
  obtain ⟨parts, names, hreads, -, hnumbers, hstand, hparts⟩ :=
    reads_written (not_isTemplate_flattenAll ss) htokens numbers_nil hseen
  have hregex : (regexAll ss).toList = Segment.written [] (flattenAll ss) := by
    rw [regexAll, ← composeAll_flattenAll, composeAll_regex (not_isTemplate_flattenAll ss)]
    rfl
  refine ⟨parts, names, hstand, hnumbers, hregex.trans hparts, ?_⟩
  have hleading : Reads [] ("^" ++ regexAll ss).toList ([.check .textStart] ++
      parts.flatMap Prod.snd) names := by
    rw [String.toList_append, hregex]
    exact reads_caret.append hreads
  have hwhole : Reads [] ("^" ++ regexAll ss ++ "$").toList
      ([.check .textStart] ++ parts.flatMap Prod.snd ++ [.check .textEnd]) names := by
    rw [String.toList_append]
    exact hleading.append reads_dollar
  have hsize := size_concat_le (.check .textStart) (.check .textEnd) (parts.flatMap Prod.snd)
  unfold create
  simp only [read_of_reads hwhole, read_of_reads hleading, List.cons_append, List.nil_append]
  by_cases htoo :
    sizeLimit < (concat (.check .textStart :: (parts.flatMap Prod.snd ++ [.check .textEnd]))).size
  · simp only [if_pos htoo]
  · have hfits : ¬ sizeLimit < (concat (.check .textStart :: parts.flatMap Prod.snd)).size := by
      omega
    simp only [if_neg htoo, if_neg hfits]

/-- Signs of expressions as literals, and a token once more in a template behind another token. -/
def signsBetween : List Segment :=
  [.literal "(?P<x>", .token Template.shortOrLong,
    .template "rest" .standard [.token Template.word, .literal ")#\x7b2",
      .token Template.shortOrLong]]

theorem Template.create_of_isDerived_signsBetween :
    (∀ u, .token u ∈ flattenAll signsBetween → u.IsDerived) ∧
      regexAll signsBetween = "\\(\\?P<x>(?P<x>(?:a|ab))(?P<w>[a-zA-Z]+)\\)\\#\\\x7b2(?P=x)" ∧
      ∃ parts names, Stand names [] (flattenAll signsBetween) parts ∧
        Numbers (flattenAll signsBetween) names ∧
        (regexAll signsBetween).toList = parts.flatMap Prod.fst ∧
        create "t" .standard signsBetween =
          if sizeLimit <
            (concat (.check .textStart :: (parts.flatMap Prod.snd ++ [.check .textEnd]))).size then
            .error (.invalidRegex "t" .tooLarge)
          else .ok {
            name := "t", kind := .standard, segments := signsBetween
            whole := ⟨concat (.check .textStart :: (parts.flatMap Prod.snd ++ [.check .textEnd])),
              names⟩
            leading := ⟨concat (.check .textStart :: parts.flatMap Prod.snd), names⟩ } := by
  have hderived : ∀ u, .token u ∈ flattenAll signsBetween → u.IsDerived := by
    have hflat : flattenAll signsBetween = [.literal "(?P<x>", .token shortOrLong, .token word,
        .literal ")#\x7b2", .token shortOrLong] := rfl
    intro u hu
    simp only [hflat, List.mem_cons, Segment.token.injEq, reduceCtorEq, List.not_mem_nil, or_false,
      false_or] at hu
    rcases hu with rfl | rfl | rfl
    · exact isDerived_shortOrLong
    · exact isPadded_word.isDerived
    · exact isDerived_shortOrLong
  exact ⟨hderived, by decide +kernel, create_of_isDerived "t" .standard signsBetween hderived⟩

end Stencil
