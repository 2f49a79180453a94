import Stencil.Proofs.Pattern.InsideComposite
import Stencil.Template.Basic

/-!
# The expressions of templates

What the composite expression of a template is read as: behind its beginning one pattern for each
character of a literal, a group with the pattern of each token that is new, and for a token that has
occurred the text of its group again (`Composes`, `read_composed`).
-/

namespace Stencil

open Pattern Pattern.Composite

namespace Segment

/-! ## Flat segments -/

mutual

theorem not_isTemplate_flatten : ∀ s : Segment, ∀ x ∈ s.flatten, x.isTemplate = false
  | .literal _, x, hx => by
    obtain rfl := List.mem_singleton.1 hx
    rfl
  | .token _, x, hx => by
    obtain rfl := List.mem_singleton.1 hx
    rfl
  | .template _ _ ss, x, hx => not_isTemplate_flattenAll ss x hx

theorem not_isTemplate_flattenAll : ∀ ss : List Segment, ∀ x ∈ flattenAll ss, x.isTemplate = false
  | [], _, hx => by cases hx
  | s :: ss, x, hx => by
    rw [flattenAll, List.mem_append] at hx
    exact hx.elim (not_isTemplate_flatten s x) (not_isTemplate_flattenAll ss x)

end

@[simp] theorem composeAll_append (c : Composition) (ss ts : List Segment) :
    composeAll c (ss ++ ts) = composeAll (composeAll c ss) ts := by
  induction ss generalizing c with
  | nil => rfl
  | cons s ss ih => exact ih (compose c s)

mutual

theorem composeAll_flatten : ∀ (c : Composition) (s : Segment), composeAll c s.flatten = compose c s
  | _, .literal _ => rfl
  | _, .token _ => rfl
  | c, .template _ _ ss => composeAll_flattenAll c ss

/-- What is composed is what nested templates hold. -/
theorem composeAll_flattenAll :
    ∀ (c : Composition) (ss : List Segment), composeAll c (flattenAll ss) = composeAll c ss
  | _, [] => rfl
  | c, s :: ss => by
    rw [flattenAll, composeAll_append, composeAll_flatten c s, composeAll_flattenAll _ ss]
    rfl

end

/-- What flat segments add to an expression in which the given names have occurred. -/
def written (names : List String) : List Segment → List Char
  | [] => []
  | .literal s :: ss => (quoteComposite s).toList ++ written names ss
  | .token t :: ss =>
    if t.name ∈ names then (recallOf t).toList ++ written names ss
    else (groupOf t).toList ++ written (names ++ [t.name]) ss
  | .template _ _ _ :: ss => written names ss

theorem composeAll_regex {ss : List Segment} (hss : ∀ s ∈ ss, s.isTemplate = false)
    (c : Composition) : (composeAll c ss).regex.toList = c.regex.toList ++ written c.names ss := by
  induction ss generalizing c with
  | nil => simp [composeAll, written]
  | cons s ss ih =>
    have ih := ih fun x hx => hss x (List.mem_cons_of_mem _ hx)
    cases s with
    | literal s => simp [composeAll, compose, Composition.addLiteral, written, ih]
    | token t =>
      by_cases ht : t.name ∈ c.names
      · simp [composeAll, compose, Composition.addToken, written, ih, ht]
      · simp [composeAll, compose, Composition.addToken, written, ih, ht]
    | template => cases hss _ (List.mem_cons_self ..)

/-! ## Reading -/

/-- Flat segments, behind tokens with the given names and groups, are read as these patterns. -/
inductive Composes : List (String × Nat) → List Segment → List Pattern → List (String × Nat) → Prop
  | nil (names : List (String × Nat)) : Composes names [] [] names
  | literal {names names' : List (String × Nat)} {ss : List Segment}
      {ps : List Pattern} (s : String) :
    Composes names ss ps names' →
    Composes names (.literal s :: ss) (s.toList.map Pattern.char ++ ps) names'
  | group {names names' : List (String × Nat)} {ss : List Segment}
      {ps : List Pattern} {t : Token} {i : Nat}
    {p q : Pattern} (new : t.name ∉ names.map Prod.fst) (below : ∀ m ∈ names, m.2 < i)
    (read : alone? t.regex = some p) (renumbered : p.Renumbered (i < ·) q) :
    Composes ((t.name, i) :: names) ss ps names' →
    Composes names (.token t :: ss) (.group i q :: ps) names'
  | again {names names' : List (String × Nat)} {ss : List Segment}
      {ps : List Pattern} {t : Token} {i : Nat}
    (known : names.lookup t.name = some i) :
    Composes names ss ps names' → Composes names (.token t :: ss) (.again i :: ps) names'

end Segment

namespace Pattern

/-! ## Quoted text -/

theorem quoteChars_cons (special : Char → Bool) (c : Char) (w : List Char) :
    quoteChars special (c :: w) = quoteChars special [c] ++ quoteChars special w := by
  simp only [quoteChars]
  split <;> rfl

theorem quoteChars_singleton_ne_nil (special : Char → Bool) (c : Char) :
    quoteChars special [c] ≠ [] := by
  simp only [quoteChars]
  split <;> exact List.cons_ne_nil _ _

end Pattern

namespace Pattern.Composite

open Reader

/-- Without the flag that drops blanks, only comments in parentheses are dropped. -/
theorem skip_plain {f : Flags} (hf : f.ignoreSpace = false) {c : Char} {cs : List Char}
    (hcomment : ∀ ds, c :: cs ≠ '(' :: '?' :: '#' :: ds) : skip f (c :: cs) = .ok (c :: cs) := by
  rw [skip, List.length_cons]
  by_cases hc : c = '#'
  · rw [hc, trim_hash, if_neg (by simp [hf])]
  · rw [trim_other _ hcomment hc, if_neg (by simp [hf])]

section Top

variable {ps : List Pattern} {names : List (String × Nat)} {rest : List Char} {r : Reader}

theorem step_top (h : Top ps names rest r) {c : Char} {cs : List Char} (hrest : rest = c :: cs)
    (hcomment : ∀ ds, c :: cs ≠ '(' :: '?' :: '#' :: ds) : step r = readSign r c cs := by
  have hskip : skip r.flags r.rest = .ok (c :: cs) := by
    rw [h.rest_eq, hrest]
    exact skip_plain (by rw [h.flags]) hcomment
  simp only [step, hskip, bind, Except.bind]

/-- A character of a literal. -/
theorem step_quoted {c : Char} {tail : List Char}
    (h : Top ps names (quoteChars isCompositeMeta [c] ++ tail) r) :
    step r = .ok (r.push (.char c) tail) := by
  by_cases hc : isCompositeMeta c = true
  · have hrest : quoteChars isCompositeMeta [c] ++ tail = '\\' :: c :: tail := by
      simp [quoteChars, hc]
    have hescape : readEscape {} false (c :: tail) =
        .ok (⟨.literal c, readEscape.quoteMeta c⟩, tail) := by
      simp only [isCompositeMeta, decide_eq_true_eq, List.mem_cons, List.not_mem_nil,
        or_false] at hc
      rcases hc with
        rfl | rfl | rfl | rfl | rfl | rfl | rfl | rfl | rfl | rfl | rfl | rfl | rfl | rfl | rfl <;>
        rfl
    rw [step_top h hrest (by simp), readSign]
    simp only [h.flags, hescape, bind, Except.bind, pushAtom, h.literal_eq]
    rfl
  · have hrest : quoteChars isCompositeMeta [c] ++ tail = c :: tail := by simp [quoteChars, hc]
    have hcomment : ∀ ds, c :: tail ≠ '(' :: '?' :: '#' :: ds := by
      intro ds heq
      obtain ⟨rfl, -⟩ := List.cons.inj heq
      exact hc (by decide)
    rw [step_top h hrest hcomment, readSign_literal r (by simpa using hc), h.literal_eq]

/-- The text of a literal. -/
theorem run_literal {w : List Char} {tail : List Char} {n : Nat} {r' : Reader}
    (h : Top ps names (quoteChars isCompositeMeta w ++ tail) r) (hn : r.rest.length < n)
    (hr : Reader.run step n r = .ok r') :
    ∃ m r1, Top (ps ++ w.map Pattern.char) names tail r1 ∧ r1.rest.length < m ∧
      Reader.run step m r1 = .ok r' := by
  induction w generalizing ps r n with
  | nil => exact ⟨n, r, by simpa [quoteChars] using h, hn, hr⟩
  | cons c w ih =>
    have hne := quoteChars_singleton_ne_nil isCompositeMeta c
    rw [quoteChars_cons, List.append_assoc] at h
    obtain ⟨n, rfl⟩ : ∃ k, n = k + 1 := ⟨n - 1, by omega⟩
    have hrest : r.rest ≠ [] := by
      rw [h.rest_eq]
      exact List.append_ne_nil_of_left_ne_nil hne _
    rw [run_step hrest, step_quoted h] at hr
    have htop := h.push (.char c) (quoteChars isCompositeMeta w ++ tail)
    have hlen := List.length_pos_of_ne_nil hne
    rw [h.rest_eq, List.length_append] at hn
    simpa using ih htop (by rw [htop.rest_eq]; omega) hr

/-- The characters of token names can stand in the names of groups. -/
theorem isNameChar_of_isNameChar {c : Char} (h : Stencil.isNameChar c = true) :
    isNameChar c = true := by
  simp only [Stencil.isNameChar, Bool.or_eq_true] at h
  simp only [isNameChar, Bool.or_eq_true]
  refine h.symm.imp_right fun halnum => ?_
  rwa [Unicode.isAlphanumeric, if_pos (toNat_lt_of_isAlphanum halnum)]

/-- A name of tokens ends where a name of groups does. -/
theorem takeName {name : String} (hname : isIdentifier name = true) {d : Char}
    (hd : isNameChar d = false) (tail : List Char) :
    (name.toList ++ d :: tail).takeWhile isNameChar = name.toList ∧
      (name.toList ++ d :: tail).dropWhile isNameChar = d :: tail := by
  obtain ⟨c, cs, hcs, hc, hall⟩ := (isIdentifier_iff name).1 hname
  have hchars : ∀ x ∈ name.toList, isNameChar x = true := by
    intro x hx
    rw [hcs] at hx
    refine isNameChar_of_isNameChar ?_
    rcases List.mem_cons.1 hx with rfl | hx
    · simp only [isNameStart, Bool.or_eq_true] at hc
      simp only [Stencil.isNameChar, Char.isAlphanum, Bool.or_eq_true]
      tauto
    · exact hall x hx
  rw [List.takeWhile_append_of_pos hchars, List.dropWhile_append_of_pos hchars]
  simp [hd]

theorem openNamed_eq {name : String} (hname : isIdentifier name = true)
    {r : Reader} (hr : r.opened = []) (tail : List Char) :
    openNamed r (name.toList ++ '>' :: tail) =
      .ok { r with
        contents := .empty, opened := [⟨r.contents, r.flags, some (r.groups + 1)⟩],
        groups := r.groups + 1, names := (name, r.groups + 1) :: r.names, rest := tail } := by
  obtain ⟨c, cs, hcs, -⟩ := (isIdentifier_iff name).1 hname
  obtain ⟨htake, hdrop⟩ := takeName hname (d := '>') (by decide) tail
  have hback : String.ofList (c :: cs) = name := by rw [← hcs, String.ofList_toList]
  unfold openNamed
  rw [htake, hdrop, hcs]
  simp [Reader.openCapture, Reader.openGroup, Reader.maxDepth, hr, hback]

theorem groupOf_append (t : Token) (tail : List Char) : (Segment.groupOf t).toList ++ tail =
    '(' :: '?' :: 'P' :: '<' :: (t.name.toList ++ '>' :: (t.regex.toList ++ ')' :: tail)) := by
  simp [Segment.groupOf]

theorem recallOf_append (t : Token) (tail : List Char) :
    (Segment.recallOf t).toList ++ tail =
      '(' :: '?' :: 'P' :: '=' :: (t.name.toList ++ ')' :: tail) := by
  simp [Segment.recallOf]

/-- The beginning of the group of a token that is new. -/
theorem step_entered {t : Token} {tail : List Char}
    (h : Top ps names ((Segment.groupOf t).toList ++ tail) r) (hname : isIdentifier t.name = true) :
    step r = .ok (r.entered t.name (t.regex.toList ++ ')' :: tail)) := by
  rw [step_top h (groupOf_append t tail) (by simp), readSign, readGroup]
  have hskip :
      skip r.flags ('?' :: 'P' :: '<' :: (t.name.toList ++ '>' :: (t.regex.toList ++ ')' :: tail)))
        = .ok ('?' :: 'P' :: '<' :: (t.name.toList ++ '>' :: (t.regex.toList ++ ')' :: tail))) :=
    skip_plain (by rw [h.flags]) (by simp)
  simp only [hskip, h.opened, maxDepth, bind, Except.bind]
  exact openNamed_eq hname h.opened _

/-- The end of the group of a token. -/
theorem step_leave {outer : Contents} {f : Flags} {i : Nat}
    {tail : List Char} (hflags : r.flags = {}) (hopened : r.opened = [⟨outer, f, some i⟩])
    (hrest : r.rest = ')' :: tail) :
    step r = .ok { r with
      flags := {}, contents := outer.push (.group i r.contents.close), opened :=
  [], rest := tail } := by
  have hskip : skip r.flags r.rest = .ok (')' :: tail) := by
    rw [hrest]
    exact skip_plain (by rw [hflags]) (by simp)
  rw [step, hskip]
  simp only [bind, Except.bind, readSign, closeGroup, hopened, hflags]

/-- The reference to a token that has occurred. -/
theorem step_recall {t : Token} {tail : List Char}
    (h : Top ps names ((Segment.recallOf t).toList ++ tail) r)
    (hname : isIdentifier t.name = true) :
    step r = match names.lookup t.name with
      | some i => .ok (r.push (.again i) tail)
      | none => .error (.unknownGroup t.name) := by
  have hstep : step r = readReference r (t.name.toList ++ ')' :: tail) := by
    rw [step_top h (recallOf_append t tail) (by simp), readSign, readGroup]
    have hskip : skip r.flags ('?' :: 'P' :: '=' :: (t.name.toList ++ ')' :: tail)) =
        .ok ('?' :: 'P' :: '=' :: (t.name.toList ++ ')' :: tail)) :=
      skip_plain (by rw [h.flags]) (by simp)
    simp only [hskip, h.opened, maxDepth, bind, Except.bind]
    rfl
  obtain ⟨c, cs, hcs, -⟩ := (isIdentifier_iff t.name).1 hname
  obtain ⟨htake, hdrop⟩ := takeName hname (d := ')') (by decide) tail
  have hback : String.ofList (c :: cs) = t.name := by rw [← hcs, String.ofList_toList]
  unfold readReference at hstep
  rw [htake, hdrop, hcs] at hstep
  rw [hstep]
  cases hlookup : names.lookup t.name with
  | none => simp only [hback, h.names_eq, hlookup]
  | some i => simp only [hback, h.names_eq, hlookup]

/-- A token that is new. -/
theorem run_group {t : Token} {p : Pattern} {tail : List Char} {n : Nat} {r' : Reader}
    (h : Top ps names ((Segment.groupOf t).toList ++ tail) r) (hname : isIdentifier t.name = true)
    (hread : alone? t.regex = some p) (hn : r.rest.length < n) (hr : Reader.run step n r = .ok r') :
    ∃ m r1 i q, p.Renumbered (i < ·) q ∧ (∀ m ∈ names, m.2 < i) ∧
      Top (ps ++ [.group i q]) ((t.name, i) :: names) tail r1 ∧ r1.rest.length < m ∧
      Reader.run step m r1 = .ok r' := by
  obtain ⟨a, ha, hend, hopened, hnames, hflags, rfl⟩ := alone?_eq_some hread
  have hrest := groupOf_append t tail
  have hlen : t.regex.toList.length + tail.length + 6 ≤ r.rest.length := by
    rw [h.rest_eq, hrest]
    simp
    omega
  obtain ⟨n, rfl⟩ : ∃ k, n = k + 1 := ⟨n - 1, by omega⟩
  have hne : r.rest ≠ [] := by
    rw [h.rest_eq, hrest]
    exact List.cons_ne_nil _ _
  rw [run_step hne, step_entered h hname] at hr
  obtain ⟨k, rfl⟩ : ∃ k, n = t.regex.toList.length + 1 + k + 1 :=
    ⟨n - t.regex.toList.length - 2, by omega⟩
  obtain ⟨m, r1, hm, h1, hr⟩ :=
    run_inside (.parenthesis tail) (h.inside t.name t.regex.toList (')' :: tail)) ha hend
      hnames (by rw [hflags]) hr
  obtain ⟨os, hos, hempty⟩ := h1.opened
  rw [hopened] at hempty
  cases hempty
  have hrest1 : r1.rest = ')' :: tail := by rw [h1.rest, hend]; rfl
  have hflags1 : r1.flags = {} := h1.flags.trans hflags
  have htop := h.leave rfl h1.names h1.groups tail
  obtain ⟨m, rfl⟩ : ∃ j, m = j + 1 := ⟨m - 1, by omega⟩
  rw [run_step (by simp [hrest1]), step_leave hflags1 hos hrest1] at hr
  have hbelow : ∀ j ∈ names, j.2 < r.groups + 1 := fun j hj => Nat.lt_succ_of_le (h.groups j hj)
  refine ⟨m, _, r.groups + 1, r1.contents.close, h1.contents.close, hbelow, htop, ?_, hr⟩
  rw [htop.rest_eq]
  omega

/-- A token that has occurred. -/
theorem run_recall {t : Token} {tail : List Char} {n : Nat} {r' : Reader}
    (h : Top ps names ((Segment.recallOf t).toList ++ tail) r) (hname : isIdentifier t.name = true)
    (hn : r.rest.length < n) (hr : Reader.run step n r = .ok r') :
    ∃ m r1 i, names.lookup t.name = some i ∧ Top (ps ++ [.again i]) names tail r1 ∧
      r1.rest.length < m ∧ Reader.run step m r1 = .ok r' := by
  have hrest := recallOf_append t tail
  obtain ⟨n, rfl⟩ : ∃ k, n = k + 1 := ⟨n - 1, by omega⟩
  have hne : r.rest ≠ [] := by
    rw [h.rest_eq, hrest]
    exact List.cons_ne_nil _ _
  rw [run_step hne, step_recall h hname] at hr
  cases hlookup : names.lookup t.name with
  | none =>
    rw [hlookup] at hr
    cases hr
  | some i =>
    rw [hlookup] at hr
    refine ⟨n, r.push (.again i) tail, i, rfl, h.push (.again i) tail, ?_, hr⟩
    rw [h.rest_eq, hrest] at hn
    simp only [List.length_cons, List.length_append] at hn
    have : (r.push (.again i) tail).rest = tail := rfl
    rw [this]
    omega

/-- The text of flat segments. -/
theorem run_written {ss : List Segment} (hflat : ∀ s ∈ ss, s.isTemplate = false)
    (htokens : ∀ t, .token t ∈ ss → isIdentifier t.name = true ∧ (alone? t.regex).isSome = true)
    {seen : List String} (hseen : ∀ x, x ∈ seen ↔ x ∈ names.map Prod.fst)
    {tail : List Char} {n : Nat} {r' : Reader}
    (h : Top ps names (Segment.written seen ss ++ tail) r) (hn : r.rest.length < n)
    (hr : Reader.run step n r = .ok r') :
    ∃ m r1 qs names', Segment.Composes names ss qs names' ∧ Top (ps ++ qs) names' tail r1 ∧
      r1.rest.length < m ∧ Reader.run step m r1 = .ok r' := by
  revert ps names seen r n
  induction ss with
  | nil =>
    intro ps names r seen hseen n h hn hr
    exact ⟨n, r, [], names, .nil names, by simpa [Segment.written] using h, hn, hr⟩
  | cons s ss ih =>
    have ih := @ih (fun x hx => hflat x (List.mem_cons_of_mem _ hx))
      fun t ht => htokens t (List.mem_cons_of_mem _ ht)
    intro ps names r seen hseen n h hn hr
    cases s with
    | literal w =>
      have htext : Segment.written seen (.literal w :: ss) ++ tail =
          quoteChars isCompositeMeta w.toList ++ (Segment.written seen ss ++ tail) := by
        simp [Segment.written, quoteComposite]
      rw [htext] at h
      obtain ⟨m, r1, h1, hm, hr⟩ := run_literal h hn hr
      obtain ⟨m, r2, qs, names', hqs, h2, hm, hr⟩ := ih hseen h1 hm hr
      exact ⟨m, r2, _, names', .literal w hqs, by simpa using h2, hm, hr⟩
    | token t =>
      obtain ⟨hname, hread⟩ := htokens t (List.mem_cons_self ..)
      obtain ⟨p, hp⟩ := Option.isSome_iff_exists.1 hread
      by_cases ht : t.name ∈ seen
      · have htext : Segment.written seen (.token t :: ss) ++ tail =
            (Segment.recallOf t).toList ++ (Segment.written seen ss ++ tail) := by
          simp [Segment.written, ht]
        rw [htext] at h
        obtain ⟨m, r1, i, hi, h1, hm, hr⟩ := run_recall h hname hn hr
        obtain ⟨m, r2, qs, names', hqs, h2, hm, hr⟩ := ih hseen h1 hm hr
        exact ⟨m, r2, _, names', .again hi hqs, by simpa using h2, hm, hr⟩
      · have htext : Segment.written seen (.token t :: ss) ++ tail =
            (Segment.groupOf t).toList ++ (Segment.written (seen ++ [t.name]) ss ++ tail) := by
          simp [Segment.written, ht]
        rw [htext] at h
        obtain ⟨m, r1, i, q, hq, hbelow, h1, hm, hr⟩ := run_group h hname hp hn hr
        have hseen' : ∀ x, x ∈ seen ++ [t.name] ↔ x ∈ ((t.name, i) :: names).map Prod.fst := by
          intro x
          rw [List.mem_append, hseen x, List.mem_singleton, or_comm, List.map_cons, List.mem_cons]
        obtain ⟨m, r2, qs, names', hqs, h2, hm, hr⟩ := ih hseen' h1 hm hr
        have hnew : t.name ∉ names.map Prod.fst := fun h => ht ((hseen _).2 h)
        exact ⟨m, r2, _, names', .group hnew hbelow hp hq hqs, by simpa using h2, hm, hr⟩
    | template => cases hflat _ (List.mem_cons_self ..)

end Top

variable {ss : List Segment} {e : Expression}

/-- What is read behind the anchor at the beginning of the expression of segments. -/
theorem readChars_composed
    (htokens : ∀ t, .token t ∈ Segment.flattenAll ss →
      isIdentifier t.name = true ∧ (alone? t.regex).isSome = true) {tail : List Char}
    (h : readChars ('^' :: ((Segment.regexAll ss).toList ++ tail)) = .ok e) :
    ∃ m r r' ps names, Segment.Composes [] (Segment.flattenAll ss) ps names ∧
      Top (.check .textStart :: ps) names tail r ∧ r.rest.length < m ∧
      Reader.run step m r = .ok r' ∧ Expression.ofReader r' = .ok e := by
  obtain ⟨r', hr, he⟩ := bind_eq_ok.1 h
  have hwritten : (Segment.regexAll ss).toList = Segment.written [] (Segment.flattenAll ss) := by
    rw [Segment.regexAll, ← Segment.composeAll_flattenAll,
      Segment.composeAll_regex (Segment.not_isTemplate_flattenAll ss)]
    rfl
  rw [hwritten] at hr
  have htop := Top.start ('^' :: (Segment.written [] (Segment.flattenAll ss) ++ tail))
  rw [run_step (List.cons_ne_nil _ _), step_top htop rfl (by simp)] at hr
  have hcaret := htop.push (.check .textStart) (Segment.written [] (Segment.flattenAll ss) ++ tail)
  obtain ⟨m, r1, ps, names, hps, h1, hm, hr⟩ := run_written (Segment.not_isTemplate_flattenAll ss)
    htokens (by simp) hcaret (by simp [Reader.push]) hr
  exact ⟨m, r1, r', ps, names, hps, by simpa using h1, hm, hr, he⟩

/-- The expression that matches whole texts. -/
theorem read_whole
    (htokens : ∀ t, .token t ∈ Segment.flattenAll ss →
      isIdentifier t.name = true ∧ (alone? t.regex).isSome = true)
    (h : Composite.read ("^" ++ Segment.regexAll ss ++ "$") = .ok e) :
    ∃ ps, Segment.Composes [] (Segment.flattenAll ss) ps e.names ∧
      e.pattern = .concat (.check .textStart :: (ps ++ [.check .textEnd])) := by
  have h' : readChars ('^' :: ((Segment.regexAll ss).toList ++ ['$'])) = .ok e := by
    simpa [Composite.read] using h
  obtain ⟨m, r, r', ps, names, hps, htop, hm, hr, he⟩ := readChars_composed htokens h'
  obtain ⟨m, rfl⟩ : ∃ k, m = k + 1 := ⟨m - 1, by omega⟩
  rw [run_step (by rw [htop.rest_eq]; exact List.cons_ne_nil _ _),
    step_top htop rfl (by simp)] at hr
  have hdollar : r.dollar = .check .textEnd := by rw [Reader.dollar, htop.flags]; rfl
  have hend := htop.push (.check .textEnd) []
  rw [← hdollar] at hend
  replace hr : Reader.run step m (r.push r.dollar []) = .ok r' := hr
  rw [run_end hend.rest_eq] at hr
  cases hr
  obtain rfl := hend.ofReader_eq he
  exact ⟨ps, hps, by rw [hdollar]; rfl⟩

/-- The expression that matches the beginnings of texts. -/
theorem read_leading
    (htokens : ∀ t, .token t ∈ Segment.flattenAll ss →
      isIdentifier t.name = true ∧ (alone? t.regex).isSome = true)
    (h : Composite.read ("^" ++ Segment.regexAll ss) = .ok e) :
    ∃ ps, Segment.Composes [] (Segment.flattenAll ss) ps e.names ∧
      e.pattern = .concat (.check .textStart :: ps) := by
  have h' : readChars ('^' :: ((Segment.regexAll ss).toList ++ [])) = .ok e := by
    simpa [Composite.read] using h
  obtain ⟨m, r, r', ps, names, hps, htop, -, hr, he⟩ := readChars_composed htokens h'
  rw [run_end htop.rest_eq] at hr
  cases hr
  obtain rfl := htop.ofReader_eq he
  exact ⟨ps, hps, rfl⟩

end Pattern.Composite

end Stencil
