import Stencil.Proofs.Pattern.Consuming
import Stencil.Proofs.Template.Diagnosing

/-!
# What is diagnosed is parsed

A diagnosis matches the segments without an end, each in a group of its own, and a parse matches
them up to the end, with groups for tokens alone and perhaps by the other engine. Where each token
means the same to both (`Token.ReadAlike`) and no name occurs twice, both take the same cuts in the
same order (`Composes.forall₂_cuts`). A preferred cut that happens to cover the text is then also
the preferred one of those that cover it, so the fields of a diagnosis are those of the parse
(`parse_of_diagnose`).
-/

namespace Stencil

open Pattern Pattern.Composite Segment

/-! ## Literals -/

section

variable {strict : Bool} {text : Array Char}

/-- There is one way over the characters of a word, where they stand next in the text. -/
theorem Pattern.waysAll_chars (w : List Char) (s : Spot) :
    waysAll strict text (w.map char) s = if w <+: text.toList.drop s.pos then [s.advance w.length]
      else [] := by
  induction w generalizing s with
  | nil => simp [waysAll, Spot.advance]
  | cons c w ih =>
    have hadvance : (s.advance 1).advance w.length = s.advance (c :: w).length := by
      simp only [Spot.advance, List.length_cons]
      congr 1
      omega
    rw [List.map_cons, waysAll]
    cases hget : text[s.pos]? with
    | none =>
      have hdrop : text.toList.drop s.pos = [] := by
        rw [List.drop_eq_nil_iff, Array.length_toList]
        exact Array.getElem?_eq_none_iff.1 hget
      simp [char, ways, hget, hdrop]
    | some d =>
      have hdrop : text.toList.drop s.pos = d :: text.toList.drop (s.pos + 1) := by
        obtain ⟨hlt, rfl⟩ := Array.getElem?_eq_some_iff.1 hget
        rw [List.drop_eq_getElem_cons (by simpa using hlt), Array.getElem_toList]
      by_cases hc : d = c
      · have hway : ways strict text (char c) s = [s.advance 1] := by simp [char, ways, hget, hc]
        rw [hway, List.flatMap_singleton, ih, hadvance, hdrop, hc]
        simp only [List.cons_prefix_cons, true_and]
        rfl
      · have hway : ways strict text (char c) s = [] := by simp [char, ways, hget, hc]
        rw [hway, hdrop, if_neg fun h => hc (List.cons_prefix_cons.1 h).1.symm]
        rfl

theorem Segment.ends_literal (text : Array Char) (w : String) (a : Nat) :
    (Segment.literal w).ends text a =
      if w.toList <+: text.toList.drop a then [a + w.toList.length] else [] := by
  simp only [ends, alone?, ofChars, ways_concat, waysAll_chars]
  split <;> rfl

end

/-! ## Tokens -/

/-- Both readers read the expression of a token alone, and where the diagnosis tries its ends, the
given engine of the parse tries the same ends in the same order. -/
def Token.ReadAlike (strict : Bool) (u : Token) : Prop :=
  isIdentifier u.name = true ∧ ∃ p q, Reader.alone? u.regex = some p ∧
    Composite.alone? u.regex = some q ∧ ∀ (text : Array Char) a, a ≤ text.size →
      (ways strict text q ⟨a, []⟩).map Spot.pos = (ways false text p ⟨a, []⟩).map Spot.pos

/-- This is so if both read it as one pattern, whose loops take characters if the engine takes back
choices. -/
theorem Token.readAlike_of_alone {strict : Bool} {u : Token}
    (hname : isIdentifier u.name = true) {p : Pattern} (hplain : Reader.alone? u.regex = some p)
    (hcomposite : Composite.alone? u.regex = some p)
    (hloops : strict = true → p.loopsConsume = true) : u.ReadAlike strict := by
  refine ⟨hname, p, p, hplain, hcomposite, fun text a ha => ?_⟩
  cases strict with
  | false => rfl
  | true => rw [ways_eq_of_loopsConsume (hloops rfl) ha]

namespace Token.ReadAlike

variable {strict : Bool} {u : Token} {p q : Pattern} {text : Array Char}

theorem isSome_plain (h : u.ReadAlike strict) : (Reader.alone? u.regex).isSome = true := by
  obtain ⟨-, p, q, hp, -⟩ := h
  rw [hp]
  rfl

theorem isSome_composite (h : u.ReadAlike strict) : (Composite.alone? u.regex).isSome = true := by
  obtain ⟨-, p, q, -, hq, -⟩ := h
  rw [hq]
  rfl

/-- The ends that the diagnosis tries are those of the pattern that the parse tries. -/
theorem ends_eq (h : u.ReadAlike strict) (hp : Composite.alone? u.regex = some p)
    {a : Nat} (ha : a ≤ text.size) :
    (Segment.token u).ends text a = (ways strict text p ⟨a, []⟩).map Spot.pos := by
  obtain ⟨-, p', q', hp', hq', hsame⟩ := h
  rw [hp] at hq'
  cases hq'
  simp only [ends, Segment.alone?, hp']
  exact (hsame text a ha).symm

theorem ends_eq_group (h : u.ReadAlike strict) (hp : Composite.alone? u.regex = some p) {i : Nat}
    (renumbered : p.Renumbered (i < ·) q) {s : Spot} (hs : s.pos ≤ text.size) :
    (Segment.token u).ends text s.pos = (ways strict text (.group i q) s).map Spot.pos := by
  rw [h.ends_eq hp hs, renumbered.pos_ways_group]

end Token.ReadAlike

namespace Segment

variable {strict : Bool} {text : Array Char} {names names' : List (String × Nat)}
  {ss : List Segment} {ps : List Pattern}

theorem Composes.lookup_eq (h : Composes names ss ps names') {x : String}
    (hx : ∀ u : Token, Segment.token u ∈ ss → u.name ≠ x) : names'.lookup x = names.lookup x := by
  induction h with
  | nil => rfl
  | literal _ _ ih => exact ih fun u hu => hx u (List.mem_cons_of_mem _ hu)
  | @group _ _ _ _ t _ _ _ _ _ _ _ _ ih =>
    have hne : (x == t.name) = false := beq_eq_false_iff_ne.2 (hx t (List.mem_cons_self ..)).symm
    rw [ih fun u hu => hx u (List.mem_cons_of_mem _ hu), List.lookup_cons, hne]
  | again _ _ ih => exact ih fun u hu => hx u (List.mem_cons_of_mem _ hu)

/-- A spot has passed segments along a cut, and the groups of their tokens hold the parts of the
cut. -/
structure Follows (names names' : List (String × Nat)) (ss : List Segment) (s e : Spot)
    (cut : List (Nat × Nat)) :
    Prop where
  pos_eq : e.pos = cutEnd s.pos cut
  before : ∀ m ∈ names, e.group? m.2 = s.group? m.2
  part : ∀ (j : Nat) (u : Token) (x : Nat × Nat), ss[j]? = some (Segment.token u) →
    cut[j]? = some x → (names'.lookup u.name).bind e.group? = some x

/-- Without repetitions, the ways of a template's expression are the cuts of its segments, in the
same order. -/
theorem Composes.forall₂_cuts (h : Composes names ss ps names')
    (halike : ∀ u, .token u ∈ ss → u.ReadAlike strict)
    (hnew : ∀ u, .token u ∈ ss → u.name ∉ names.map Prod.fst)
    (hdistinct : ((ss.filterMap token?).map Token.name).Nodup) {s : Spot} (hs : s.pos ≤ text.size) :
    List.Forall₂ (Follows names names' ss s) (waysAll strict text ps s) (cuts text ss s.pos) := by
  induction h generalizing s with
  | nil names => exact .cons ⟨rfl, fun _ _ => rfl, by simp⟩ .nil
  | @literal names names' ss ps w _ ih =>
    rw [waysAll_append, waysAll_chars, cuts, ends_literal]
    split
    · next hprefix =>
      have hsize : s.pos + w.toList.length ≤ text.size := by
        have hlen := hprefix.length_le
        rw [List.length_drop] at hlen
        have hlength : text.toList.length = text.size := Array.length_toList
        omega
      have hrest := @ih (fun u hu => halike u (List.mem_cons_of_mem _ hu))
        (fun u hu => hnew u (List.mem_cons_of_mem _ hu)) hdistinct (s.advance w.toList.length) hsize
      rw [List.flatMap_singleton, List.flatMap_singleton, List.forall₂_map_right_iff]
      refine hrest.imp fun e cut he => ⟨he.pos_eq, he.before, fun j u x hu hx => ?_⟩
      cases j with
      | zero => cases hu
      | succ j => exact he.part j u x hu hx
    · exact .nil
  | @group names names' ss ps t i p q new below read renumbered hss ih =>
    rw [List.filterMap_cons_some (by rfl), List.map_cons] at hdistinct
    obtain ⟨hfresh, hrest⟩ := List.nodup_cons.1 hdistinct
    have hne : ∀ u : Token, Segment.token u ∈ ss → u.name ≠ t.name := fun u hu heq =>
      hfresh (heq ▸ List.mem_map_of_mem (List.mem_filterMap.2 ⟨_, hu, rfl⟩))
    rw [waysAll, cuts, (halike t (List.mem_cons_self ..)).ends_eq_group read renumbered hs,
      List.flatMap_map]
    refine forall₂_flatMap fun x hx => ?_
    have hsize := (leadsOn_ways strict text _ hs x hx).2
    have hnew' :
        ∀ u, .token u ∈ ss → u.name ∉ ((t.name, i) :: names).map Prod.fst := fun u hu hmem => by
      rcases List.mem_cons.1 hmem with heq | hmem
      · exact hne u hu heq
      · exact hnew u (List.mem_cons_of_mem _ hu) hmem
    have hparts := @ih (fun u hu => halike u (List.mem_cons_of_mem _ hu)) hnew' hrest x hsize
    rw [List.forall₂_map_right_iff]
    refine hparts.imp fun e cut he => ⟨he.pos_eq, fun m hm => ?_, fun j u y hu hy => ?_⟩
    · rw [he.before m (List.mem_cons_of_mem _ hm), renumbered.group?_below hx (below m hm)]
    · cases j with
      | zero =>
        cases hu
        cases hy
        have hlookup : names'.lookup t.name = some i := by
          rw [hss.lookup_eq hne]
          simp
        rw [hlookup, Option.bind_some, he.before _ (List.mem_cons_self ..), renumbered.group?_eq hx]
      | succ j => exact he.part j u y hu hy
  | @again names names' ss ps t i known hss ih =>
    exact absurd (List.mem_map_of_mem (mem_names_of_lookup known)) (hnew t (List.mem_cons_self ..))

end Segment

namespace Template

variable {t : Template} {s : String} {fields : Fields}

/-- The names that a diagnosis gives values to are those of tokens. -/
theorem diagnose_name (h : t.diagnose s = .ok fields) {x : String}
    (hx : (fields.get? x).isSome = true) : ∃ u, .token u ∈ t.flat ∧ u.name = x := by
  obtain ⟨-, e, f, -, -, -, hagrees⟩ := diagnose_iff_agrees.1 h
  obtain ⟨i, u, hu, hname, -⟩ := hagrees.held x hx
  exact ⟨u, List.mem_of_getElem? hu, hname⟩

/-- The values of the parts of a cut are read if each token's text is its part. -/
theorem readTokens_of_cut {text : Array Char} {textOf : String → Option String}
    {cut : List (Nat × Nat)} (hreads : List.Forall₂ (Reads text fields) t.flat cut)
    (hnames : ∀ x, (fields.get? x).isSome = true → ∃ u, .token u ∈ t.flat ∧ u.name = x)
    (htext : ∀ (j : Nat) (u : Token) (x : Nat × Nat), t.flat[j]? = some (.token u) →
      cut[j]? = some x → textOf u.name = some (.ofList (text.extract x.1 x.2).toList)) :
    readTokens textOf (t.tokens false) .empty = .ok fields := by
  have hvalue : ∀ u, .token u ∈ t.flat → ∃ w v, textOf u.name = some w ∧ u.readValue w = .ok v ∧
      fields.get? u.name = some v := by
    intro u hu
    obtain ⟨j, hj, hget⟩ := List.getElem_of_mem hu
    have hpart :=
      (List.forall₂_iff_get.1 hreads).2 j hj ((List.forall₂_iff_get.1 hreads).1 ▸ hj) u hget
    obtain ⟨v, hv, hfields⟩ := hpart
    exact ⟨_, v, htext j u _ (hget ▸ List.getElem?_eq_getElem hj) (List.getElem?_eq_getElem _), hv,
      hfields⟩
  let τ : String → String := fun x => (textOf x).getD ""
  have hτ : ∀ u ∈ t.tokens false, textOf u.name = some (τ u.name) := fun u hu => by
    obtain ⟨w, -, hw, -⟩ := hvalue u (token_mem_flat.1 hu)
    simp [τ, hw]
  obtain ⟨gs, hgs⟩ : ∃ gs, readTokens textOf (t.tokens false) .empty = .ok gs :=
    exists_readTokens hτ fun u hu => by
      obtain ⟨w, v, hw, hv, -⟩ := hvalue u (token_mem_flat.1 hu)
      exact ⟨v, by simpa [τ, hw] using hv⟩
  have hsame : gs = fields := by
    refine NameMap.ext_get? fun x => ?_
    obtain ⟨hheld, hfirst⟩ := readTokens_fields hτ hgs x
    cases hu : first? x t.flat with
    | some u =>
      obtain ⟨hmem, rfl⟩ := token_mem_of_first? hu
      obtain ⟨v, hv, hget⟩ := hfirst u hu
      obtain ⟨w, v', hw, hv', hget'⟩ := hvalue u hmem
      have hvv : v = v' := Except.ok.inj (hv.symm.trans (by simpa [τ, hw] using hv'))
      rw [hget, hget', hvv]
    | none =>
      have hnone : ¬ ∃ u, .token u ∈ t.flat ∧ u.name = x := by
        rintro ⟨u, hmem, hname⟩
        have := List.find?_eq_none.1 hu u (token_mem_flat.2 hmem)
        simp [hname] at this
      have hgs : gs.get? x = none := by
        refine Option.not_isSome_iff_eq_none.1 fun hsome => ?_
        obtain ⟨u, hmem, hname⟩ := hheld.1 hsome
        exact hnone ⟨u, token_mem_flat.1 hmem, hname⟩
      rw [hgs, Option.not_isSome_iff_eq_none.1 fun hsome => hnone (hnames x hsome)]
  rw [hgs, hsame]

section

variable {name : String} {kind : TemplateKind} {segments : List Segment} {strict : Bool}

/-- A diagnosis that gives fields has taken the preferred cut, whose parts stand for their
values. -/
theorem exists_cut_of_diagnose (htokens : ∀ u, .token u ∈ t.flat → u.ReadAlike strict)
    (h : t.diagnose s = .ok fields) :
    ∃ cut, (cuts (t.kind.prepare s.toList).toArray t.flat 0).head? = some cut ∧
      cutEnd 0 cut = (t.kind.prepare s.toList).toArray.size ∧
      List.Forall₂ (Reads (t.kind.prepare s.toList).toArray fields) t.flat cut := by
  obtain ⟨-, -, cut, hcut, hend, hreads⟩ :=
    (diagnose_iff_cut (fun u hu => (htokens u hu).isSome_plain) fun x => diagnose_name h).1 h
  exact ⟨cut, hcut, by rw [hend, List.size_toArray], hreads⟩

/-- The patterns of a template's expression. -/
theorem exists_composes_of_readAlike (h : create name kind segments = .ok t)
    (htokens : ∀ u, .token u ∈ t.flat → u.ReadAlike strict) :
    ∃ ps : List Pattern, Composes [] t.flat ps t.whole.names ∧
      t.whole.pattern = .concat (.check .textStart :: (ps ++ [Pattern.check .textEnd])) := by
  obtain ⟨-, -, -, hwhole, -⟩ := create_eq h
  exact read_whole (fun u hu => ⟨(htokens u hu).1, (htokens u hu).isSome_composite⟩) hwhole

/-- A parse that is not given up reads the values of the preferred way, where this covers the
text. -/
theorem parse_eq_of_way {ps : List Pattern} {text : Array Char} {e : Spot}
    (hpattern : t.whole.pattern = .concat (.check .textStart :: (ps ++ [Pattern.check .textEnd])))
    (hlimit : t.whole.pattern.needsBacktracking = true →
      ∀ why, t.parse s ≠ .error (.givenUp ⟨t.name, why⟩))
    (htext : (t.kind.prepare s.toList).toArray = text)
    (hfirst : (waysAll t.whole.pattern.needsBacktracking text ps ⟨0, []⟩).head? = some e)
    (hend : e.pos = text.size) :
    t.parse s = (readTokens (t.whole.groupText? ⟨0, e⟩ text) (t.tokens false) .empty).mapError
      .token := by
  have hanchored : Anchored t.whole.pattern := hpattern ▸ anchored_concat _
  have hway : (ways t.whole.pattern.needsBacktracking text t.whole.pattern ⟨0, []⟩).head? =
      some e := by
    obtain ⟨es, hes⟩ := List.head?_eq_some_iff.1 hfirst
    generalize t.whole.pattern.needsBacktracking = strict at hes
    rw [hpattern, ways_whole, hes, List.filter_cons_of_pos (by simpa using hend)]
    rfl
  have hparse : t.parse s = (t.matchWith t.whole s).map (·.1) := rfl
  rcases @Anchored.searchComposite_eq text _ hanchored with ⟨hback, why, hsearch⟩ | hsearch
  · exact absurd (parse_eq_givenUp_iff.2 (htext ▸ hsearch)) (hlimit hback why)
  · rw [hway] at hsearch
    simp only [matchWith, htext, hsearch] at hparse
    rw [hparse]
    cases readTokens (t.whole.groupText? ⟨0, e⟩ text) (t.tokens false) .empty <;> rfl

end

/-- Without repeated names, the fields of a diagnosis are those of the parse, if each token means
the same to both. -/
theorem parse_of_diagnose {name : String} {kind : TemplateKind} {segments : List Segment}
    (h : create name kind segments = .ok t) (hdistinct : ((t.tokens false).map Token.name).Nodup)
    (htokens : ∀ u, .token u ∈ t.flat → u.ReadAlike t.whole.pattern.needsBacktracking)
    (hlimit : t.whole.pattern.needsBacktracking = true →
      ∀ why, t.parse s ≠ .error (.givenUp ⟨t.name, why⟩))
    (hdiagnose : t.diagnose s = .ok fields) : t.parse s = .ok fields := by
  obtain ⟨cut, hcut, hend, hreads⟩ := exists_cut_of_diagnose htokens hdiagnose
  obtain ⟨ps, hps, hpattern⟩ := exists_composes_of_readAlike h htokens
  generalize htext : (t.kind.prepare s.toList).toArray = text at hcut hend hreads
  -- The preferred cut is a way over the whole text, and no way before it is one.
  have hways := hps.forall₂_cuts htokens (fun _ _ => List.not_mem_nil) hdistinct (s := ⟨0, []⟩)
    (Nat.zero_le text.size)
  obtain ⟨rest, hrest⟩ := List.head?_eq_some_iff.1 hcut
  rw [hrest] at hways
  obtain ⟨e, es, he, -, hes⟩ := List.forall₂_cons_right_iff.1 hways
  have hvalues : readTokens (t.whole.groupText? ⟨0, e⟩ text) (t.tokens false) .empty =
      .ok fields := by
    refine readTokens_of_cut hreads (fun x => diagnose_name hdiagnose) fun j u x hu hx => ?_
    have hpart := he.part j u x hu hx
    simp only [Expression.groupText?, Expression.named?]
    rw [hpart]
    rfl
  rw [parse_eq_of_way hpattern hlimit htext (by rw [hes, List.head?_cons]) (he.pos_eq.trans hend),
    hvalues]
  rfl

/-! ## Two templates

A token that looks at words before one of letters, where the parse takes back choices; and a
template outside the reach of the theorem, because the readers disagree on its token. -/

/-- A token of letters up to the end of a word. -/
def wordToEnd : Token :=
  ⟨"w", .custom, "[a-z]+\\b",
    ⟨.concat [.check .textStart, .concat [.repeated (.one (.range 'a' 'z')) 1 none true,
      .check (.wordBoundary true)], .check .textEnd], []⟩,
    .typed none, "", none⟩

/-- Letters behind a word. -/
def wordThenLetters : Template :=
  ⟨"t", .standard, [.token wordToEnd, .literal "-", .token letters],
    ⟨.concat [.check .textStart,
      .group 1 (.concat [.repeated (.one (.range 'a' 'z')) 1 none true,
        .check (.wordBoundary true)]), .char '-',
      .group 2 (.repeated (.char 'a') 1 none true), .check .textEnd], [("x", 2), ("w", 1)]⟩,
    ⟨.concat [.check .textStart,
      .group 1 (.concat [.repeated (.one (.range 'a' 'z')) 1 none true,
        .check (.wordBoundary true)]), .char '-',
      .group 2 (.repeated (.char 'a') 1 none true)], [("x", 2), ("w", 1)]⟩⟩

theorem readAlike_wordThenLetters (u : Token) (hu : .token u ∈ wordThenLetters.flat) :
    u.ReadAlike true := by
  have hflat : wordThenLetters.flat = [.token wordToEnd, .literal "-", .token letters] := rfl
  obtain rfl | rfl : u = wordToEnd ∨ u = letters := by simpa [hflat] using hu
  · refine Token.readAlike_of_alone rfl
      (p := .concat [.repeated (.one (.range 'a' 'z')) 1 none true, .check (.wordBoundary true)]) ?_
      ?_ fun _ => rfl
    · rfl
    · rfl
  · refine Token.readAlike_of_alone rfl (p := .repeated (.char 'a') 1 none true) ?_ ?_ fun _ => rfl
    · rfl
    · rfl

theorem parse_of_diagnose_wordThenLetters :
    create "t" .standard [.token wordToEnd, .literal "-", .token letters] = .ok wordThenLetters ∧
      wordThenLetters.diagnose "ab-aa" =
        .ok ((NameMap.empty.insert "w" (.text "ab")).insert "x" (.text "aa")) ∧
      wordThenLetters.parse "ab-aa" =
        .ok ((NameMap.empty.insert "w" (.text "ab")).insert "x" (.text "aa")) := by
  have hcreate : create "t" .standard [.token wordToEnd, .literal "-", .token letters] =
      .ok wordThenLetters := rfl
  have hflat : wordThenLetters.flat = [.token wordToEnd, .literal "-", .token letters] := rfl
  have hgroups : ∃ e, Expression.read (groupsRegex wordThenLetters.flat) = .ok e := by
    have htext : groupsRegex wordThenLetters.flat = "^(?P<s0>[a-z]+\\b)(?P<s1>\\-)(?P<s2>a+)" :=
      (groupsRegex_of_le (by decide)).trans rfl
    rw [htext]
    exact ⟨⟨.concat [.check .textStart,
      .group 1 (.concat [.repeated (.one (.range 'a' 'z')) 1 none true,
        .check (.wordBoundary true)]),
      .group 2 (.char '-'), .group 3 (.repeated (.char 'a') 1 none true)], [("s2", 3), ("s1", 2),
      ("s0", 1)]⟩, rfl⟩
  have hcut :
      (cuts (wordThenLetters.kind.prepare "ab-aa".toList).toArray wordThenLetters.flat 0).head? =
        some [(0, 2), (2, 3), (3, 5)] := by decide +kernel
  have hplain : ∀ u, .token u ∈ wordThenLetters.flat →
      (Reader.alone? u.regex).isSome = true := fun u hu => by
    obtain ⟨-, p, q, hp, -⟩ := readAlike_wordThenLetters u hu
    rw [hp]
    rfl
  have hdiagnose : wordThenLetters.diagnose "ab-aa" =
      .ok ((NameMap.empty.insert "w" (.text "ab")).insert "x" (.text "aa")) := by
    refine (diagnose_iff_cut hplain fun x hx => ?_).2
      ⟨by simp [hflat], hgroups, [(0, 2), (2, 3), (3, 5)], hcut, rfl, ?_⟩
    · rw [NameMap.get?_insert, NameMap.get?_insert] at hx
      by_cases hx' : "x" = x
      · exact ⟨letters, by simp [hflat], hx'⟩
      · by_cases hw : "w" = x
        · exact ⟨wordToEnd, by simp [hflat], hw⟩
        · rw [if_neg hx', if_neg hw] at hx
          cases hx
    · rw [hflat]
      refine .cons (fun u hu => ?_) (.cons (fun u hu => by cases hu) (.cons (fun u hu => ?_) .nil))
      · cases hu
        exact ⟨.text "ab", rfl, rfl⟩
      · cases hu
        exact ⟨.text "aa", rfl, rfl⟩
  refine ⟨hcreate, hdiagnose, parse_of_diagnose hcreate (by decide) ?_ ?_ hdiagnose⟩
  · exact readAlike_wordThenLetters
  · intro _ why
    cases why <;> decide +kernel

/-- A token that one reader reads as a loop of loops, and the other one as a loop that gives nothing
back. -/
def possessive : Token :=
  ⟨"a", .custom, "a++",
    ⟨.concat [.check .textStart, .repeated (.repeated (.char 'a') 1 none true) 1 none true,
      .check .textEnd], []⟩,
    .typed none, "", none⟩

/-- That token before one more of its letters. -/
def possessiveFirst : Template :=
  ⟨"t", .standard, [.token possessive, .literal "a"],
    ⟨.concat [.check .textStart, .group 1 (.atomic (.repeated (.char 'a') 1 none true)), .char 'a',
      .check .textEnd], [("a", 1)]⟩,
    ⟨.concat [.check .textStart, .group 1 (.atomic (.repeated (.char 'a') 1 none true)), .char 'a'],
      [("a", 1)]⟩⟩

/-- The diagnosis gives back a letter for the literal, and the parse does not. -/
theorem diagnose_possessiveFirst :
    Token.create "a" .custom "a++" (.typed none) = .ok possessive ∧
      create "t" .standard [.token possessive, .literal "a"] = .ok possessiveFirst ∧
      ((possessiveFirst.tokens false).map Token.name).Nodup ∧
      (Reader.alone? possessive.regex).isSome = true ∧
      possessiveFirst.diagnose "aa" = .ok (NameMap.empty.insert "a" (.text "a")) ∧
      possessiveFirst.parse "aa" = .error (.mismatch possessiveFirst.display "aa") := by
  have hplain : (Reader.alone? possessive.regex).isSome = true := rfl
  have hflat : possessiveFirst.flat = [.token possessive, .literal "a"] := rfl
  have hgroups : ∃ e, Expression.read (groupsRegex possessiveFirst.flat) = .ok e := by
    have htext : groupsRegex possessiveFirst.flat = "^(?P<s0>a++)(?P<s1>a)" :=
      (groupsRegex_of_le (by decide)).trans rfl
    rw [htext]
    exact ⟨⟨.concat [.check .textStart,
      .group 1 (.repeated (.repeated (.char 'a') 1 none true) 1 none true), .group 2 (.char 'a')],
      [("s1", 2), ("s0", 1)]⟩, rfl⟩
  have hcut :
      (cuts (possessiveFirst.kind.prepare "aa".toList).toArray possessiveFirst.flat 0).head? =
        some [(0, 1), (1, 2)] := by decide +kernel
  refine ⟨rfl, rfl, by decide, hplain, ?_, by decide +kernel⟩
  refine (diagnose_iff_cut (fun u hu => ?_) fun x hx => ?_).2 ⟨by simp [hflat], hgroups,
    [(0, 1), (1, 2)], hcut, rfl, ?_⟩
  · obtain rfl : u = possessive := by simpa [hflat] using hu
    exact hplain
  · rw [NameMap.get?_insert] at hx
    by_cases ha : "a" = x
    · exact ⟨possessive, by simp [hflat], ha⟩
    · rw [if_neg ha] at hx
      cases hx
  · rw [hflat]
    refine .cons (fun u hu => ?_) (.cons (fun u hu => by cases hu) .nil)
    cases hu
    exact ⟨.text "a", rfl, rfl⟩

end Template

end Stencil
