import Stencil.Proofs.Template.Delimiting
import Stencil.Proofs.Template.Searching

/-!
# Fields of what a search finds

A path that is found fills the pattern of the search in, and it is parsed on its own. In a delimited
template both show the same text for each token (`Template.shown_of_search`): the parse has it of
the class of the tokens, so that the path has no more characters outside the class than the literals
have, and what stands for a star is of the class as well. So a token that had a value in the search
has it in what is found (`Template.search_agrees`).
-/

namespace Stencil

open Segment

namespace Path

variable {cs ds : List Char}

/-- No character of the text is a sign of a pattern. -/
def Unsigned (cs : List Char) : Prop := ∀ c ∈ cs, c ≠ '*' ∧ c ≠ '?' ∧ c ≠ '['

theorem Unsigned.bare (h : Unsigned cs) : Bare cs :=
  ⟨fun hc => (h _ hc).1 rfl, fun hc => (h _ hc).2.1 rfl⟩

theorem Unsigned.starred_append (h : Unsigned cs) (hds : Starred ds) : Starred (cs ++ ds) := by
  induction cs with
  | nil => exact hds
  | cons c cs ih =>
    obtain ⟨hstar, -, hbracket⟩ := h c (List.mem_cons_self ..)
    exact ⟨hbracket, fun hc => absurd hc hstar, ih fun c hc => h c (List.mem_cons_of_mem _ hc)⟩

end Path

/-! ## The pattern -/

namespace Segment

variable {fields : Fields} {o : FormatOptions} {W : List String} {ss : List Segment} {q : String}
  {inside : Char → Bool} {ds : List Char}

/-- Stars stand apart in the pattern of a delimited template. -/
theorem starred_of_renderAll (hdelimited : DelimitedBy inside ss)
    (hflat : ∀ x ∈ ss, x.isTemplate = false)
    (hliterals : ∀ w, .literal w ∈ ss → Path.Unsigned w.toList)
    (hkept : ∀ u w, .token u ∈ ss → u.name ∉ W → u.fill fields .standard = .ok w →
      Path.Unsigned w.toList)
    (h : renderAll fields (searchOptions W) ss = .ok q) :
      Path.Starred q.toList := by
  induction ss generalizing q with
  | nil =>
    cases h
    trivial
  | cons x ss ih =>
    obtain ⟨a, ha, hrest⟩ := bind_eq_ok.1 h
    obtain ⟨b, hb, hq⟩ := bind_eq_ok.1 hrest
    cases hq
    have ih := ih hdelimited.tail (fun y hy => hflat y (List.mem_cons_of_mem _ hy))
      (fun w hw => hliterals w (List.mem_cons_of_mem _ hw))
      (fun u w hu => hkept u w (List.mem_cons_of_mem _ hu)) hb
    rw [String.toList_append]
    cases x with
    | literal w =>
      cases ha
      exact (hliterals a (List.mem_cons_self ..)).starred_append ih
    | template => cases hflat _ (List.mem_cons_self ..)
    | token u =>
      rw [render, Token.fill_searchOptions] at ha
      split at ha
      · cases ha
        refine ⟨by decide, fun _ hhead => ?_, ih⟩
        -- Behind the star stands the end or a literal.
        rcases hdelimited [] u ss rfl with rfl | ⟨w, rest, c, cs, rfl, hw, -⟩
        · cases hb
          cases hhead
        · obtain ⟨a, ha, hrest⟩ := bind_eq_ok.1 hb
          obtain ⟨b, -, hq⟩ := bind_eq_ok.1 hrest
          cases ha
          cases hq
          rw [String.toList_append, hw] at hhead
          cases hhead
          exact (hliterals w (by simp) '*' (hw ▸ List.mem_cons_self ..)).1 rfl
      · next hu => exact (hkept u a (List.mem_cons_self ..) hu ha).starred_append ih

/-- What fills in a text that is rendered is made of texts that fill in what the segments add. -/
theorem exists_shown (h : renderAll fields o ss = .ok q) (hfills : Path.Fills q.toList ds) :
    ∃ ws, ds = ws.flatten ∧
      List.Forall₂ (fun x w => ∃ part, x.render fields o = .ok part ∧ Path.Fills part.toList w) ss
        ws := by
  induction ss generalizing q ds with
  | nil =>
    cases h
    cases hfills
    exact ⟨[], rfl, .nil⟩
  | cons x ss ih =>
    obtain ⟨a, ha, hrest⟩ := bind_eq_ok.1 h
    obtain ⟨b, hb, hq⟩ := bind_eq_ok.1 hrest
    cases hq
    rw [String.toList_append] at hfills
    obtain ⟨w, v, rfl, hw, hv⟩ := hfills.of_append
    obtain ⟨ws, rfl, hws⟩ := ih hb hv
    exact ⟨w :: ws, rfl, .cons ⟨a, ha, hw⟩ hws⟩

end Segment

namespace Template

variable {t : Template} {fields : Fields} {W : List String} {base : FileTree}
  {found : List (String × Fields)} {inside : Char → Bool} {s q : String} {τ : String → String}

/-- What a search yields is found for its pattern, and parsed. -/
theorem search_eq_ok (h : t.search fields W base = .ok found) :
    ∃ q g, renderAll fields (searchOptions W) t.flat = .ok q ∧
      Path.Glob.read (t.kind.finish q) = .ok g ∧ ∀ e ∈ found, e.1 ∈ g.search base ∧
      t.parse e.1 = .ok e.2 := by
  unfold search at h
  split at h
  · cases h
  next P hP =>
  split at h
  · cases h
  next g hread =>
  cases h
  rw [searchPattern_eq] at hP
  cases hq : renderAll fields (searchOptions W) t.flat with
  | error e => simp [hq, Except.map] at hP
  | ok q =>
    rw [hq] at hP
    cases hP
    refine ⟨q, g, rfl, hread, fun e he => ?_⟩
    obtain ⟨candidate, hmem, haccepted⟩ := List.mem_filterMap.1 he
    obtain ⟨s, hs, rfl⟩ := List.mem_map.1 hmem
    cases hparse : t.parse s with
    | error reason => simp [hparse, Candidate.accepted?] at haccepted
    | ok g' =>
      simp only [hparse, Candidate.accepted?, Option.some.injEq] at haccepted
      subst haccepted
      exact ⟨hs, hparse⟩

/-- If a text fills in the pattern of a search and is spelled by texts of the class, these fill in
what the segments add. -/
theorem shown_of_search (hdelimited : DelimitedBy inside t.flat)
    (hliterals : ∀ w, .literal w ∈ t.flat → Path.Unsigned w.toList)
    (hτ : ∀ u, .token u ∈ t.flat → ∀ c ∈ (τ u.name).toList, inside c = true)
    (hq : renderAll fields (searchOptions W) t.flat = .ok q)
    (hfills : Path.Fills q.toList (t.flat.flatMap (spell τ))) :
    ∀ x ∈ t.flat, ∃ part, x.render fields (searchOptions W) = .ok part ∧
      Path.Fills part.toList (spell τ x) := by
  have hflat : ∀ x ∈ t.flat, x.isTemplate = false := not_isTemplate_flattenAll t.segments
  obtain ⟨ws, heq, hshown⟩ := exists_shown hq hfills
  have hspelled : t.flat.flatMap (spell τ) = (t.flat.map (spell τ)).flatten := rfl
  rw [hspelled] at heq
  have hany : List.Forall₂ (Within fun _ => true) t.flat ws := by
    refine ((List.forall₂_and_left t.flat ws).2 ⟨fun x hx => hx, hshown⟩).imp fun x w h => ?_
    obtain ⟨hx, part, hpart, hfills⟩ := h
    cases x with
    | literal v =>
      cases hpart
      rw [hfills.eq_of_bare (hliterals part hx).bare]
      exact .literal part
    | token u => exact .token u fun _ _ => rfl
    | template => cases hflat _ hx
  have hwithin := (within_of_countP (within_spell hτ) hany).2 (by rw [heq])
  rw [← hdelimited.eq_of_flatten_eq (within_spell hτ) hwithin heq, List.forall₂_map_right_iff,
    List.forall₂_same] at hshown
  exact hshown

theorem not_mem_of_inside {w : String}
    (hseparators : ∀ c, inside c = true → Path.isSeparator c = false)
    (hw : ∀ c ∈ w.toList, inside c = true) : '/' ∉ w.toList := fun hmem => by
  have hseparator := hseparators '/' (hw '/' hmem)
  cases hseparator

/-- What is spelled by texts without separators has as many slashes as the pattern of a search. -/
theorem count_slash_of_search (hseparators : ∀ c, inside c = true → Path.isSeparator c = false)
    (hinside : ∀ u w, .token u ∈ t.flat → u.matches? w = true → ∀ c ∈ w.toList, inside c = true)
    (hτ : ∀ u, .token u ∈ t.flat → ∀ c ∈ (τ u.name).toList, inside c = true)
    (hq : renderAll fields (searchOptions W) t.flat = .ok q) :
    (t.flat.flatMap (spell τ)).count '/' = q.toList.count '/' := by
  rw [count_spell fun u hu => not_mem_of_inside hseparators (hτ u hu)]
  refine (count_renderAll (not_isTemplate_flattenAll t.segments) hq fun u w hu hw => ?_).symm
  rw [Token.fill_searchOptions] at hw
  split at hw
  · cases hw
    decide
  · obtain ⟨v, -, hformat⟩ := Token.fill_standard hw
    exact not_mem_of_inside hseparators (hinside u w hu (Token.format_eq_ok hformat).1)

/-- **What a search finds has the fields of the search**: in a delimited path template, whose
literals and values hold no sign of a pattern, whatever is found in a tree has for each token the
value that the token had in the search, if not any value would do for it. The tokens mean in the
template what they mean alone, all texts that they match are of one class of characters, in which
there is no separator, and the pattern is in normal form. -/
theorem search_agrees {name : String} {segments : List Segment}
    (h : create name .path segments = .ok t) (htokens : ∀ u, .token u ∈ t.flat → u.Composable)
    (hseparators : ∀ c, inside c = true → Path.isSeparator c = false)
    (hinside : ∀ u w, .token u ∈ t.flat → u.matches? w = true → ∀ c ∈ w.toList, inside c = true)
    (hdelimited : DelimitedBy inside t.flat)
    (hliterals : ∀ w, .literal w ∈ t.flat → Path.Unsigned w.toList)
    (hkept : ∀ u w, .token u ∈ t.flat → u.name ∉ W → u.fill fields .standard = .ok w →
      Path.Unsigned w.toList)
    (hnormal : ∀ q, renderAll fields (searchOptions W) t.flat = .ok q → Path.normalize q = q)
    (hbase : base.Proper) (hsearch : t.search fields W base = .ok found) :
    ∀ e ∈ found, ∀ u v, .token u ∈ t.flat → u.name ∉ W → fields.get? u.name = some v →
      e.2.get? u.name = some v := by
  intro e he u v hu hname hv
  have hflat : ∀ x ∈ t.flat, x.isTemplate = false := not_isTemplate_flattenAll t.segments
  obtain ⟨-, hkind, -⟩ := create_eq h
  obtain ⟨q, g, hq, hread, hfound⟩ := search_eq_ok hsearch
  obtain ⟨hs, hparse⟩ := hfound e he
  have hq' := hnormal q hq
  have hfinish : t.kind.finish q = q := by rw [hkind, TemplateKind.finish, hq']
  rw [hfinish] at hread
  have hstarred := starred_of_renderAll hdelimited hflat hliterals hkept hq
  obtain ⟨hback, hcases⟩ := Path.search_cases hq' hstarred hbase hread hs
  obtain ⟨τ, hτ, hvalues⟩ := exists_spells_of_parse h htokens hparse
  have hclass : ∀ u, .token u ∈ t.flat → ∀ c ∈ (τ u.name).toList, inside c = true := by
    intro u hu
    obtain ⟨u', hu'⟩ := exists_first? hu
    exact hinside u' _ (token_mem_of_first? hu').1 (hτ.matched u.name u' hu')
  have hspelled : t.flat.flatMap (spell τ) = e.1.toList := by
    rw [hτ.spelled, hkind, prepare_path hback]
  have hcount := count_slash_of_search hseparators hinside hclass hq
  rw [← hspelled] at hcases
  have hshown :=
    shown_of_search hdelimited hliterals hclass hq (hcases.resolve_right (not_not_intro hcount))
  -- The first token of the name has read the text that it was filled with.
  obtain ⟨u', hu'⟩ := exists_first? hu
  obtain ⟨hmem, hname'⟩ := token_mem_of_first? hu'
  obtain ⟨part, hpart, hfills⟩ := hshown (.token u') hmem
  rw [render, Token.fill_searchOptions, if_neg (hname' ▸ hname)] at hpart
  have htoken : τ u.name = part := by
    rw [← hname', ← String.toList_inj]
    exact hfills.eq_of_bare (hkept u' part hmem (hname' ▸ hname) hpart).bare
  obtain ⟨v', hv', hformat⟩ := Token.fill_standard hpart
  rw [hname', hv] at hv'
  cases hv'
  obtain ⟨v', hvalue, hget⟩ := hvalues u.name u' hu'
  rw [htoken, (Token.format_eq_ok hformat).2] at hvalue
  cases hvalue
  exact hget

/-! Two words, with a dot between them and without one. -/

/-- A second token of text without options. -/
def ending : Token := { word with name := "v" }

/-- A file name with an ending. -/
def fileWithEnding : Template :=
  ⟨"t", .path, [.token word, .literal ".", .token ending],
    ⟨.concat [.check .textStart,
      .group 1 (.repeated (.one (.union (.range 'a' 'z') (.range 'A' 'Z'))) 1 none true), .char '.',
      .group 2 (.repeated (.one (.union (.range 'a' 'z') (.range 'A' 'Z'))) 1 none true),
        .check .textEnd],
      [("v", 2), ("w", 1)]⟩,
    ⟨.concat [.check .textStart,
      .group 1 (.repeated (.one (.union (.range 'a' 'z') (.range 'A' 'Z'))) 1 none true), .char '.',
      .group 2 (.repeated (.one (.union (.range 'a' 'z') (.range 'A' 'Z'))) 1 none true)],
      [("v", 2), ("w", 1)]⟩⟩

/-- A directory with two files. -/
def filesWithEndings : FileTree := .directory "" [.file "ab.tex" "", .file "cd.tex" ""]

theorem isPadded_ending : ending.IsPadded :=
  ⟨Kind.text, TokenOptions.ofKind "str", ending, .inr rfl, rfl, rfl, rfl, rfl, rfl⟩

theorem fill_word : word.fill abFields (searchOptions ["v"]) = .ok "ab" := by
  rw [Token.fill_searchOptions, if_neg (by decide)]
  exact format_word

theorem render_fileWithEnding :
    renderAll abFields (searchOptions ["v"]) fileWithEnding.flat = .ok "ab.*" := by
  have hflat : fileWithEnding.flat = [.token word, .literal ".", .token ending] := rfl
  have hstar : ending.fill abFields (searchOptions ["v"]) = .ok "*" := rfl
  simp only [hflat, renderAll, render, fill_word, hstar]
  rfl

theorem search_fileWithEnding : fileWithEnding.search abFields ["v"] filesWithEndings =
    .ok [("ab.tex", (NameMap.empty.insert "v" (.text "tex")).insert "w" (.text "ab"))] := by
  have hanchored : Pattern.Anchored fileWithEnding.whole.pattern := Pattern.anchored_concat _
  have hpattern : fileWithEnding.searchPattern abFields ["v"] = .ok "ab.*" := by
    rw [searchPattern_eq, render_fileWithEnding]
    decide
  have hread : Path.Glob.read "ab.*" =
      .ok ⟨".", [.wild [.char 'a', .char 'b', .char '.', .anyText]]⟩ := by
    decide +kernel
  have hpaths :
      Path.Glob.search ⟨".", [.wild [.char 'a', .char 'b', .char '.', .anyText]]⟩ filesWithEndings =
        ["ab.tex"] := by
    have hfirst : Path.matchSigns [.char 'a', .char 'b', .char '.', .anyText] ['a', 'b', '.', 't',
        'e', 'x'] = true := by
      simp [Path.matchSigns]
    have hsecond : Path.matchSigns [.char 'a', .char 'b', .char '.', .anyText] ['c', 'd', '.', 't',
        'e', 'x'] = false := by
      simp [Path.matchSigns]
    have hjoin : Location.join "." "ab.tex" = "ab.tex" := by decide
    simp [Path.Glob.search, Path.Glob.walk, Path.specialEntries, filesWithEndings,
      FileTree.isDirectory, Location.entries, FileTree.entries, Location.enter,
      FileTree.name, hfirst, hsecond, hjoin]
  have hparse : fileWithEnding.parse "ab.tex" =
      .ok ((NameMap.empty.insert "v" (.text "tex")).insert "w" (.text "ab")) := by
    rw [parse, matchWith_plain hanchored rfl]
    decide +kernel
  simp only [search_of_read hpattern hread, candidates, hpaths, List.map_cons, List.map_nil, hparse]
  rfl

theorem search_agrees_fileWithEnding :
    create "t" .path [.token word, .literal ".", .token ending] = .ok fileWithEnding ∧
      fileWithEnding.search abFields ["v"] filesWithEndings =
        .ok [("ab.tex", (NameMap.empty.insert "v" (.text "tex")).insert "w" (.text "ab"))] ∧
      ∀ u v, .token u ∈ fileWithEnding.flat → u.name ∉ ["v"] → abFields.get? u.name = some v →
        ((NameMap.empty.insert "v" (.text "tex")).insert "w" (.text "ab") : Fields).get? u.name =
          some v := by
  have hcreate : create "t" .path [.token word, .literal ".", .token ending] =
      .ok fileWithEnding := rfl
  have hflat : fileWithEnding.flat = [.token word, .literal ".", .token ending] := rfl
  have htokens : ∀ u, .token u ∈ fileWithEnding.flat → u = word ∨ u = ending := by simp [hflat]
  have hpadded : ∀ u, .token u ∈ fileWithEnding.flat → u.IsPadded := by
    intro u hu
    rcases htokens u hu with rfl | rfl
    · exact isPadded_word
    · exact isPadded_ending
  have hdelimited : DelimitedBy Char.isAlphanum fileWithEnding.flat := by
    have hnil : Delimited [] := fun before u behind heq => by simp at heq
    have hending : Delimited [.token ending] := hnil.cons fun _ _ => .inl rfl
    have hliteral : Delimited [.literal ".", .token ending] := hending.cons fun _ heq => nomatch heq
    exact hliteral.cons fun _ _ => .inr ⟨".", _, '.', [], rfl, rfl, rfl⟩
  have hliterals : ∀ w, .literal w ∈ fileWithEnding.flat → Path.Unsigned w.toList := by
    intro w hw
    obtain rfl : w = "." := by simpa [hflat] using hw
    simp [Path.Unsigned]
  have hkept : ∀ u w, .token u ∈ fileWithEnding.flat → u.name ∉ ["v"] →
      u.fill abFields .standard = .ok w → Path.Unsigned w.toList := by
    intro u w hu hname hfill
    rcases htokens u hu with rfl | rfl
    · have hword : word.fill abFields .standard = .ok "ab" := format_word
      rw [hword] at hfill
      cases hfill
      simp [Path.Unsigned]
    · exact absurd (List.mem_singleton_self _) hname
  have hnormal : ∀ q, renderAll abFields (searchOptions ["v"]) fileWithEnding.flat = .ok q →
      Path.normalize q = q := by
    intro q hq
    rw [render_fileWithEnding] at hq
    cases hq
    decide
  have hplain : ∀ n ∈ ["ab.tex", "cd.tex"], Path.Plain n.toList := by
    intro n hn
    rcases List.mem_pair.1 hn with rfl | rfl <;> exact ⟨by simp [Path.Ordinary],
      by simp [Path.isSeparator]⟩
  have hbase : filesWithEndings.Proper := by
    refine .directory (fun e he => hplain e.name (List.mem_map_of_mem he)) fun e he => ?_
    rcases List.mem_pair.1 he with rfl | rfl <;> exact .file _ _
  refine ⟨hcreate, search_fileWithEnding, fun u v => ?_⟩
  exact search_agrees hcreate (fun u hu => (hpadded u hu).composable)
    (fun _ hc => Path.not_isSeparator_of_isAlphanum hc)
    (fun u w hu => (hpadded u hu).isAlphanum_of_matches) hdelimited hliterals hkept hnormal hbase
    search_fileWithEnding _ (List.mem_singleton_self _) u v

/-- A file name of two words that touch. -/
def fileOfTwoWords : Template :=
  ⟨"t", .path, [.token word, .token ending],
    ⟨.concat [.check .textStart,
      .group 1 (.repeated (.one (.union (.range 'a' 'z') (.range 'A' 'Z'))) 1 none true),
      .group 2 (.repeated (.one (.union (.range 'a' 'z') (.range 'A' 'Z'))) 1 none true),
        .check .textEnd],
      [("v", 2), ("w", 1)]⟩,
    ⟨.concat [.check .textStart,
      .group 1 (.repeated (.one (.union (.range 'a' 'z') (.range 'A' 'Z'))) 1 none true),
      .group 2 (.repeated (.one (.union (.range 'a' 'z') (.range 'A' 'Z'))) 1 none true)],
      [("v", 2), ("w", 1)]⟩⟩

/-- The parse gives a letter of the second word to the first one. -/
theorem search_fileOfTwoWords :
    create "t" .path [.token word, .token ending] = .ok fileOfTwoWords ∧
      fileOfTwoWords.search abFields ["v"] (.directory "" [.file "abcd" ""]) =
        .ok [("abcd", (NameMap.empty.insert "v" (.text "d")).insert "w" (.text "abc"))] ∧
      .token word ∈ fileOfTwoWords.flat ∧ word.name ∉ ["v"] ∧
      abFields.get? word.name = some (.text "ab") ∧
      ((NameMap.empty.insert "v" (.text "d")).insert "w" (.text "abc") : Fields).get? word.name =
        some (.text "abc") := by
  have hanchored : Pattern.Anchored fileOfTwoWords.whole.pattern := Pattern.anchored_concat _
  have hflat : fileOfTwoWords.flat = [.token word, .token ending] := rfl
  refine ⟨rfl, ?_, by simp [hflat], by decide, rfl, rfl⟩
  have hpattern : fileOfTwoWords.searchPattern abFields ["v"] = .ok "ab*" := by
    have hstar : ending.fill abFields (searchOptions ["v"]) = .ok "*" := rfl
    simp only [searchPattern_eq, hflat, renderAll, render, fill_word, hstar]
    decide
  have hread : Path.Glob.read "ab*" = .ok ⟨".", [.wild [.char 'a', .char 'b', .anyText]]⟩ := by
    decide +kernel
  have hpaths :
      Path.Glob.search ⟨".", [.wild [.char 'a', .char 'b', .anyText]]⟩
        (.directory "" [.file "abcd" ""]) = ["abcd"] := by
    have hmatches : Path.matchSigns [.char 'a', .char 'b', .anyText] ['a', 'b', 'c', 'd'] =
        true := by
      simp [Path.matchSigns]
    have hjoin : Location.join "." "abcd" = "abcd" := by decide
    simp [Path.Glob.search, Path.Glob.walk, Path.specialEntries, FileTree.isDirectory,
      Location.entries, FileTree.entries, Location.enter, FileTree.name, hmatches, hjoin]
  have hparse : fileOfTwoWords.parse "abcd" =
      .ok ((NameMap.empty.insert "v" (.text "d")).insert "w" (.text "abc")) := by
    rw [parse, matchWith_plain hanchored rfl]
    decide +kernel
  simp only [search_of_read hpattern hread, candidates, hpaths, List.map_cons, List.map_nil, hparse]
  rfl

end Template

end Stencil
