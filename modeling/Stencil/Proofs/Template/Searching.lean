import Stencil.Proofs.Path.Walking
import Stencil.Proofs.Template.FormattedPath
import Stencil.Template.Search

/-!
# What a search finds

The pattern of a search is what the template formats, with a star in the place of each token that
any value will do for (`Token.fill_search`). So what the template formats fills the pattern in
(`Segment.exists_pattern`), and where the pattern has no other signs than question marks and stars
that stand apart, and normalization treats the components around the stars as it treats what fills
them in, a search finds what the template formats (`Template.mem_search_of_format`).
-/

namespace Stencil

open Segment

/-! ## Values of a search -/

namespace NameMap

variable {α : Type}

theorem get?_foldl_erase (names : List String) (m : NameMap α) (x : String) :
    (names.foldl erase m).get? x = if x ∈ names then none else m.get? x := by
  induction names generalizing m with
  | nil => simp
  | cons n names ih =>
    rw [List.foldl_cons, ih, get?_erase]
    by_cases hx : x ∈ names
    · simp [hx]
    · by_cases hn : n = x
      · simp [hn]
      · simp [hx, hn, Ne.symm hn]

theorem get?_foldl_insert (names : List String) (value : α) (m : NameMap α) (x : String) :
    ((names.map fun n => (n, value)).foldl (fun m e => m.insert e.1 e.2) m).get? x =
      if x ∈ names then some value else m.get? x := by
  induction names generalizing m with
  | nil => simp
  | cons n names ih =>
    rw [List.map_cons, List.foldl_cons, ih, get?_insert]
    by_cases hx : x ∈ names
    · simp [hx]
    · by_cases hn : n = x
      · simp [hn]
      · simp [hx, hn, Ne.symm hn]

end NameMap

/-- What stands in for values in a search. -/
def searchOptions (wildcards : List String) : FormatOptions :=
  ⟨.ofList (wildcards.map fun w => (w, Template.wildcard)), true⟩

variable {W : List String} {fields : Fields} {u : Token} {ss : List Segment}
  {r p : String} {base : FileTree}

/-- Tokens that any value will do for are filled with a star, and the others as ever. -/
theorem Token.fill_searchOptions (u : Token) (fields : Fields) (W : List String) :
    u.fill fields (searchOptions W) = if u.name ∈ W then .ok Template.wildcard
      else u.fill fields .standard := by
  have hoverride : (searchOptions W).overrides.get? u.name =
      if u.name ∈ W then some Template.wildcard else none :=
    NameMap.get?_foldl_insert W Template.wildcard .empty u.name
  by_cases hu : u.name ∈ W
  · rw [fill, hoverride, if_pos hu, if_pos hu]
  · rw [fill, hoverride, if_neg hu, if_neg hu]
    rfl

/-- Values of other names do not matter for a token. -/
theorem Token.fill_foldl_erase (o : FormatOptions) (hu : u.name ∉ W) :
    u.fill (W.foldl NameMap.erase fields) o = u.fill fields o := by
  simp only [fill, NameMap.get?_foldl_erase, if_neg hu]

theorem Token.fill_search (u : Token) (fields : Fields) (W : List String) :
    u.fill (W.foldl NameMap.erase fields) (searchOptions W) =
      if u.name ∈ W then .ok Template.wildcard else u.fill fields .standard := by
  rw [fill_searchOptions]
  by_cases hu : u.name ∈ W
  · rw [if_pos hu, if_pos hu]
  · rw [if_neg hu, if_neg hu, fill_foldl_erase _ hu]

theorem Token.IsPadded.not_isSeparator {w : String} (h : u.IsPadded) (hw : u.matches? w = true) :
    ∀ c ∈ w.toList, Path.isSeparator c = false :=
  fun c hc => Path.not_isSeparator_of_isAlphanum (h.isAlphanum_of_matches hw c hc)

/-! ## The pattern of a search -/

/-- What is rendered fills in what is rendered for a search, if no token stands for a text with
separators. -/
theorem Segment.exists_pattern (hflat : ∀ x ∈ ss, x.isTemplate = false)
    (hseparators : ∀ u w, .token u ∈ ss → u.matches? w = true → ∀ c ∈ w.toList,
      Path.isSeparator c = false)
    (h : renderAll fields .standard ss = .ok r) :
    ∃ q, renderAll (W.foldl NameMap.erase fields) (searchOptions W) ss = .ok q ∧
      Path.Fills q.toList r.toList := by
  induction ss generalizing r with
  | nil =>
    cases h
    exact ⟨"", rfl, .nil⟩
  | cons x ss ih =>
    obtain ⟨a, ha, hrest⟩ := bind_eq_ok.1 h
    obtain ⟨b, hb, hr⟩ := bind_eq_ok.1 hrest
    cases hr
    obtain ⟨q, hq, hfills⟩ := ih (fun y hy => hflat y (List.mem_cons_of_mem _ hy))
      (fun u w hu => hseparators u w (List.mem_cons_of_mem _ hu)) hb
    obtain ⟨v, hv, hfirst⟩ :
      ∃ v, x.render (W.foldl NameMap.erase fields) (searchOptions W) = .ok v ∧
        Path.Fills v.toList a.toList := by
      cases x with
      | literal w =>
        cases ha
        exact ⟨a, rfl, .refl _⟩
      | template => cases hflat _ (List.mem_cons_self ..)
      | token u =>
        rw [render] at ha ⊢
        rw [Token.fill_search]
        by_cases hu : u.name ∈ W
        · obtain ⟨v, -, hformat⟩ := Token.fill_standard ha
          have hnone := hseparators u a (List.mem_cons_self ..) (Token.format_eq_ok hformat).1
          have hstar := Path.Fills.text hnone .nil
          rw [List.append_nil] at hstar
          exact ⟨Template.wildcard, if_pos hu, hstar⟩
        · exact ⟨a, by rw [if_neg hu, ha], .refl _⟩
    refine ⟨v ++ q, by rw [renderAll, hv, hq]; rfl, ?_⟩
    rw [String.toList_append, String.toList_append]
    exact hfirst.append hfills

namespace Template

variable {t : Template}

theorem searchPattern_eq (fields : Fields) (W : List String) :
    t.searchPattern fields W = (renderAll fields (searchOptions W) t.flat).map t.kind.finish := by
  rw [searchPattern, format, flat, renderAll_flattenAll]
  rfl

/-- A search goes through the candidates of its pattern. -/
theorem search_of_read {P : String} {g : Path.Glob} (hpattern : t.searchPattern fields W = .ok P)
    (hread : Path.Glob.read P = .ok g) :
    t.search fields W base = .ok ((t.candidates g base).filterMap Candidate.accepted?) := by
  simp only [search, hpattern, hread]

/-- **A search finds what the template formats**: if a path template whose tokens match no
separators has formatted some values as a path that it parses with these values, the path stands in
a file tree, and the search for it in the tree with any value for some of the names has a pattern in
which there is no bracket and no double star, then the search succeeds and yields the path with the
values. -/
theorem mem_search_of_format (hkind : t.kind = .path)
    (hseparators : ∀ u w, .token u ∈ t.flat → u.matches? w = true → ∀ c ∈ w.toList,
      Path.isSeparator c = false)
    (hformat : t.format fields .standard = .ok p) (hparse : t.parse p = .ok fields)
    (hpattern : ∀ P, t.searchPattern (W.foldl NameMap.erase fields) W = .ok P →
      Path.Starred P.toList)
    (halike : ∀ q r, renderAll (W.foldl NameMap.erase fields) (searchOptions W) t.flat = .ok q →
      renderAll fields .standard t.flat = .ok r →
      List.Forall₂ Path.Alike (q.toList.splitOnP Path.isSeparator)
        (r.toList.splitOnP Path.isSeparator))
    (hdirectory : base.isDirectory = true)
    (hfind : (base.find? (Path.entryNames p.toList)).isSome = true) :
    ∃ found, t.search (W.foldl NameMap.erase fields) W base = .ok found ∧ (p, fields) ∈ found := by
  obtain ⟨r, hr, hp⟩ := exists_rendered hkind hformat
  have hflat : ∀ x ∈ t.flat, x.isTemplate = false := not_isTemplate_flattenAll t.segments
  obtain ⟨q, hq, hfills⟩ := exists_pattern (W := W) hflat hseparators hr
  have hsearch : t.searchPattern (W.foldl NameMap.erase fields) W =
      .ok (.ofList (Path.normalizeChars q.toList)) := by
    rw [searchPattern_eq, hq, hkind]
    rfl
  have hstarred := hpattern _ hsearch
  rw [String.toList_ofList] at hstarred
  have hnames : Path.entryNames p.toList = Path.entryNames r.toList := by
    rw [Path.entryNames, hp, Path.components_normalizeChars, Path.entryNames]
  obtain ⟨g, hread, hmem⟩ := Path.mem_search_of_fills hfills (halike q r hq hr) hstarred
    hdirectory (hnames ▸ hfind)
  rw [← hp, String.ofList_toList] at hmem
  refine ⟨_, search_of_read hsearch hread, ?_⟩
  refine List.mem_filterMap.2 ⟨.accepted p fields, List.mem_map.2 ⟨p, hmem, ?_⟩, rfl⟩
  rw [hparse]

/-! Two directories: a file of the same name in one, and one whose name has brackets. -/

/-- A file at the root, in a directory of the same name. -/
def filesUnderRoot : FileTree := .directory "" [.directory "ab" [.file "ab.txt" ""]]

/-- The word that the file is named by. -/
def abFields : Fields := NameMap.empty.insert "w" (.text "ab")

theorem mem_search_of_format_fileUnderRoot :
    create "t" .path (.literal "/" :: fileSegments) = .ok fileUnderRoot ∧
      fileUnderRoot.format abFields .standard = .ok "/ab/ab.txt" ∧
      fileUnderRoot.parse "/ab/ab.txt" = .ok abFields ∧
      (filesUnderRoot.find? (Path.entryNames "/ab/ab.txt".toList)).isSome = true ∧
      ∃ found, fileUnderRoot.search (["w"].foldl NameMap.erase abFields) ["w"] filesUnderRoot =
        .ok found ∧ ("/ab/ab.txt", abFields) ∈ found := by
  have hflat : fileUnderRoot.flat = [.literal "/", .token word, .literal "/", .token word,
      .literal ".txt"] := rfl
  have hfill : word.fill abFields .standard = .ok "ab" := format_word
  have hrendered : renderAll abFields .standard fileUnderRoot.flat = .ok "/ab/ab.txt" := by
    simp only [hflat, renderAll, render, hfill]
    rfl
  have hformat : fileUnderRoot.format abFields .standard = .ok "/ab/ab.txt" :=
    format_eq_ok_iff.2 ⟨_, hrendered, by decide⟩
  have hparse : fileUnderRoot.parse "/ab/ab.txt" = .ok abFields := by decide
  have hfind : (filesUnderRoot.find? (Path.entryNames "/ab/ab.txt".toList)).isSome = true := by
    decide
  have hseparators : ∀ u w, .token u ∈ fileUnderRoot.flat → u.matches? w = true →
      ∀ c ∈ w.toList, Path.isSeparator c = false := by
    intro u w hu
    obtain rfl : u = word := by simpa [hflat] using hu
    exact isPadded_word.not_isSeparator
  have hpattern :
      renderAll (["w"].foldl NameMap.erase abFields) (searchOptions ["w"]) fileUnderRoot.flat =
        .ok "/*/*.txt" := by decide
  refine ⟨rfl, hformat, hparse, hfind,
    mem_search_of_format rfl hseparators hformat hparse ?_ ?_ rfl hfind⟩
  · intro P hP
    rw [searchPattern_eq, hpattern] at hP
    cases hP
    decide
  · intro q r hq hr
    rw [hpattern] at hq
    rw [hrendered] at hr
    cases hq
    cases hr
    have hsplit : "/*/*.txt".toList.splitOnP Path.isSeparator = [[], ['*'], "*.txt".toList] := by
      decide
    have hsplit' : "/ab/ab.txt".toList.splitOnP Path.isSeparator =
        [[], ['a', 'b'], "ab.txt".toList] := by decide
    have hordinary : ∀ part ∈ [['*'], "*.txt".toList, ['a', 'b'], "ab.txt".toList],
        Path.Ordinary part := by
      simp [Path.Ordinary]
    rw [hsplit, hsplit']
    refine .cons (.inl rfl) (.cons (.inr ⟨?_, ?_⟩) (.cons (.inr ⟨?_, ?_⟩) .nil)) <;>
      exact hordinary _ (by simp)

/-- A word in a directory whose name has brackets. -/
def bracketDirectory : Template :=
  ⟨"t", .path, [.literal "d[1]/", .token word],
    ⟨.concat (.check .textStart :: ("d[1]/".toList.map .char ++
      [.group 1 (.repeated (.one (.union (.range 'a' 'z') (.range 'A' 'Z'))) 1 none true),
        .check .textEnd])),
      [("w", 1)]⟩,
    ⟨.concat (.check .textStart :: ("d[1]/".toList.map .char ++
      [.group 1 (.repeated (.one (.union (.range 'a' 'z') (.range 'A' 'Z'))) 1 none true)])),
      [("w", 1)]⟩⟩

/-- That directory with a file in it. -/
def filesInBrackets : FileTree := .directory "" [.directory "d[1]" [.file "ab" ""]]

/-- The path is there, but the pattern means another one. -/
theorem search_bracketDirectory :
    create "t" .path [.literal "d[1]/", .token word] = .ok bracketDirectory ∧
      (∀ u w, .token u ∈ bracketDirectory.flat → u.matches? w = true →
        ∀ c ∈ w.toList, Path.isSeparator c = false) ∧
      bracketDirectory.format abFields .standard = .ok "d[1]/ab" ∧
      bracketDirectory.parse "d[1]/ab" = .ok abFields ∧
      (filesInBrackets.find? (Path.entryNames "d[1]/ab".toList)).isSome = true ∧
      bracketDirectory.search abFields [] filesInBrackets = .ok [] := by
  have hflat : bracketDirectory.flat = [.literal "d[1]/", .token word] := rfl
  have hanchored : Pattern.Anchored bracketDirectory.whole.pattern := Pattern.anchored_concat _
  have hfill : word.fill abFields .standard = .ok "ab" := format_word
  have hrendered : renderAll abFields .standard bracketDirectory.flat = .ok "d[1]/ab" := by
    simp only [hflat, renderAll, render, hfill]
    rfl
  refine ⟨rfl, fun u w hu => ?_, format_eq_ok_iff.2 ⟨_, hrendered, by decide⟩, ?_, by decide, ?_⟩
  · obtain rfl : u = word := by simpa [hflat] using hu
    exact isPadded_word.not_isSeparator
  · rw [parse, matchWith_plain hanchored rfl]
    decide +kernel
  · have hpattern : bracketDirectory.searchPattern abFields [] = .ok "d[1]/ab" := by
      have hoptions : searchOptions [] = .standard := rfl
      rw [searchPattern_eq, hoptions, hrendered]
      decide
    have hread : Path.Glob.read "d[1]/ab" =
        .ok ⟨".", [.wild [.char 'd', .oneOf [⟨'1', '1'⟩]], .literal "ab"]⟩ := by
      decide +kernel
    have hdifferent : Path.matchSigns [.char 'd', .oneOf [⟨'1', '1'⟩]] ['d', '[', '1', ']'] =
        false := by
      simp [Path.matchSigns, Path.CharRange.mem]
    have hnothing : Path.Glob.search ⟨".", [.wild [.char 'd', .oneOf [⟨'1', '1'⟩]], .literal "ab"]⟩
        filesInBrackets = [] := by
      simp [Path.Glob.search, Path.Glob.walk, Path.specialEntries, filesInBrackets,
        FileTree.isDirectory, Location.entries, FileTree.entries, Location.enter,
        FileTree.name, hdifferent]
    rw [search_of_read hpattern hread, candidates, hnothing]
    rfl

end Template

end Stencil
