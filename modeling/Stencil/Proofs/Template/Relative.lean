import Stencil.Proofs.Path.Joining
import Stencil.Proofs.Pattern.Anchored
import Stencil.Proofs.Template.FormattedPath
import Stencil.Template.Search

/-!
# The rest of a path

What `extractRelative` leaves of a path is a relative path in normal form. Put behind what was taken
off, with a slash between the two, it gives the normal form of the path again, if the path was cut
where a component ends (`extractRelative_rejoins`): what stands behind a slash counts by the
components that it adds (`normalizeChars_slash_congr`), and neither slashes in front of it nor its
own normalization change these. The match may also end within a component, and then the two parts of
this component are two components of what is put together.
-/

namespace Stencil

namespace Path

variable {cs ds es : List Char}

/-! ## Behind a slash -/

/-- Behind a slash, paths that add the same components may be exchanged. -/
theorem normalizeChars_slash_congr
    (h : ∀ absolute kept, (ds.splitOnP isSeparator).foldl (pushComponent absolute) kept =
      (es.splitOnP isSeparator).foldl (pushComponent absolute) kept) (cs : List Char) :
    normalizeChars (cs ++ '/' :: ds) = normalizeChars (cs ++ '/' :: es) := by
  have habsolute : isAbsolute (cs ++ '/' :: ds) = isAbsolute (cs ++ '/' :: es) := by
    cases cs <;> rfl
  have hslash : isSeparator '/' = true := rfl
  rw [normalizeChars_eq_spell, normalizeChars_eq_spell, components, components, habsolute,
    List.splitOnP_append_cons _ _ hslash, List.splitOnP_append_cons _ _ hslash,
    List.foldl_append, List.foldl_append, h]

/-- A slash in front adds nothing. -/
theorem foldl_splitOnP_slash (absolute : Bool) (kept : List (List Char)) (ds : List Char) :
    (('/' :: ds).splitOnP isSeparator).foldl (pushComponent absolute) kept =
      (ds.splitOnP isSeparator).foldl (pushComponent absolute) kept := by
  rw [List.splitOnP_cons_eq_if_modifyHead, if_pos (by decide), List.foldl_cons,
    pushComponent_blank (.inl rfl)]

theorem foldl_splitOnP_dropWhile (absolute : Bool) (kept : List (List Char)) (ds : List Char) :
    ((ds.dropWhile (· = '/')).splitOnP isSeparator).foldl (pushComponent absolute) kept =
      (ds.splitOnP isSeparator).foldl (pushComponent absolute) kept := by
  induction ds with
  | nil => rfl
  | cons c ds ih =>
    by_cases hc : c = '/'
    · subst hc
      rw [List.dropWhile_cons_of_pos (by simp), ih, foldl_splitOnP_slash]
    · rw [List.dropWhile_cons_of_neg (by simpa using hc)]

/-- A relative path adds the components of its normal form. -/
theorem foldl_splitOnP_normalizeChars (hds : isAbsolute ds = false) (absolute : Bool)
    (kept : List (List Char)) :
    ((normalizeChars ds).splitOnP isSeparator).foldl (pushComponent absolute) kept =
      (ds.splitOnP isSeparator).foldl (pushComponent absolute) kept := by
  have hsolid : ∀ part ∈ components ds, Solid part :=
    fun part hpart => (settled_components ds).solid part (List.mem_reverse.2 hpart)
  have hkeep : components ds = keep false (ds.splitOnP isSeparator) := by rw [components, hds, keep]
  rw [normalizeChars_eq_spell, foldl_splitOnP_spell hsolid, hkeep,
    foldl_keep fun part hpart c hc => not_isSeparator_of_mem_splitOnP hpart hc]

/-! ## What is left -/

/-- What is left of the text behind a match: its normal form without the slashes in front. -/
def remainder (behind : List Char) : List Char := normalizeChars (behind.dropWhile (· = '/'))

theorem isAbsolute_dropWhile (hback : '\\' ∉ ds) : isAbsolute (ds.dropWhile (· = '/')) = false := by
  induction ds with
  | nil => rfl
  | cons c ds ih =>
    obtain ⟨hc, hds⟩ := not_or.1 (List.mem_cons.not.1 hback)
    by_cases hslash : c = '/'
    · rw [List.dropWhile_cons_of_pos (by simpa using hslash)]
      exact ih hds
    · rw [List.dropWhile_cons_of_neg (by simpa using hslash)]
      simp [isAbsolute, isSeparator, hslash, Ne.symm hc]

theorem isAbsolute_remainder (hback : '\\' ∉ ds) : isAbsolute (remainder ds) = false := by
  rw [remainder, isAbsolute_normalizeChars, isAbsolute_dropWhile hback]

theorem isRelative_remainder (hback : '\\' ∉ ds) : IsRelative (remainder ds) := by
  have hform := form_normalizeChars (ds.dropWhile (· = '/'))
  rwa [isAbsolute_dropWhile hback, if_neg Bool.false_ne_true] at hform

/-- What is left adds the components of all that stood behind. -/
theorem foldl_splitOnP_remainder (hback : '\\' ∉ ds) (absolute : Bool) (kept : List (List Char)) :
    ((remainder ds).splitOnP isSeparator).foldl (pushComponent absolute) kept =
      (ds.splitOnP isSeparator).foldl (pushComponent absolute) kept := by
  rw [remainder, foldl_splitOnP_normalizeChars (isAbsolute_dropWhile hback),
    foldl_splitOnP_dropWhile]

/-- A path is cut where a component ends: behind a slash or before one, or at its end if anything
was taken off. -/
def EndsComponent (taken behind : List Char) : Prop :=
  taken.getLast? = some '/' ∨ behind.head? = some '/' ∨ (taken ≠ [] ∧ behind = [])

/-- Cut where a component ends, a path is put together again from what was taken off and what is
left. -/
theorem normalizeChars_rejoin (hback : '\\' ∉ ds) (h : EndsComponent cs ds) :
    normalizeChars (cs ++ '/' :: remainder ds) = normalizeChars (cs ++ ds) := by
  rcases h with hlast | hhead | ⟨hcs, rfl⟩
  · obtain ⟨cs, rfl⟩ := List.getLast?_eq_some_iff.1 hlast
    rw [List.append_assoc, List.append_assoc, List.singleton_append, List.singleton_append]
    refine normalizeChars_slash_congr (fun absolute kept => ?_) cs
    rw [foldl_splitOnP_slash, foldl_splitOnP_remainder hback]
  · obtain ⟨ds, rfl⟩ := List.head?_eq_some_iff.1 hhead
    refine normalizeChars_slash_congr (fun absolute kept => ?_) cs
    rw [foldl_splitOnP_remainder hback, foldl_splitOnP_slash]
  · -- At the end of the path a single dot is left, which adds nothing.
    have hdot : remainder [] = ['.'] := rfl
    rw [hdot, List.append_nil, normalizeChars_eq_spell, normalizeChars_eq_spell,
      components_append hcs, isAbsolute_append hcs]
    exact congrArg _ (List.reverse_reverse _)

end Path

/-! ## Paths with either separator -/

theorem TemplateKind.backslash_not_mem_prepare (cs : List Char) :
    '\\' ∉ TemplateKind.path.prepare cs := by
  intro h
  obtain ⟨c, -, hc⟩ := List.mem_map.1 h
  split at hc
  · cases hc
  · next hne => exact hne hc

/-- Normalization takes either separator. -/
theorem Path.normalizeChars_prepare (cs : List Char) :
    Path.normalizeChars (TemplateKind.path.prepare cs) = Path.normalizeChars cs := by
  have hseparator : ∀ c, Path.isSeparator (if c = '\\' then '/' else c) = Path.isSeparator c := by
    intro c
    split
    · next hc => rw [hc]; rfl
    · rfl
  have hsplit : (TemplateKind.path.prepare cs).splitOnP Path.isSeparator =
      cs.splitOnP Path.isSeparator := by
    induction cs with
    | nil => rfl
    | cons c cs ih =>
      simp only [TemplateKind.prepare] at ih ⊢
      rw [List.map_cons, List.splitOnP_cons_eq_if_modifyHead, List.splitOnP_cons_eq_if_modifyHead,
        hseparator, ih]
      split
      · rfl
      · next hc =>
        rw [if_neg]
        rintro rfl
        exact hc rfl
  have habsolute : Path.isAbsolute (TemplateKind.path.prepare cs) = Path.isAbsolute cs := by
    cases cs with
    | nil => rfl
    | cons c cs => exact hseparator c
  rw [Path.normalizeChars_eq_spell, Path.normalizeChars_eq_spell, Path.components, Path.components,
    hsplit, habsolute]

open Pattern

namespace Template

variable {t : Template} {path rest : String} {fields : Fields}

/-- What is taken off a path and what is left are those of a match at its beginning. -/
theorem extractRelative_eq_ok (h : t.extractRelative path = .ok (fields, rest)) :
    ∃ taken behind, TemplateKind.path.prepare path.toList = taken ++ behind ∧
      t.extract (.ofList (taken ++ behind)) = .ok (fields, byteLength taken) ∧
      rest.toList = Path.remainder behind := by
  unfold extractRelative at h
  simp only at h
  generalize hcs : TemplateKind.path.prepare path.toList = cs at h
  have hprepare : t.kind.prepare cs = cs := by
    cases t.kind with
    | standard => rfl
    | path => exact prepare_path (hcs ▸ TemplateKind.backslash_not_mem_prepare path.toList)
  cases hmatch : t.matchWith t.leading (.ofList cs) with
  | error fault =>
    rw [hmatch] at h
    cases h
  | ok r =>
    rw [hmatch] at h
    cases h
    refine ⟨cs.take r.2, cs.drop r.2, (List.take_append_drop ..).symm, ?_, String.toList_ofList⟩
    rw [List.take_append_drop, extract, hmatch, String.toList_ofList, hprepare]
    rfl

/-- **What is left of a path is a relative path in normal form, and goes together again with what
was taken off** if the match ends where a component ends. -/
theorem extractRelative_rejoins (h : t.extractRelative path = .ok (fields, rest)) :
    ∃ taken behind, TemplateKind.path.prepare path.toList = taken ++ behind ∧
      t.extract (.ofList (taken ++ behind)) = .ok (fields, byteLength taken) ∧
      Path.normalize rest = rest ∧ Path.IsRelative rest.toList ∧
      Path.isAbsolute rest.toList = false ∧ (Path.EndsComponent taken behind →
        Path.normalize (.ofList taken ++ "/" ++ rest) = Path.normalize path) := by
  obtain ⟨taken, behind, hpath, hextract, hrest⟩ := extractRelative_eq_ok h
  have hback : '\\' ∉ behind := fun hmem =>
    TemplateKind.backslash_not_mem_prepare path.toList (hpath ▸ List.mem_append_right _ hmem)
  have hrelative : Path.IsRelative rest.toList := hrest ▸ Path.isRelative_remainder hback
  refine ⟨taken, behind, hpath, hextract, Path.normalize_eq_self_iff.2 (.inr hrelative), hrelative,
    hrest ▸ Path.isAbsolute_remainder hback, fun hends => ?_⟩
  have hjoined : (String.ofList taken ++ "/" ++ rest).toList =
      taken ++ '/' :: Path.remainder behind := by
    rw [String.toList_append, String.toList_append, String.toList_ofList, hrest, List.append_assoc]
    rfl
  rw [Path.normalize, Path.normalize, hjoined, Path.normalizeChars_rejoin hback hends, ← hpath,
    Path.normalizeChars_prepare]

/-! A word at the root, before a directory above it and before a digit. -/

/-- A word under the root. -/
def wordUnderRoot : Template :=
  ⟨"t", .path, [.literal "/root/", .token word],
    ⟨.concat (.check .textStart :: ("/root/".toList.map .char ++
      [.group 1 (.repeated (.one (.union (.range 'a' 'z') (.range 'A' 'Z'))) 1 none true),
        .check .textEnd])),
      [("w", 1)]⟩,
    ⟨.concat (.check .textStart :: ("/root/".toList.map .char ++
      [.group 1 (.repeated (.one (.union (.range 'a' 'z') (.range 'A' 'Z'))) 1 none true)])),
      [("w", 1)]⟩⟩

theorem anchored_wordUnderRoot : Anchored wordUnderRoot.leading.pattern := anchored_concat _

theorem extractRelative_rejoins_wordUnderRoot :
    create "t" .path [.literal "/root/", .token word] = .ok wordUnderRoot ∧
      wordUnderRoot.extractRelative "\\root/ab//../c/./d" =
        .ok (NameMap.empty.insert "w" (.text "ab"), "../c/d") ∧
      ∃ taken behind, TemplateKind.path.prepare "\\root/ab//../c/./d".toList = taken ++ behind ∧
        wordUnderRoot.extract (.ofList (taken ++ behind)) =
          .ok (NameMap.empty.insert "w" (.text "ab"), byteLength taken) ∧
        Path.normalize "../c/d" = "../c/d" ∧ Path.IsRelative "../c/d".toList ∧
        Path.isAbsolute "../c/d".toList = false ∧ (Path.EndsComponent taken behind →
          Path.normalize (.ofList taken ++ "/" ++ "../c/d") =
            Path.normalize "\\root/ab//../c/./d") := by
  have hextract : wordUnderRoot.extractRelative "\\root/ab//../c/./d" =
      .ok (NameMap.empty.insert "w" (.text "ab"), "../c/d") := by
    rw [extractRelative, matchWith_plain anchored_wordUnderRoot rfl]
    decide +kernel
  exact ⟨rfl, hextract, extractRelative_rejoins hextract⟩

/-- Within a component, what is put together has one component more. -/
theorem extractRelative_withinComponent :
    create "t" .path [.literal "/root/", .token word] = .ok wordUnderRoot ∧
      wordUnderRoot.extractRelative "/root/ab1" = .ok (NameMap.empty.insert "w" (.text "ab"), "1") ∧
      wordUnderRoot.extract "/root/ab1" = .ok (NameMap.empty.insert "w" (.text "ab"), 8) ∧
      "/root/ab1" = "/root/ab" ++ "1" ∧ byteLength "/root/ab".toList = 8 ∧
      Path.normalize ("/root/ab" ++ "/" ++ "1") ≠ Path.normalize "/root/ab1" := by
  refine ⟨rfl, ?_, ?_, rfl, rfl, by decide⟩
  · rw [extractRelative, matchWith_plain anchored_wordUnderRoot rfl]
    decide +kernel
  · rw [extract, matchWith_plain anchored_wordUnderRoot rfl]
    decide +kernel

end Template

end Stencil
