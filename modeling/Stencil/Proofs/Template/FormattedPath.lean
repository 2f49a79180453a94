import Stencil.Proofs.Path.Normal
import Stencil.Proofs.Template.RoundTrip

/-!
# Paths that are recognized

A path template normalizes what it has rendered, and parses with its literals as they are written.
The texts of padded tokens hold no slash, dot or backslash, so all texts that a template can be
spelled as have the same number of each, and a formatted path that is recognized has lost none:
normalization has left it as it was rendered (`parse_formatted`). It does so for all values where
the template itself is written in normal form and no token stands for nothing.
-/

namespace Stencil

open Segment

/-! ## Characters of the literals -/

namespace Segment

variable {ss : List Segment} {c : Char} {fields : Fields} {o : FormatOptions}
  {s : String} {τ : String → String}

/-- A character that stands in no token's text is spelled in the literals alone. -/
theorem count_spell (hτ : ∀ u, .token u ∈ ss → c ∉ (τ u.name).toList) :
    (ss.flatMap (spell τ)).count c = (ss.flatMap (spell fun _ => "")).count c := by
  induction ss with
  | nil => rfl
  | cons x ss ih =>
    have ih := ih fun u hu => hτ u (List.mem_cons_of_mem _ hu)
    rw [List.flatMap_cons, List.flatMap_cons, List.count_append, List.count_append, ih,
      Nat.add_right_cancel_iff]
    cases x with
    | literal => rfl
    | template => rfl
    | token t => exact List.count_eq_zero.2 (hτ t (List.mem_cons_self ..))

theorem count_renderAll (hflat : ∀ x ∈ ss, x.isTemplate = false) (h : renderAll fields o ss = .ok s)
    (hfill : ∀ u w, .token u ∈ ss → u.fill fields o = .ok w → c ∉ w.toList) :
    s.toList.count c = (ss.flatMap (spell fun _ => "")).count c := by
  induction ss generalizing s with
  | nil =>
    cases h
    rfl
  | cons x ss ih =>
    obtain ⟨a, ha, hrest⟩ := bind_eq_ok.1 h
    obtain ⟨b, hb, hs⟩ := bind_eq_ok.1 hrest
    cases hs
    have ih := ih (fun y hy => hflat y (List.mem_cons_of_mem _ hy)) hb
      fun u w hu => hfill u w (List.mem_cons_of_mem _ hu)
    rw [String.toList_append, List.count_append, ih, List.flatMap_cons, List.count_append,
      Nat.add_right_cancel_iff]
    cases x with
    | literal w =>
      cases ha
      rfl
    | template => cases hflat _ (List.mem_cons_self ..)
    | token t => exact List.count_eq_zero.2 (hfill t a (List.mem_cons_self ..) ha)

/-- Where tokens stand for words, what is rendered differs in words from what any word spells. -/
theorem similar_renderAll (hflat : ∀ x ∈ ss, x.isTemplate = false)
    (h : renderAll fields o ss = .ok s)
    (hfill : ∀ u w, .token u ∈ ss → u.fill fields o = .ok w → Path.Word w.toList) {w : String}
    (hw : Path.Word w.toList) : Path.Similar s.toList (ss.flatMap (spell fun _ => w)) := by
  induction ss generalizing s with
  | nil =>
    cases h
    exact .nil
  | cons x ss ih =>
    obtain ⟨a, ha, hrest⟩ := bind_eq_ok.1 h
    obtain ⟨b, hb, hs⟩ := bind_eq_ok.1 hrest
    cases hs
    have ih := ih (fun y hy => hflat y (List.mem_cons_of_mem _ hy)) hb
      fun u w hu => hfill u w (List.mem_cons_of_mem _ hu)
    rw [String.toList_append, List.flatMap_cons]
    cases x with
    | literal v =>
      cases ha
      exact ih.append
    | template => cases hflat _ (List.mem_cons_self ..)
    | token t => exact .word (hfill t a (List.mem_cons_self ..) ha) hw ih

end Segment

namespace Template

variable {t : Template} {fields : Fields} {p r : String} {τ : String → String} {c : Char}

/-- The text of a template with a letter for each token. -/
def outline (t : Template) : List Char := t.flat.flatMap (spell fun _ => "x")

theorem prepare_path {cs : List Char} (h : '\\' ∉ cs) : TemplateKind.path.prepare cs = cs := by
  refine (List.map_congr_left fun c hc => if_neg ?_).trans (List.map_id' cs)
  rintro rfl
  exact h hc

/-- What is rendered and what a template is spelled as have the same characters other than letters
and digits. -/
theorem count_eq_of_spells (htokens : ∀ u, .token u ∈ t.flat → u.IsPadded)
    {cs : List Char} (hτ : t.Spells τ cs) (hr : renderAll fields .standard t.flat = .ok r)
    (hc : c.isAlphanum = false) : cs.count c = r.toList.count c := by
  have hmatched : ∀ u w, .token u ∈ t.flat → u.matches? w = true → c ∉ w.toList := by
    intro u w hu hw hmem
    have halnum := (htokens u hu).isAlphanum_of_matches hw c hmem
    rw [hc] at halnum
    cases halnum
  have hspelled : cs.count c = (t.flat.flatMap (spell fun _ => "")).count c := by
    rw [← hτ.spelled]
    refine count_spell fun u hu => ?_
    obtain ⟨v, hv⟩ := exists_first? hu
    exact hmatched v _ (token_mem_of_first? hv).1 (hτ.matched u.name v hv)
  rw [hspelled]
  refine (count_renderAll (not_isTemplate_flattenAll t.segments) hr fun u w hu hw => ?_).symm
  obtain ⟨v, -, hformat⟩ := Token.fill_standard hw
  exact hmatched u w hu (Token.format_eq_ok hformat).1

/-- What a path template formats is the normal form of what it has rendered. -/
theorem exists_rendered (hkind : t.kind = .path) (h : t.format fields .standard = .ok p) :
    ∃ r, renderAll fields .standard t.flat = .ok r ∧ p.toList = Path.normalizeChars r.toList := by
  obtain ⟨r, hr, hp⟩ := format_eq_ok_iff.1 h
  rw [hkind] at hp
  exact ⟨r, hr, by rw [hp, TemplateKind.finish, Path.normalize, String.toList_ofList]⟩

/-- A template is spelled as what it has rendered in normal form only if that was in normal form. -/
theorem rendered_of_spells (htokens : ∀ u, .token u ∈ t.flat → u.IsPadded)
    (hr : renderAll fields .standard t.flat = .ok r)
    (hτ : t.Spells τ (Path.normalizeChars r.toList)) : Path.normalizeChars r.toList = r.toList := by
  have hcount : ∀ c : Char, c.isAlphanum = false →
      (Path.normalizeChars r.toList).count c = r.toList.count c :=
    fun c hc => count_eq_of_spells htokens hτ hr hc
  have hback : '\\' ∉ r.toList := by
    rw [← List.count_eq_zero, ← hcount '\\' rfl, List.count_eq_zero]
    exact Path.backslash_not_mem_normalizeChars r.toList
  exact Path.normalizeChars_eq_self hback (hcount '/' rfl) (hcount '.' rfl)

/-- A template in normal form renders normal forms, if none of its tokens stands for nothing. -/
theorem rendered_of_outline (htokens : ∀ u, .token u ∈ t.flat → u.IsPadded)
    (hr : renderAll fields .standard t.flat = .ok r)
    (houtline : Path.normalizeChars t.outline = t.outline)
    (hnothing : ∀ u, .token u ∈ t.flat → u.matches? "" = false) :
    Path.normalizeChars r.toList = r.toList := by
  have hx : Path.Word "x".toList := ⟨List.cons_ne_nil _ _, List.forall_mem_singleton.2 rfl⟩
  have hfill : ∀ u w, .token u ∈ t.flat → u.fill fields .standard = .ok w → Path.Word w.toList := by
    intro u w hu hw
    obtain ⟨v, -, hformat⟩ := Token.fill_standard hw
    have hmatches := (Token.format_eq_ok hformat).1
    refine ⟨fun hnil => ?_, (htokens u hu).isAlphanum_of_matches hmatches⟩
    rw [String.toList_eq_nil_iff.1 hnil, hnothing u hu] at hmatches
    cases hmatches
  exact (similar_renderAll (not_isTemplate_flattenAll t.segments) hr hfill
    hx).normalizeChars_eq_self houtline

/-- **A path that a template has formatted is recognized by it exactly if it is as it was
rendered**: if normalization has changed nothing and all tokens of a name are filled alike, it is
not refused; if it is parsed, normalization has changed nothing. So it is where the template is in
normal form and no token matches nothing. -/
theorem parse_formatted {name : String} {segments : List Segment}
    (h : create name .path segments = .ok t) (htokens : ∀ u, .token u ∈ t.flat → u.IsPadded)
    (hformat : t.format fields .standard = .ok p) :
    (renderAll fields .standard t.segments = .ok p →
      (∀ u v, .token u ∈ t.flat → .token v ∈ t.flat → u.name = v.name →
        u.fill fields .standard = v.fill fields .standard) →
      t.parse p ≠ .error (.mismatch t.display p)) ∧
    (t.parse p ≠ .error (.mismatch t.display p) →
      (∀ why, t.parse p ≠ .error (.givenUp ⟨t.name, why⟩)) →
      renderAll fields .standard t.segments = .ok p) ∧
    (Path.normalizeChars t.outline = t.outline → (∀ u, .token u ∈ t.flat → u.matches? "" = false) →
      renderAll fields .standard t.segments = .ok p) := by
  obtain ⟨-, hkind, -⟩ := create_eq h
  obtain ⟨r, hr, hchars⟩ := exists_rendered hkind hformat
  have hcomposable : ∀ u, .token u ∈ t.flat → u.Composable := fun u hu => (htokens u hu).composable
  have hprepare : t.kind.prepare p.toList = Path.normalizeChars r.toList := by
    rw [hchars, hkind, prepare_path (Path.backslash_not_mem_normalizeChars r.toList)]
  have hsame : Path.normalizeChars r.toList = r.toList →
      renderAll fields .standard t.flat = .ok p := by
    intro hself
    rw [hself] at hchars
    rw [String.toList_inj.1 hchars]
    exact hr
  rw [← renderAll_flattenAll]
  refine ⟨fun hrender halike hmismatch => ?_, fun hmismatch hgivenUp => hsame ?_,
    fun houtline hnothing =>
    hsame (rendered_of_outline htokens hr houtline hnothing)⟩
  · have hgivenUp : ∀ why, t.parse p ≠ .error (.givenUp ⟨t.name, why⟩) := by simp [hmismatch]
    obtain ⟨hspells, -⟩ := renderAll_spells halike hrender
    rw [hchars, ← hprepare] at hspells
    exact (parse_eq_mismatch_iff h hcomposable hgivenUp).1 hmismatch ⟨_, hspells⟩
  · obtain ⟨τ, hτ⟩ := not_not.1 (mt (parse_eq_mismatch_iff h hcomposable hgivenUp).2 hmismatch)
    exact rendered_of_spells htokens hr (hprepare ▸ hτ)

/-! ## Two path templates

One in normal form, with a token that stands twice; and one whose literals normalization changes. -/

/-- A file in a directory of the same name at the root. -/
def fileUnderRoot : Template :=
  ⟨"t", .path, .literal "/" :: fileSegments,
    ⟨.concat [.check .textStart, .char '/',
      .group 1 (.repeated (.one (.union (.range 'a' 'z') (.range 'A' 'Z'))) 1 none true),
        .char '/', .again 1,
      .char '.', .char 't', .char 'x', .char 't', .check .textEnd], [("w", 1)]⟩,
    ⟨.concat [.check .textStart, .char '/',
      .group 1 (.repeated (.one (.union (.range 'a' 'z') (.range 'A' 'Z'))) 1 none true),
        .char '/', .again 1,
      .char '.', .char 't', .char 'x', .char 't'], [("w", 1)]⟩⟩

theorem parse_formatted_fileUnderRoot :
    create "t" .path (.literal "/" :: fileSegments) = .ok fileUnderRoot ∧
      (∀ u, .token u ∈ fileUnderRoot.flat → u.IsPadded) ∧
      fileUnderRoot.format (NameMap.empty.insert "w" (.text "ab")) .standard = .ok "/ab/ab.txt" ∧
      Path.normalizeChars fileUnderRoot.outline = fileUnderRoot.outline ∧
      fileUnderRoot.parse "/ab/ab.txt" ≠ .error (.mismatch fileUnderRoot.display "/ab/ab.txt") := by
  have hcreate : create "t" .path (.literal "/" :: fileSegments) = .ok fileUnderRoot := rfl
  have hflat : fileUnderRoot.flat = [.literal "/", .token word, .literal "/", .token word,
      .literal ".txt"] := rfl
  have htokens : ∀ u, .token u ∈ fileUnderRoot.flat → u = word := by simp [hflat]
  have hpadded : ∀ u, .token u ∈ fileUnderRoot.flat → u.IsPadded := fun u hu =>
    htokens u hu ▸ isPadded_word
  have hformat : fileUnderRoot.format (NameMap.empty.insert "w" (.text "ab")) .standard =
      .ok "/ab/ab.txt" := by
    have hfill : word.fill (NameMap.empty.insert "w" (.text "ab")) .standard = .ok "ab" :=
      format_word
    simp only [format, fileUnderRoot, fileSegments, renderAll, render, hfill]
    rfl
  have houtline : Path.normalizeChars fileUnderRoot.outline = fileUnderRoot.outline := by decide
  obtain ⟨hparse, -, hnormal⟩ := parse_formatted hcreate hpadded hformat
  refine ⟨hcreate, hpadded, hformat, houtline,
    hparse (hnormal houtline fun u hu => ?_) fun u v hu hv _ => ?_⟩
  · rw [htokens u hu]
    decide +kernel
  · rw [htokens u hu, htokens v hv]

/-- A directory whose literal is not in normal form. -/
def looseDirectory : Template :=
  ⟨"t", .path, [.literal "/root//", .token word],
    ⟨.concat (.check .textStart :: ("/root//".toList.map .char ++
      [.group 1 (.repeated (.one (.union (.range 'a' 'z') (.range 'A' 'Z'))) 1 none true),
        .check .textEnd])),
      [("w", 1)]⟩,
    ⟨.concat (.check .textStart :: ("/root//".toList.map .char ++
      [.group 1 (.repeated (.one (.union (.range 'a' 'z') (.range 'A' 'Z'))) 1 none true)])),
      [("w", 1)]⟩⟩

/-- What it formats it does not recognize. -/
theorem parse_formatted_looseDirectory :
    create "t" .path [.literal "/root//", .token word] = .ok looseDirectory ∧
      (∀ u, .token u ∈ looseDirectory.flat → u.IsPadded) ∧
      looseDirectory.format (NameMap.empty.insert "w" (.text "ab")) .standard = .ok "/root/ab" ∧
      looseDirectory.parse "/root/ab" = .error (.mismatch looseDirectory.display "/root/ab") := by
  have hflat : looseDirectory.flat = [.literal "/root//", .token word] := rfl
  have hformat : looseDirectory.format (NameMap.empty.insert "w" (.text "ab")) .standard =
      .ok "/root/ab" := by
    have hfill : word.fill (NameMap.empty.insert "w" (.text "ab")) .standard = .ok "ab" :=
      format_word
    simp only [format, looseDirectory, renderAll, render, hfill]
    rfl
  refine ⟨rfl, fun u hu => ?_, hformat, by decide +kernel⟩
  obtain rfl : u = word := by simpa [hflat] using hu
  exact isPadded_word

end Template

end Stencil
