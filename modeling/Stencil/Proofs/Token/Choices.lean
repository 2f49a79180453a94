import Stencil.Proofs.Template.Grouping
import Stencil.Proofs.Token.Classes

/-!
# Tokens of choices

The expression of choices is a group without a number of quoted texts, with a bar between each two.
Both readers read it as the same alternatives (`alone?_choices`), and so every token of integers or
of text without an expression of its own, of choices or of classes, means in the expression of a
template what it means alone (`IsDerived.composable`).
-/

namespace Stencil

open Pattern

namespace Pattern

/-! ## Quoted texts -/

/-- Quoted texts with a bar between each two. -/
def quotedChoices : List (List Char) → List Char
  | [] => []
  | [w] => quoteChars isMeta w
  | w :: ws => quoteChars isMeta w ++ '|' :: quotedChoices ws

theorem quotedChoices_cons (w v : List Char) (ws : List (List Char)) :
    quotedChoices (w :: v :: ws) = quoteChars isMeta w ++ '|' :: quotedChoices (v :: ws) := rfl

theorem toList_choicesRegex (cs : List Value) :
    (Kind.choicesRegex cs).toList =
      '(' :: '?' :: ':' :: (quotedChoices (cs.map fun c => c.display.toList) ++ [')']) := by
  have hquoted :
      ∀ cs : List Value, (String.intercalate "|" (cs.map fun c => quote c.display)).toList =
        quotedChoices (cs.map fun c => c.display.toList) := by
    intro cs
    induction cs with
    | nil => rfl
    | cons c cs ih =>
      cases cs with
      | nil => simp [quotedChoices, quote]
      | cons d cs =>
        simp only [List.map_cons] at ih ⊢
        rw [quotedChoices_cons, ← ih]
        simp [quote]
  simp [Kind.choicesRegex, hquoted]

namespace Reader

variable {step : Reader → Except Fault Reader} {r : Reader} {tail w : List Char}
  {ws : List (List Char)} {n : Nat}

/-- The reader reads what alternatives of quoted texts are written with, alone or in one group. -/
structure ReadsChoices (step : Reader → Except Fault Reader) : Prop where
  begins : ∀ (r : Reader) (cs : List Char), r.flags = {} → r.opened.length ≤ 1 →
    r.rest = '(' :: '?' :: ':' :: cs →
    step r = .ok { r with
      contents := .empty, opened := ⟨r.contents, {}, none⟩ :: r.opened, rest := cs }
  quoted : ∀ (r : Reader) (c : Char) (tail : List Char), r.flags = {} →
    r.rest = quoteChars isMeta [c] ++ tail → step r = .ok (r.push (.char c) tail)
  alternates : ∀ (r : Reader) (tail : List Char), r.flags = {} → r.rest = '|' :: tail →
    step r = .ok { r with contents := r.contents.alternate, rest := tail }
  ends : ∀ (r : Reader) (outer : Contents) (os : List OpenGroup) (tail : List Char), r.flags = {} →
    r.opened = ⟨outer, {}, none⟩ :: os → r.rest = ')' :: tail →
    step r = .ok { r with contents := outer.push r.contents.close, opened := os, rest := tail }

/-- A quoted text adds its characters. -/
theorem ReadsChoices.leadsTo_text (hstep : ReadsChoices step) (hflags : r.flags = {})
    (hrest : r.rest = quoteChars isMeta w ++ tail) :
    LeadsTo step r { r with
      contents := ⟨(w.map fun c => .part (.char c) true).reverse ++
        r.contents.items, r.contents.branches⟩,
      rest := tail } := by
  induction w generalizing r with
  | nil =>
    have hsame :
        { r with contents := ⟨[] ++ r.contents.items, r.contents.branches⟩, rest := tail } = r := by
      rw [show tail = r.rest from hrest.symm]
      rfl
    rw [List.map_nil, List.reverse_nil, hsame]
    exact .refl r
  | cons c w ih =>
    rw [quoteChars_cons, List.append_assoc] at hrest
    have hpos := List.length_pos_of_ne_nil (quoteChars_singleton_ne_nil isMeta c)
    have hlength : (r.push (.char c) (quoteChars isMeta w ++ tail)).rest.length <
        r.rest.length := by
      rw [hrest, List.length_append]
      exact Nat.lt_add_of_pos_left hpos
    refine (LeadsTo.of_step (hstep.quoted r c _ hflags hrest) hlength).trans ?_
    have hnext := @ih (r.push (.char c) (quoteChars isMeta w ++ tail)) hflags rfl
    simpa [Reader.push, Contents.push] using hnext

/-- Texts one behind the other are alternatives. -/
theorem ReadsChoices.leadsTo_texts (hstep : ReadsChoices step) (hflags : r.flags = {})
    (hitems : r.contents.items = []) (hrest : r.rest = quotedChoices (w :: ws) ++ tail) :
    ∃ c, c.close = choice (r.contents.branches.reverse ++ (w :: ws).map ofChars) ∧
      LeadsTo step r { r with contents := c, rest := tail } := by
  have hbranch : ∀ (w : List Char) (branches : List Pattern),
      (⟨(w.map fun c => .part (.char c) true).reverse, branches⟩ : Contents).branch =
      ofChars w := by
    intro w branches
    rw [Contents.branch, List.filterMap_reverse, List.reverse_reverse, List.filterMap_map]
    exact congrArg concat (congrFun List.filterMap_eq_map w)
  induction ws generalizing w r with
  | nil =>
    refine ⟨_, ?_, hstep.leadsTo_text hflags hrest⟩
    rw [hitems, List.append_nil, Contents.close, hbranch]
    simp
  | cons v ws ih =>
    rw [quotedChoices_cons, List.append_assoc, List.cons_append] at hrest
    -- The text, the bar, and then the others.
    obtain ⟨c, hclose, hothers⟩ := @ih { r with
      contents := ⟨[], ofChars w :: r.contents.branches⟩, rest :=
        quotedChoices (v :: ws) ++ tail } v hflags rfl rfl
    have hbar := hstep.alternates { r with
      contents := ⟨(w.map fun c => .part (.char c) true).reverse, r.contents.branches⟩
      rest := '|' :: (quotedChoices (v :: ws) ++ tail) } _ hflags rfl
    rw [Contents.alternate, hbranch] at hbar
    have htext := hstep.leadsTo_text hflags hrest
    rw [hitems, List.append_nil] at htext
    refine ⟨c, ?_, htext.trans ((LeadsTo.of_step hbar (Nat.lt_succ_self _)).trans hothers)⟩
    rw [hclose]
    simp

/-- The expression of choices is read as the alternatives, alone or in one group. -/
theorem ReadsChoices.leadsTo_choices (hstep : ReadsChoices step)
    (hne : ws ≠ []) (hflags : r.flags = {}) (hopened : r.opened.length ≤ 1)
    (hrest : r.rest = '(' :: '?' :: ':' :: (quotedChoices ws ++ ')' :: tail)) :
    LeadsTo step r { r with
      contents := r.contents.push (choice (ws.map ofChars)), rest := tail } := by
  obtain ⟨w, ws, rfl⟩ := List.exists_cons_of_ne_nil hne
  obtain ⟨c, hclose, htexts⟩ := hstep.leadsTo_texts (r := { r with
    contents := .empty, opened := ⟨r.contents, {}, none⟩ :: r.opened
    rest := quotedChoices (w :: ws) ++ ')' :: tail }) hflags rfl rfl
  have hbegins := hstep.begins r _ hflags hopened hrest
  have hends := hstep.ends { r with
    contents := c, opened := ⟨r.contents, {}, none⟩ :: r.opened
    rest := ')' :: tail } r.contents r.opened tail hflags rfl rfl
  rw [show c.close = choice ((w :: ws).map ofChars) from hclose] at hends
  refine (LeadsTo.of_step hbegins ?_).trans
    (htexts.trans (LeadsTo.of_step hends (Nat.lt_succ_self _)))
  rw [hrest]
  simp only [List.length_cons]
  omega

/-! ## Both readers -/

theorem readsChoices : ReadsChoices Reader.step where
  begins r cs hflags hopened hrest := by
    have hdepth : ¬ maxDepth ≤ r.opened.length := by
      simp only [maxDepth]
      omega
    have hplain : r.flags.ignoreSpace = false := by rw [hflags]
    rw [step_plain hplain hrest, readSign, readGroup, Flags.trim_of_not hplain]
    simp only [looksAround, openGroup, hdepth, hflags]
    rfl
  quoted _ _ _ hflags hrest := step_quoted hflags hrest
  alternates r tail hflags hrest := by
    rw [step_plain (by rw [hflags]) hrest, readSign]
  ends r outer os tail hflags hopened hrest := by
    rw [step_plain (by rw [hflags]) hrest, readSign, closeGroup, hopened, ← hflags]

end Reader

namespace Composite

theorem readsChoices : Reader.ReadsChoices step where
  begins r cs hflags hopened hrest := by
    have hplain : r.flags.ignoreSpace = false := by rw [hflags]
    have hskip : skip r.flags r.rest = .ok ('(' :: '?' :: ':' :: cs) := by
      rw [hrest]
      exact skip_plain hplain (by simp)
    have hdepth : ¬ maxDepth ≤ r.opened.length + 1 := by
      simp only [maxDepth]
      omega
    have hdeep : ¬ Reader.maxDepth ≤ r.opened.length := by
      simp only [Reader.maxDepth]
      omega
    rw [step, hskip]
    simp only [bind, Except.bind, readSign, readGroup, hdepth, Reader.openGroup, hdeep, hflags]
    rfl
  quoted r c tail hflags hrest := by
    have hliteral : r.literal c = .char c := by
      simp [Reader.literal, hflags, CharSet.foldIf, Pattern.char]
    have hplain : r.flags.ignoreSpace = false := by rw [hflags]
    by_cases hc : isMeta c = true
    · have hskip : skip r.flags r.rest = .ok ('\\' :: c :: tail) := by
        rw [hrest, quoteChars, if_pos hc]
        exact skip_plain hplain (by simp)
      have hescape : readEscape {} false (c :: tail) =
          .ok (⟨.literal c, readEscape.quoteMeta c⟩, tail) := by
        simp only [isMeta, decide_eq_true_eq, List.mem_cons, List.not_mem_nil, or_false] at hc
        rcases hc with
          rfl | rfl | rfl | rfl | rfl | rfl | rfl | rfl | rfl | rfl | rfl | rfl | rfl | rfl | rfl |
          rfl | rfl | rfl <;> rfl
      rw [step, hskip]
      simp only [bind, Except.bind, readSign, hflags, hescape, Reader.pushAtom, hliteral]
      rfl
    · have hcomposite : isCompositeMeta c = false := by
        simp only [isMeta, isCompositeMeta, decide_eq_true_eq, decide_eq_false_iff_not,
          List.mem_cons] at hc ⊢
        tauto
      have hskip : skip r.flags r.rest = .ok (c :: tail) := by
        rw [hrest, quoteChars, if_neg hc]
        refine skip_plain hplain fun ds heq => ?_
        obtain ⟨rfl, -⟩ := List.cons.inj heq
        exact absurd hcomposite (by decide)
      rw [step, hskip]
      simp only [bind, Except.bind, readSign_literal r hcomposite, hliteral]
  alternates r tail hflags hrest := by
    have hskip : skip r.flags r.rest = .ok ('|' :: tail) := by
      rw [hrest]
      exact skip_plain (by rw [hflags]) (by simp)
    rw [step, hskip]
    rfl
  ends r outer os tail hflags hopened hrest := by
    have hskip : skip r.flags r.rest = .ok (')' :: tail) := by
      rw [hrest]
      exact skip_plain (by rw [hflags]) (by simp)
    rw [step, hskip]
    simp only [bind, Except.bind, readSign, closeGroup, hopened, ← hflags]

end Composite

variable {cs : List Value}

/-- Either reader reads the expression of choices as these alternatives. -/
theorem alone?_choices (hne : cs ≠ []) :
    Reader.alone? (Kind.choicesRegex cs) =
      some (choice (cs.map fun c => ofChars c.display.toList)) ∧
      Composite.alone? (Kind.choicesRegex cs) =
        some (choice (cs.map fun c => ofChars c.display.toList)) := by
  have hws : cs.map (fun c => c.display.toList) ≠ [] := by simpa using hne
  have hmap : (cs.map fun c => c.display.toList).map ofChars = cs.map fun c =>
      ofChars c.display.toList := by
    rw [List.map_map]
    rfl
  have hrest : (Reader.start (Kind.choicesRegex cs).toList).rest =
      '(' :: '?' :: ':' :: (quotedChoices (cs.map fun c => c.display.toList) ++ [')']) :=
      toList_choicesRegex cs
  have hclose :
      (Contents.empty.push (choice ((cs.map fun c => c.display.toList).map ofChars))).close =
        choice (cs.map fun c => ofChars c.display.toList) := by rw [hmap]; rfl
  exact ⟨Reader.alone?_of_leadsTo (Reader.readsChoices.leadsTo_choices hws rfl
    (Nat.zero_le 1) hrest) hclose,
    Composite.alone?_of_leadsTo (Composite.readsChoices.leadsTo_choices hws rfl
      (Nat.zero_le 1) hrest) hclose⟩

theorem isRegular_choice {ps : List Pattern} (h : ∀ p ∈ ps, p.isRegular = true) :
    (choice ps).isRegular = true :=
  @choice_of_forall (·.isRegular = true) rfl (fun hp hq => Bool.and_eq_true_iff.2 ⟨hp, hq⟩) ps h

theorem mem_language_choice {ps : List Pattern} (hne : ps ≠ []) {w : List Char} :
    w ∈ (choice ps).language ↔ ∃ p ∈ ps, w ∈ p.language := by
  induction ps with
  | nil => exact absurd rfl hne
  | cons p ps ih =>
    cases ps with
    | nil => simp [choice]
    | cons q ps =>
      rw [List.exists_mem_cons_iff, ← ih (List.cons_ne_nil q ps), ← Language.mem_add]
      rfl

end Pattern

/-! ## Tokens -/

theorem Kind.choices?_ne_nil {o : TokenOptions} {cs : List Value}
    (h : choices? o = some cs) : cs ≠ [] := by
  rintro rfl
  unfold choices? at h
  split at h <;> cases h

namespace Token.IsDerived

variable {u : Token}

/-- Both readers read the expression of such a token alone as one pattern of characters, whose loops
take characters. -/
theorem exists_alone (h : u.IsDerived) :
    ∃ p, Reader.alone? u.regex = some p ∧ Composite.alone? u.regex = some p ∧ p.isRegular = true ∧
      p.loopsConsume = true := by
  have hvalid := h.valid
  obtain ⟨kind, o, v, hkind, hregex, hv, hu⟩ := h
  have hsame : v.regex = u.regex := by rw [hu]
  rcases shape_or_choices hkind hregex (ofOptions_eq hv).1 with ⟨sh, htext⟩ | ⟨cs, hcs, hchoices⟩
  · rw [hsame] at htext
    obtain ⟨hplain, hcomposite⟩ := alone?_shape htext (ordered_of_read htext hvalid)
    exact ⟨_, hplain, hcomposite, sh.isRegular_pattern, sh.loopsConsume_pattern⟩
  · obtain ⟨hplain, hcomposite⟩ := alone?_choices (Kind.choices?_ne_nil hcs)
    rw [← hsame, hchoices]
    refine ⟨_, hplain, hcomposite, isRegular_choice fun p hp => ?_,
      loopsConsume_choice fun p hp => ?_⟩
    · obtain ⟨c, -, rfl⟩ := List.mem_map.1 hp
      exact isRegular_ofChars _
    · obtain ⟨c, -, rfl⟩ := List.mem_map.1 hp
      exact loopsConsume_ofChars _

theorem composable (h : u.IsDerived) : u.Composable := by
  obtain ⟨p, hplain, hcomposite, hp, -⟩ := h.exists_alone
  exact composable_of_alone h.valid h.isIdentifier_name hplain hcomposite hp

end Token.IsDerived

end Stencil
