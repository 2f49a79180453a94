import Stencil.Proofs.Template.RoundTrip
import Stencil.Proofs.Token.Choices

/-!
# Formatted text is recognized

A token of integers or of text without an expression of its own formats only what it matches, and
matches in the expression of a template what it matches alone. So the text that a template has
formatted is one that it can be spelled as, and a search for it finds some match
(`parse_formatted_ne_mismatch`): another one perhaps, where the template is ambiguous.
-/

namespace Stencil.Template

open Segment

variable {t : Template} {fields : Fields} {s : String}

/-- Where derived tokens of one name are the same, the first of a name is any of them. -/
theorem first?_of_same (htokens : ∀ u, .token u ∈ t.flat → u.IsDerived)
    (hsame : ∀ u v, .token u ∈ t.flat → .token v ∈ t.flat → u.name = v.name → u.same v = true)
    {u : Token} (hu : .token u ∈ t.flat) : first? u.name t.flat = some u := by
  obtain ⟨v, hv⟩ := exists_first? hu
  obtain ⟨hmem, hname⟩ := token_mem_of_first? hv
  have heq : u = v := (htokens u hu).eq_of_same (htokens v hmem) (hsame u v hu hmem hname.symm)
  rw [hv, heq]

/-- **What a template of derived tokens has formatted is never refused as another text**, however
ambiguous it is: with any nesting, with tokens next to each other and tokens that stand several
times. -/
theorem parse_formatted_ne_mismatch {name : String} {segments : List Segment}
    (h : create name .standard segments = .ok t) (htokens : ∀ u, .token u ∈ t.flat → u.IsDerived)
    (hsame : ∀ u v, .token u ∈ t.flat → .token v ∈ t.flat → u.name = v.name → u.same v = true)
    (hformat : t.format fields .standard = .ok s) (template text : String) :
    t.parse s ≠ .error (.mismatch template text) := by
  obtain ⟨-, hkind, -⟩ := create_eq h
  obtain ⟨hspells, -⟩ := format_spells (fun u hu => first?_of_same htokens hsame hu) hkind hformat
  have hprepare : t.kind.prepare s.toList = s.toList := by rw [hkind]; rfl
  rw [← hprepare] at hspells
  rcases parse_cases h (fun u hu => (htokens u hu).composable) s with
    ⟨why, hgiven⟩ | ⟨-, hnone⟩ | ⟨σ, textOf, -, -, hparse⟩
  · simp [hgiven]
  · exact absurd ⟨_, hspells⟩ hnone
  · rw [hparse]
    cases readTokens textOf (t.tokens false) .empty <;> simp [Except.mapError]

/-! A word between two places of a token of a short and a long text. -/

/-- A token of two texts, the first of which is the beginning of the second. -/
def shortOrLong : Token :=
  ⟨"x", .text, "(?:a|ab)",
    ⟨.concat [.check .textStart,
      .alt (.one (.range 'a' 'a')) (.seq (.one (.range 'a' 'a')) (.one (.range 'b' 'b'))),
        .check .textEnd], []⟩,
    .typed (some .text), "Must be one of: [\"a\", \"ab\"]", none⟩

/-- The segments of that template. -/
def betweenSegments : List Segment :=
  [.token shortOrLong, .template "rest" .standard [.token word, .token shortOrLong]]

/-- A word between the same text twice. -/
def wordBetween : Template :=
  ⟨"t", .standard, betweenSegments,
    ⟨.concat [.check .textStart, .group 1 (.alt (.char 'a') (.seq (.char 'a') (.char 'b'))),
      .group 2 (.repeated (.one (.union (.range 'a' 'z') (.range 'A' 'Z'))) 1 none true), .again 1,
      .check .textEnd], [("w", 2), ("x", 1)]⟩,
    ⟨.concat [.check .textStart, .group 1 (.alt (.char 'a') (.seq (.char 'a') (.char 'b'))),
      .group 2 (.repeated (.one (.union (.range 'a' 'z') (.range 'A' 'Z'))) 1 none true), .again 1],
      [("w", 2), ("x", 1)]⟩⟩

theorem isDerived_shortOrLong : shortOrLong.IsDerived :=
  ⟨Kind.text, { TokenOptions.ofKind "str" with choices := some [.text "a", .text "ab"] },
    shortOrLong, .inr rfl, rfl,
    rfl, rfl⟩

theorem format_shortOrLong : shortOrLong.format (.text "ab") = .ok "ab" := by
  have hplain : Pattern.Reader.alone? shortOrLong.regex =
      some (.alt (.char 'a') (.seq (.char 'a') (.char 'b'))) := rfl
  have hmatches : shortOrLong.matches? "ab" = true := by
    refine (shortOrLong.matches?_iff isDerived_shortOrLong.valid hplain rfl "ab").2 (.inr ?_)
    have hword : ['a', 'b'] ∈ (Pattern.ofChars ['a', 'b']).language :=
      Pattern.mem_language_ofChars.2 rfl
    exact hword
  have hrender : shortOrLong.rule.render (.text "ab") = .ok "ab" := rfl
  have hread : shortOrLong.readValue "ab" = .ok (.text "ab") := rfl
  simp only [Token.format, Token.parse, hrender, hmatches, hread, if_true]

theorem parse_formatted_ne_mismatch_wordBetween :
    create "t" .standard betweenSegments = .ok wordBetween ∧
    (∀ u, .token u ∈ wordBetween.flat → u.IsDerived) ∧
      wordBetween.format ((NameMap.empty.insert "x" (.text "ab")).insert "w" (.text "ab"))
        .standard = .ok "ababab" ∧
      wordBetween.parse "ababab" ≠ .error (.mismatch wordBetween.display "ababab") := by
  have hcreate : create "t" .standard betweenSegments = .ok wordBetween := rfl
  have hflat : wordBetween.flat = [.token shortOrLong, .token word, .token shortOrLong] := rfl
  have htokens : ∀ u, .token u ∈ wordBetween.flat → u = shortOrLong ∨ u = word := by
    intro u hu
    simp only [hflat, List.mem_cons, Segment.token.injEq, List.not_mem_nil, or_false] at hu
    tauto
  have hderived : ∀ u, .token u ∈ wordBetween.flat → u.IsDerived := by
    intro u hu
    rcases htokens u hu with rfl | rfl
    · exact isDerived_shortOrLong
    · exact isPadded_word.isDerived
  have hformat :
      wordBetween.format ((NameMap.empty.insert "x" (.text "ab")).insert "w" (.text "ab"))
        .standard = .ok "ababab" := by
    have hx : shortOrLong.fill ((NameMap.empty.insert "x" (.text "ab")).insert "w"
        (.text "ab")) .standard = .ok "ab" := format_shortOrLong
    have hw : word.fill ((NameMap.empty.insert "x" (.text "ab")).insert "w" (.text "ab"))
        .standard = .ok "ab" :=
      format_word
    simp only [format, wordBetween, betweenSegments, renderAll, render, hx, hw]
    rfl
  refine ⟨hcreate, hderived, hformat, parse_formatted_ne_mismatch hcreate hderived
    (fun u v hu hv hname => ?_) hformat _ _⟩
  rcases htokens u hu with rfl | rfl <;> rcases htokens v hv with rfl | rfl
  · decide
  · exact absurd hname (by decide)
  · exact absurd hname (by decide)
  · decide

end Stencil.Template
