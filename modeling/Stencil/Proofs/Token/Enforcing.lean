import Stencil.Proofs.Token.Widths

/-!
# Choices that hold

A token of integers or of text that is built with choices matches them and no other text, whatever
its padding and its rule (`Token.matches?_iff_choice`). Only a case takes their place: text that is
held to a case is matched by the case and the bounds, and the choices are not looked at.
-/

namespace Stencil

namespace Kind

variable {name regex cls : String} {o : TokenOptions} {kind : Kind} {cs : List Value}

theorem choices?_eq_some (h : o.choices = some cs) (hne : cs ≠ []) : choices? o = some cs := by
  obtain ⟨c, cs, rfl⟩ := List.exists_cons_of_ne_nil hne
  rw [choices?, h]

theorem classRegex_of_choices (hchoices : o.choices = some cs) (hne : cs ≠ [])
    (h : classRegex o cls = .ok regex) : regex = choicesRegex cs := by
  unfold classRegex at h
  split at h
  · simp [TokenOptions.constrains, hchoices] at h
  · obtain ⟨padding, -, h⟩ := bind_eq_ok.1 h
    rw [choices?_eq_some hchoices hne] at h
    exact (Except.ok.inj h).symm

/-- Choices make up the expression on their own, unless a case does. -/
theorem regex_of_choices (hkind : kind = .int ∨ kind = .text) (hchoices : o.choices = some cs)
    (hne : cs ≠ []) (hcase : kind = .int ∨ o.letterCase = none)
    (h : kind.regex name o = .ok regex) : regex = choicesRegex cs := by
  rcases hkind with rfl | rfl
  · simp only [int] at h
    split at h
    · cases h
    · exact classRegex_of_choices hchoices hne h
  · have hother : Kind.text ≠ .int := fun heq => absurd (congrArg tag heq) (by decide)
    simp only [text, hcase.resolve_left hother] at h
    exact classRegex_of_choices hchoices hne h

end Kind

namespace Token

variable {name s : String} {o : TokenOptions} {t : Token} {kind : Kind} {cs : List Value} {c : Case}

/-- Text that is held to a case is matched by the case and the bounds. -/
theorem matches?_of_case (ht : ofOptions name .text o = .ok t) (hcase : o.letterCase = some c) :
    ∃ p, o.padding = .ok p ∧ ∀ s : String, t.matches? s = true ↔ c.admits s.toList = true ∧
      if c.isCamel then p.behindFirst.Allows (s.length - 1) else p.Allows s.length := by
  obtain ⟨hregex, -, -, hvalid, -⟩ := ofOptions_eq ht
  simp only [Kind.text, hcase] at hregex
  obtain ⟨p, hp, htext⟩ := toList_caseRegex hregex
  obtain ⟨hordered, hmatches⟩ := matches?_of_shape hvalid htext
  refine ⟨p, hp, fun s => ?_⟩
  rw [hmatches, Case.mem_language_shape hordered, String.length_toList]

/-- **Choices that hold.** A token of integers or of text that is built with choices matches the
texts of these and no others, unless it is one of text that is held to a case. Then the choices do
not count: it matches the texts of the case that are as wide as the bounds allow. -/
theorem matches?_iff_choice (hkind : kind = .int ∨ kind = .text)
    (ht : ofOptions name kind o = .ok t) (hchoices : o.choices = some cs) (hne : cs ≠ []) :
    (kind = .int ∨ o.letterCase = none → ∀ s, t.matches? s = true ↔ ∃ c ∈ cs, c.display = s) ∧
      (kind = .text → ∀ c, o.letterCase = some c → ∃ p, o.padding = .ok p ∧
        ∀ s : String, t.matches? s = true ↔ c.admits s.toList = true ∧
          if c.isCamel then p.behindFirst.Allows (s.length - 1) else p.Allows s.length) := by
  obtain ⟨hregex, -, -, hvalid, -⟩ := ofOptions_eq ht
  constructor
  · intro hcase
    have htext := Kind.regex_of_choices hkind hchoices hne hcase hregex
    exact matches?_of_choices hvalid (Kind.choices?_eq_some hchoices hne) htext
  · rintro rfl c hcase
    exact matches?_of_case ht hcase

/-- One of two variants of a file, the second with a dot in its name. -/
def variant : Token where
  name := "variant"
  kind := .text
  regex := "(?:main|alt\\.v2)"
  anchored :=
    ⟨.concat [.check .textStart, .alt (.concat [.char 'm', .char 'a', .char 'i', .char 'n'])
      (.concat [.char 'a', .char 'l', .char 't', .char '.', .char 'v', .char '2']),
        .check .textEnd], []⟩
  rule := { spec := "X>5s", fill := some 'X', align := some .right, width := 5, type := some .text }
  description := "Must be one of: [\"main\", \"alt.v2\"]"
  default := none

theorem matches?_iff_choice_variant :
    let o := { TokenOptions.ofKind "str" with
      choices := some [.text "main", .text "alt.v2"], padmin := some 5, padstrict := some false }
    (Kind.text = .int ∨ Kind.text = .text) ∧ ofOptions "variant" .text o = .ok variant ∧
      o.choices = some [.text "main", .text "alt.v2"] ∧ [Value.text "main", .text "alt.v2"] ≠ [] ∧
      o.letterCase = none ∧ variant.matches? "alt.v2" = true ∧ variant.matches? "altxv2" = false ∧
      variant.matches? "Xmain" = false := by
  intro o
  have hregex : Kind.text.regex "variant" o = .ok variant.regex := by decide +kernel
  have hdescription : Kind.text.description o = variant.description := by decide +kernel
  have hrule : Kind.text.renderRule o = .ok variant.rule := by decide +kernel
  have ht : ofOptions "variant" .text o = .ok variant := by
    simp only [ofOptions, hregex, hrule, hdescription]
    rfl
  have hmatches := (matches?_iff_choice (.inr rfl) ht rfl (List.cons_ne_nil _ _)).1 (.inr rfl)
  refine ⟨.inr rfl, ht, rfl, List.cons_ne_nil _ _, rfl, (hmatches "alt.v2").2 (by decide), ?_, ?_⟩
  · rw [Bool.eq_false_iff, ne_eq, hmatches]
    decide
  · rw [Bool.eq_false_iff, ne_eq, hmatches]
    decide

/-- A word in small letters that is to be one of one choice. -/
def lowerChoice : Token where
  name := "w"
  kind := .text
  regex := "[a-z]+"
  anchored := ⟨.concat [.check .textStart, .repeated (.one (.range 'a' 'z')) 1 none true,
    .check .textEnd], []⟩
  rule := .typed (some .text)
  description := "Must be one of: [\"abc\"]"
  default := none

/-- Choices besides a case: a text that is none of them is matched and read, though the description
asks for one. -/
theorem matches?_lowerChoice :
    let o := { TokenOptions.ofKind "str" with
      choices := some [.text "abc"], letterCase := some .lower }
    ofOptions "w" .text o = .ok lowerChoice ∧
      lowerChoice.description = "Must be one of: [\"abc\"]" ∧
      (¬ ∃ c ∈ [Value.text "abc"], c.display = "x") ∧ lowerChoice.matches? "x" = true ∧
      lowerChoice.parse "x" = .ok (.text "x") := by
  intro o
  have hregex : Kind.text.regex "w" o = .ok lowerChoice.regex := by decide +kernel
  have hdescription : Kind.text.description o = lowerChoice.description := by decide +kernel
  have hrule : Kind.text.renderRule o = .ok lowerChoice.rule := by decide +kernel
  have ht : ofOptions "w" .text o = .ok lowerChoice := by
    simp only [ofOptions, hregex, hrule, hdescription]
    rfl
  obtain ⟨p, hp, hmatches⟩ := matches?_of_case ht (c := .lower) rfl
  obtain rfl : ⟨none, none⟩ = p := Except.ok.inj hp
  have hx : lowerChoice.matches? "x" = true :=
    (hmatches "x").2 ⟨by decide, Padding.allows_none.2 (by decide)⟩
  exact ⟨ht, rfl, by decide, hx, (parse_text rfl).2 ⟨hx, rfl⟩⟩

end Token

end Stencil
