import Stencil.Proofs.Token.Classes
import Stencil.Proofs.Token.Specs

/-!
# Rules of padding options

The rule of a token without a spec of its own is read from the spec that its padding options make
up, or it does not pad (`Token.paddedRule_cases`). An alignment makes it the rule of these very
options (`RenderRule.parse_paddedSpec_aligned`). Any other character is read as part of the width,
so that the rule may ask for a greater one (`RenderRule.parse_paddedSpec`).

What a rule renders is as wide as it asks for, and it is the bare value where the value is that wide
(`RenderRule.render_text`, `RenderRule.render_int`).
-/

namespace Stencil

namespace RenderRule

variable {rule : RenderRule} {fill align : Char} {lo : Nat} {ty : RenderType}

/-! ## Reading -/

/-- The spec of padding options is read as a rule of their type that asks for their width, or for
ten and more where their alignment is none. -/
theorem parse_paddedSpec (h : parse (paddedSpec fill align lo (some ty)) = .ok rule) :
    rule.type = some ty ∧ (rule.width = lo ∨ 10 ≤ rule.width) ∧
    ¬ (ty = .text ∧ rule.align = some .afterSign) := by
  obtain ⟨p, hspec, hallowed, rfl⟩ := Parts.parse_eq_ok_iff.1 h
  obtain ⟨xs, -, -, hwidth, htype⟩ := Parts.exists_of_paddedSpec hspec
  refine ⟨htype, ?_, fun ⟨htext, halign⟩ => hallowed.type ⟨by rw [htype, htext], halign⟩⟩
  change p.width = lo ∨ 10 ≤ p.width
  rw [hwidth, Decimal.value_append, Decimal.value_digits]
  rcases Nat.eq_zero_or_pos (Decimal.value xs) with hzero | hpos
  · exact .inl (by rw [hzero, Nat.zero_mul, Nat.zero_add])
  · have hten : 10 ^ 1 ≤ 10 ^ (Decimal.digits lo).length :=
      Nat.pow_le_pow_right (by decide) (List.length_pos_iff.2 (Decimal.digits_ne_nil lo))
    have hmul := Nat.mul_le_mul hpos hten
    exact .inr (by omega)

/-- With an alignment, the rule is that of the padding options. -/
theorem parse_paddedSpec_aligned {a : Align} (ha : Align.ofChar? align = some a)
    (h : parse (paddedSpec fill align lo (some ty)) = .ok rule) :
    rule.fill = some fill ∧ rule.align = some a ∧ rule.width = lo := by
  obtain rfl := Align.ofChar?_eq_some_iff.1 ha
  obtain ⟨-, -, rfl⟩ := (parse_paddedSpec_align a).1 h
  exact ⟨rfl, rfl, rfl⟩

/-! ## Rendering -/

theorem length_fillUp (c : Char) (pad : Nat) (sign body : List Char) (a : Align) :
    (fillUp c pad sign body a).length = pad + sign.length + body.length := by
  cases a <;> simp [fillUp] <;> omega

theorem fillUp_zero (c : Char) (sign body : List Char) (a : Align) :
    fillUp c 0 sign body a = sign ++ body := by
  cases a <;> simp [fillUp]

/-- Text is rendered to the width of the rule, and as it is where it has that width. -/
theorem render_text (htype : rule.type = some .text) (halign : rule.align ≠ some .afterSign)
    (s : String) :
    ∃ u, rule.render (.text s) = .ok u ∧ u.length = max rule.width s.length ∧
      (rule.width ≤ s.length → u = s) := by
  have hbody : rule.body (.text s) = .ok ([], s.toList) := by simp [body, htype, halign]
  refine ⟨_, by rw [render, hbody]; rfl, ?_, fun hle => ?_⟩
  · rw [String.length_ofList, length_fillUp]
    simp only [List.length_nil, String.length_toList]
    omega
  · have hpad : rule.width - (([] : List Char).length + s.toList.length) = 0 := by
      rw [List.length_nil, String.length_toList]
      omega
    rw [hpad, fillUp_zero, List.nil_append, String.ofList_toList]

/-- A rule that does not pad renders an integer to its decimal. -/
theorem render_typed (k : Int64) :
    (typed (some .int)).render (.int k) = .ok (Decimal.ofInt64 k) := by
  have hbody : (typed (some .int)).body (.int k) =
      .ok (Decimal.sign k.toInt, Decimal.digits k.toInt.natAbs) := rfl
  have hpad : (typed (some .int)).width - ((Decimal.sign k.toInt).length +
      (Decimal.digits k.toInt.natAbs).length) = 0 :=
    Nat.zero_sub _
  rw [render, hbody]
  simp only [bind, Except.bind, pure, Except.pure, hpad, fillUp_zero]
  rfl

/-- The numeral that a rule renders a natural number to. -/
def numeral (rule : RenderRule) (n : Nat) : List Char :=
  fillUp (rule.fill.getD ' ') (rule.width - (Decimal.digits n).length) []
    (Decimal.digits n) (rule.align.getD .right)

/-- Integers that are not negative are rendered to numerals. -/
theorem render_int (htype : rule.type = some .int) {n : Nat} {k : Int64}
    (hk : (n : Int) = k.toInt) : rule.render (.int k) = .ok (.ofList (rule.numeral n)) := by
  have hsign : Decimal.sign (n : Int) = [] := if_neg (by omega)
  have hbody : rule.body (.int k) = .ok ([], Decimal.digits n) := by simp [body, htype, hsign, ← hk]
  rw [render, hbody, numeral]
  simp [bind, Except.bind, pure, Except.pure, defaultAlign]

end RenderRule

namespace Kind

variable {o : TokenOptions} {padchar padalign : Char} {strict : Bool}
  {type : RenderType} {rule : RenderRule}

/-- Without a spec of its own, a token does not pad, or its rule is read from the spec of its
padding options. -/
theorem paddedRule_cases (hspec : o.formatSpec = none)
    (h : paddedRule o padchar padalign strict type = .ok rule) :
    ∃ p, o.padding = .ok p ∧
      (rule = .typed (some type) ∧ (p.min = none ∨ o.padstrict.getD strict = true) ∨ ∃ lo,
        p.min = some lo ∧ o.padstrict.getD strict = false ∧
        RenderRule.parse (RenderRule.paddedSpec (o.padchar.getD padchar) (o.padalign.getD padalign)
          lo (some type)) = .ok rule) := by
  rw [paddedRule, hspec] at h
  obtain ⟨p, hp, h⟩ := bind_eq_ok.1 h
  refine ⟨p, hp, ?_⟩
  split at h
  · next lo hlo =>
    split at h
    · next hstrict =>
      cases h
      exact .inl ⟨rfl, .inr hstrict⟩
    · next hstrict =>
      refine .inr ⟨lo, hlo, by simpa using hstrict, ?_⟩
      unfold RenderRule.explicit at h
      split at h
      · next hparse =>
        cases h
        exact hparse
      · cases h
  · next hnone =>
    cases h
    exact .inl ⟨rfl, .inl hnone⟩

/-- The rule accepts the values of its type, and asks for the least width, none at all, or one of
ten and more. -/
theorem paddedRule_eq_ok (hspec : o.formatSpec = none)
    (h : paddedRule o padchar padalign strict type = .ok rule) :
    rule.type = some type ∧ ¬ (type = .text ∧ rule.align = some .afterSign) ∧
      ∃ p, o.padding = .ok p ∧
        (rule.width = 0 ∨ ∃ lo, p.min = some lo ∧ (rule.width = lo ∨ 10 ≤ rule.width)) := by
  obtain ⟨p, hp, ⟨rfl, -⟩ | ⟨lo, hlo, -, hparse⟩⟩ := paddedRule_cases hspec h
  · exact ⟨rfl, by simp [RenderRule.typed], p, hp, .inl rfl⟩
  · obtain ⟨htype, hwidth, hsign⟩ := RenderRule.parse_paddedSpec hparse
    exact ⟨htype, hsign, p, hp, .inr ⟨lo, hlo, hwidth⟩⟩

end Kind

end Stencil
