import Stencil.Proofs.Token.Rendering

/-!
# Zero padding of integers

A zero in front of a width asks for zeros between the sign and the digits, be it the zero flag or a
fill character in front of `=`. Either way the rule fills up by zeros (`RenderRule.FillsByZeros`),
and an integer is read back from what such a rule makes of it (`zeroPadding_exact`).
-/

namespace Stencil

namespace RenderRule

variable {rule : RenderRule} {type : Option RenderType} {w : Nat}

/-- A rule that fills integers up to a width by zeros behind the sign. -/
structure FillsByZeros (rule : RenderRule) (w : Nat) : Prop where
  fill : rule.fill = some '0'
  align : rule.align = some .afterSign
  width : rule.width = w
  type : rule.type ≠ some .text

/-- An integer in decimal with zeros behind the sign, up to a width. -/
def zeroPadded (w : Nat) (n : Int64) : List Char :=
  Decimal.sign n.toInt ++
    (List.replicate (w - (Decimal.ofInt64 n).length) '0' ++ Decimal.digits n.toInt.natAbs)

theorem length_ofInt64 (n : Int64) :
    (Decimal.ofInt64 n).length =
      (Decimal.sign n.toInt).length + (Decimal.digits n.toInt.natAbs).length := by
  rw [Decimal.ofInt64, Decimal.ofInt, String.length_ofList, List.length_append]

theorem length_zeroPadded (w : Nat) (n : Int64) :
    (zeroPadded w n).length = max w (Decimal.ofInt64 n).length := by
  have hlength := length_ofInt64 n
  rw [zeroPadded, List.length_append, List.length_append, List.length_replicate]
  omega

theorem FillsByZeros.render_int (h : rule.FillsByZeros w) (n : Int64) :
    rule.render (.int n) = .ok (.ofList (zeroPadded w n)) := by
  have hbody : rule.body (.int n) = .ok (Decimal.sign n.toInt, Decimal.digits n.toInt.natAbs) := by
    simp [body, h.type]
  rw [render, hbody]
  simp only [bind, Except.bind, pure, Except.pure, h.fill, h.align, h.width, Option.getD_some,
    fillUp, ← length_ofInt64, zeroPadded, List.append_assoc]

/-- The zero flag in front of a width. -/
theorem parse_zeroFlag (hw : w ≤ maxWidth) (htype : type ≠ some .text) :
    ∃ rule, parse (.ofList ('0' :: (Decimal.digits w ++ typeChars type))) = .ok rule ∧
      rule.FillsByZeros w := by
  let p : Parts := ⟨.bare, true, Decimal.digits w, type, Decimal.all_isDigit_digits w, fun _ => rfl⟩
  have hspec : p.spec = .ofList ('0' :: (Decimal.digits w ++ typeChars type)) := rfl
  have hwidth : p.width = w := Decimal.value_digits w
  have hallowed : p.Allowed := ⟨hwidth ▸ hw, fun h => htype h.1⟩
  rw [← hspec]
  exact ⟨p.rule, Parts.parse_spec_eq_ok_iff.2 ⟨hallowed, rfl⟩, ⟨rfl, rfl, hwidth, htype⟩⟩

/-- Zeros as the fill character in front of a width. -/
theorem parse_zeroFill (hw : w ≤ maxWidth) (htype : type ≠ some .text) :
    ∃ rule, parse (.ofList ('0' :: '=' :: (Decimal.digits w ++ typeChars type))) = .ok rule ∧
      rule.FillsByZeros w :=
  ⟨_, (parse_paddedSpec_align .afterSign).2 ⟨hw, fun h => htype h.1, rfl⟩, ⟨rfl, rfl, rfl, htype⟩⟩

/-- The four specs that pad integers by zeros. -/
theorem exists_parse_zeroSpec (hw : w ≤ maxWidth) :
    ∀ spec ∈ ["0" ++ Decimal.ofNat w, "0" ++ Decimal.ofNat w ++ "d", "0=" ++ Decimal.ofNat w,
        "0=" ++ Decimal.ofNat w ++ "d"],
      ∃ rule, parse spec = .ok rule ∧ rule.FillsByZeros w := by
  have hspell : ∀ (front : String) (type : Option RenderType),
      front ++ Decimal.ofNat w ++ .ofList (typeChars type) =
      .ofList (front.toList ++ (Decimal.digits w ++ typeChars type)) := by
    intro front type
    simp [← String.toList_inj, Decimal.ofNat]
  have huntyped : ∀ s : String, s = s ++ .ofList (typeChars none) := fun s =>
    (String.append_empty).symm
  have hint : "d" = .ofList (typeChars (some .int)) := rfl
  intro spec hspec
  simp only [List.mem_cons, List.not_mem_nil, or_false] at hspec
  rcases hspec with rfl | rfl | rfl | rfl
  · rw [huntyped (_ ++ _), hspell]
    exact parse_zeroFlag hw (by decide)
  · rw [hint, hspell]
    exact parse_zeroFlag hw (by decide)
  · rw [huntyped (_ ++ _), hspell]
    exact parse_zeroFill hw (by decide)
  · rw [hint, hspell]
    exact parse_zeroFill hw (by decide)

end RenderRule

/-- An integer is read back with zeros behind its sign. -/
theorem Kind.readInt_zeroPadded (w : Nat) (n : Int64) :
    readInt (.ofList (RenderRule.zeroPadded w n)) = .ok (.int n) := by
  rw [readInt, String.toList_ofList, RenderRule.zeroPadded, Decimal.readInt64?_zeros]

/-- **Zero padding never changes an integer.** The rules of the four ways to ask for zeros in front
of the digits render an integer to the same text. It is as wide as they ask for, or as the integer's
decimal if this is wider, and the integer is read back from it. -/
theorem zeroPadding_exact (n : Int64) {w : Nat} (hw : w ≤ RenderRule.maxWidth) :
    ∃ s, (∀ spec ∈ ["0" ++ Decimal.ofNat w, "0" ++ Decimal.ofNat w ++ "d", "0=" ++ Decimal.ofNat w,
          "0=" ++ Decimal.ofNat w ++ "d"],
        ∃ rule, RenderRule.parse spec = .ok rule ∧ rule.render (.int n) = .ok s) ∧
      s.length = max w (Decimal.ofInt64 n).length ∧ Kind.int.readValue s = .ok (.int n) := by
  refine ⟨.ofList (RenderRule.zeroPadded w n), fun spec hspec => ?_, ?_,
    Kind.readInt_zeroPadded w n⟩
  · obtain ⟨rule, hrule, hzeros⟩ := RenderRule.exists_parse_zeroSpec hw spec hspec
    exact ⟨rule, hrule, hzeros.render_int n⟩
  · rw [String.length_ofList, RenderRule.length_zeroPadded]

/-- The least integer, at a width beyond its decimal. -/
theorem zeroPadding_exact_minValue :
    24 ≤ RenderRule.maxWidth ∧
      (∃ rule, RenderRule.parse "024d" = .ok rule ∧
        rule.render (.int Int64.minValue) = .ok "-00009223372036854775808") ∧
      Kind.int.readValue "-00009223372036854775808" = .ok (.int Int64.minValue) := by
  obtain ⟨s, hspecs, -, hread⟩ :=
    zeroPadding_exact Int64.minValue (show 24 ≤ RenderRule.maxWidth by decide)
  obtain ⟨rule, hrule, hrender⟩ := hspecs "024d" (by decide +kernel)
  have hparse : RenderRule.parse "024d" = .ok ⟨"024d", some '0', some .afterSign, 24,
      some .int⟩ := by decide +kernel
  obtain rfl := Except.ok.inj (hparse.symm.trans hrule)
  have htext :
      (⟨"024d", some '0', some .afterSign, 24, some .int⟩ : RenderRule).render (.int Int64.minValue)
        = .ok "-00009223372036854775808" := by decide +kernel
  obtain rfl := Except.ok.inj (htext.symm.trans hrender)
  exact ⟨by decide, ⟨_, hrule, hrender⟩, hread⟩

end Stencil
