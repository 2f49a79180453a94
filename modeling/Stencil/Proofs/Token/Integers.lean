import Stencil.Proofs.Token.Reformatting

/-!
# Tokens of integers

What a token of integers reads and writes if no option but the bounds of its width is given
(`Token.int_exact`). It reads the numerals within the bounds (`TokenOptions.IsNumeral`), and refuses
those whose number is beyond the integers of 64 bits. It writes an integer that is not negative by
its digits, with zeros in front of them up to the least width (`Kind.numeral_of_default`), unless
these are too many for the greatest one (`TokenOptions.writes_leftpad_iff`).
-/

namespace Stencil

namespace TokenOptions

variable {o : TokenOptions} {p : Padding} {n : Nat}

/-- A text of digits that is as wide as the bounds allow. -/
structure IsNumeral (o : TokenOptions) (s : String) : Prop where
  ne_empty : s ≠ ""
  digits : ∀ c ∈ s.toList, c.isDigit = true
  width : o.AllowsWidth s.length

theorem writes_iff {s : String} :
    o.Writes s.toList n ↔ o.IsNumeral s ∧ Decimal.value s.toList = n := by
  constructor
  · rintro ⟨hdigits, hne, hwidth, hvalue⟩
    exact ⟨⟨by rintro rfl; exact hne rfl, hdigits, by rwa [← String.length_toList]⟩, hvalue⟩
  · rintro ⟨⟨hne, hdigits, hwidth⟩, hvalue⟩
    exact ⟨hdigits, by rwa [ne_eq, String.toList_eq_nil_iff], by rwa [String.length_toList], hvalue⟩

/-- Filled up to the least width, the digits of a number write it if they alone are not too many. -/
theorem writes_leftpad_iff (hp : o.padding = .ok p) :
    o.Writes ((Decimal.digits n).leftpad (p.min.getD 0) '0') n ↔ ∀ hi ∈ o.padmax,
      ((Decimal.digits n).length : Int) ≤ hi.toInt := by
  obtain ⟨-, hmax, hle⟩ := Padding.ofBounds_eq_ok hp
  have hlength := List.length_leftpad (n := p.min.getD 0) (a := '0') (l := Decimal.digits n)
  constructor
  · intro h hi hhi
    have := h.width.2 hi hhi
    omega
  · intro h
    have hupper :=
      (Padding.forall_of_isGiven hmax (P := (((Decimal.digits n).length : Int) ≤ ·))).1 h
    refine writes_zeros ((Padding.allowsWidth_iff hp).2 ⟨fun lo hlo => ?_, fun hi hhi => ?_⟩)
    · rw [hlo, Option.getD_some]
      omega
    · have hdigits := hupper hi hhi
      cases hmin : p.min with
      | none =>
        rw [Option.getD_none]
        omega
      | some lo =>
        have := hle lo hi hmin hhi
        rw [Option.getD_some]
        omega

end TokenOptions

/-- Padding of integers that is left to the kind fills up by zeros in front of the digits. -/
theorem Kind.numeral_of_default {o : TokenOptions} {rule : RenderRule} {p : Padding}
    (h : paddedRule o '0' '=' false .int = .ok rule) (hp : o.padding = .ok p)
    (hspec : o.formatSpec = none) (hchar : o.padchar.getD '0' = '0')
    (halign : o.padalign.getD '=' = '=') (hstrict : o.padstrict ≠ some true) (n : Nat) :
    rule.numeral n = (Decimal.digits n).leftpad (p.min.getD 0) '0' := by
  have hloose : o.padstrict.getD false = false := by
    rw [Option.getD_eq_iff]
    rcases hgiven : o.padstrict with _ | _ | _ <;> simp_all
  obtain ⟨p', hp', ⟨rfl, hnone⟩ | ⟨lo, hlo, -, hparse⟩⟩ := paddedRule_cases hspec h
  · obtain rfl : p = p' := Except.ok.inj (hp.symm.trans hp')
    have hmin : p.min = none := by simpa [hloose] using hnone
    rw [RenderRule.numeral_of_le (Nat.zero_le _), hmin]
    simp [List.leftpad]
  · obtain rfl : p = p' := Except.ok.inj (hp.symm.trans hp')
    rw [hchar, halign] at hparse
    obtain ⟨hfill, hsign, hwidth⟩ := RenderRule.parse_paddedSpec_aligned rfl hparse
    have hfront : rule.PadsInFront := by simp [RenderRule.PadsInFront, hsign]
    rw [RenderRule.numeral_of_padsInFront hfront, hfill, hwidth, hlo]
    rfl

namespace Token

variable {name s : String} {o : TokenOptions} {t : Token} {n : Int64}

/-- A token of integers refuses a text that it matches if it stands for no integer of 64 bits. -/
theorem parse_int_invalid (hkind : t.kind = .int) (hmatches : t.matches? s = true)
    (hread : Decimal.readInt64? s.toList = none) :
    t.parse s = .error (.invalidInteger t.name s) := by
  rw [parse, if_pos hmatches, readValue, hkind]
  simp only [Kind.int, Kind.readInt, hread]

section

variable (ht : ofOptions name .int o = .ok t) (hregex : o.regex = none)
  (hchoices : Kind.choices? o = none)

include ht hregex hchoices

/-- Numerals are read as their numbers. -/
theorem parse_int_iff :
    t.parse s = .ok (.int n) ↔ o.IsNumeral s ∧ (Decimal.value s.toList : Int) = n.toInt := by
  obtain ⟨-, -, hparse⟩ := parse_int_of_padding ht hregex hchoices
  rw [← s.ofList_toList, hparse, s.ofList_toList]
  constructor
  · rintro ⟨m, k, hk, hn, hwrites⟩
    obtain ⟨hnumeral, rfl⟩ := TokenOptions.writes_iff.1 hwrites
    cases hn
    exact ⟨hnumeral, hk⟩
  · rintro ⟨hnumeral, hn⟩
    exact ⟨_, n, hn, rfl, TokenOptions.writes_iff.2 ⟨hnumeral, rfl⟩⟩

/-- Numerals of numbers beyond 64 bits are matched, and stand for no integer. -/
theorem parse_int_of_large (hs : o.IsNumeral s)
    (hlarge : Int64.maxValue.toInt < Decimal.value s.toList) :
    t.parse s = .error (.invalidInteger name s) := by
  obtain ⟨-, -, -, -, rfl, hkind⟩ := ofOptions_eq ht
  obtain ⟨p, hp, hmatches⟩ := matches?_int_of_padding ht hregex hchoices
  have hne : s.toList ≠ [] := by
    rw [ne_eq, String.toList_eq_nil_iff]
    exact hs.ne_empty
  have hwidth : o.AllowsWidth s.toList.length := by
    rw [String.length_toList]
    exact hs.width
  have hallows := (Padding.allows_iff_of_pos hp (List.length_pos_iff.2 hne)).2 hwidth
  refine parse_int_invalid hkind ((hmatches s).2 ⟨hs.digits, hallows⟩) ?_
  rw [Option.eq_none_iff_forall_ne_some]
  intro k hk
  obtain ⟨-, hvalue⟩ := (Decimal.readInt64?_eq_some_iff hs.digits).1 hk
  have := Int64.toInt_le k
  omega

/-- Integers that are not negative are written by their digits and zeros in front of them. -/
theorem format_int_iff (hspec : o.formatSpec = none) (hchar : o.padchar.getD '0' = '0')
    (halign : o.padalign.getD '=' = '=') (hstrict : o.padstrict ≠ some true) :
    t.format (.int n) = .ok s ↔ 0 ≤ n.toInt ∧
      (∀ hi ∈ o.padmax, ((Decimal.digits n.toInt.toNat).length : Int) ≤ hi.toInt) ∧
      s = .ofList ((Decimal.digits n.toInt.toNat).leftpad (o.padmin.getD 0).toInt.toNat '0') := by
  obtain ⟨-, hrule, -⟩ := ofOptions_eq ht
  obtain ⟨p, hp, hparse⟩ := parse_int_of_padding ht hregex hchoices
  have hmin : (o.padmin.getD 0).toInt.toNat = p.min.getD 0 := by
    rw [Padding.getD_of_isGiven (Padding.ofBounds_eq_ok hp).1, Int.toNat_natCast]
  have htype := (Kind.paddedRule_eq_ok hspec hrule).1
  rw [hmin, ← TokenOptions.writes_leftpad_iff hp, format_eq_ok_iff,
    ← Kind.numeral_of_default hrule hp hspec hchar halign hstrict]
  constructor
  · rintro ⟨hrender, hback⟩
    -- What is read is not negative, whatever the rule makes of a negative integer.
    obtain ⟨-, hvalue⟩ := (parse_int_iff ht hregex hchoices).1 hback
    have hnat : ((n.toInt.toNat : Nat) : Int) = n.toInt := by omega
    rw [RenderRule.render_int htype hnat] at hrender
    cases hrender
    obtain ⟨m, k, hk, hn, hwrites⟩ := (hparse _ _).1 hback
    cases hn
    obtain rfl : m = n.toInt.toNat := by omega
    exact ⟨by omega, hwrites, rfl⟩
  · rintro ⟨hpos, hwrites, rfl⟩
    have hnat : ((n.toInt.toNat : Nat) : Int) = n.toInt := Int.toNat_of_nonneg hpos
    exact ⟨RenderRule.render_int htype hnat, (hparse _ _).2 ⟨_, n, hnat, rfl, hwrites⟩⟩

end

/-- **Integers at both ends.** A token of integers with nothing but bounds for its width reads the
numerals within the bounds as their numbers, and no other text. A numeral of a number beyond 64 bits
is refused. It writes the integers that are not negative and have no more digits than the greatest
width, and no others, by their digits with zeros in front of them up to the least width. What it
writes it reads as the same integer. -/
theorem int_exact (ht : ofOptions name .int o = .ok t) (hregex : o.regex = none)
    (hchoices : Kind.choices? o = none) (hspec : o.formatSpec = none)
    (hchar : o.padchar.getD '0' = '0') (halign : o.padalign.getD '=' = '=')
    (hstrict : o.padstrict ≠ some true) :
    (∀ s n, t.parse s = .ok (.int n) ↔ o.IsNumeral s ∧ (Decimal.value s.toList : Int) = n.toInt) ∧
      (∀ s, o.IsNumeral s → Int64.maxValue.toInt < Decimal.value s.toList →
        t.parse s = .error (.invalidInteger name s)) ∧
      ∀ n s, (t.format (.int n) = .ok s ↔ 0 ≤ n.toInt ∧
          (∀ hi ∈ o.padmax, ((Decimal.digits n.toInt.toNat).length : Int) ≤ hi.toInt) ∧
          s = .ofList ((Decimal.digits n.toInt.toNat).leftpad (o.padmin.getD 0).toInt.toNat '0')) ∧
        (t.format (.int n) = .ok s → t.parse s = .ok (.int n)) := by
  refine ⟨fun s n => parse_int_iff ht hregex hchoices,
    fun s => parse_int_of_large ht hregex hchoices, fun n s => ?_⟩
  exact ⟨format_int_iff ht hregex hchoices hspec hchar halign hstrict,
    fun h => (format_eq_ok_iff.1 h).2⟩

/-- An integer of three digits or more. -/
def frameNumber : Token where
  name := "n"
  kind := .int
  regex := "[0-9]\x7b3,\x7d"
  anchored := ⟨.concat [.check .textStart, .repeated (.one (.range '0' '9')) 3 none true,
    .check .textEnd], []⟩
  rule :=
    { spec := "0=3d", fill := some '0', align := some .afterSign, width := 3, type := some .int }
  description := "Must be a minimum 3-digit integer"
  default := none

theorem int_exact_frameNumber :
    let o := { TokenOptions.ofKind "int" with padmin := some 3, padstrict := some false }
    (ofOptions "n" .int o = .ok frameNumber ∧ o.regex = none ∧ Kind.choices? o = none ∧
      o.formatSpec = none ∧
        o.padchar.getD '0' = '0' ∧ o.padalign.getD '=' = '=' ∧ o.padstrict ≠ some true) ∧
      frameNumber.parse "0042" = .ok (.int 42) ∧
      frameNumber.parse "9223372036854775808" = .error (.invalidInteger "n" "9223372036854775808") ∧
      frameNumber.format (.int 7) = .ok "007" ∧ frameNumber.parse "007" = .ok (.int 7) := by
  intro o
  have hregex : Kind.int.regex "n" o = .ok frameNumber.regex := by decide +kernel
  have hdescription : Kind.int.description o = frameNumber.description := by decide +kernel
  have hrule : Kind.int.renderRule o = .ok frameNumber.rule := by decide +kernel
  have ht : ofOptions "n" .int o = .ok frameNumber := by
    simp only [ofOptions, hregex, hrule, hdescription]
    rfl
  have hnumeral : ∀ s : String, s ≠ "" → s.toList.all Char.isDigit = true → (3 : Int) ≤ s.length →
      o.IsNumeral s := by
    intro s hne hdigits hlength
    have hwidth : o.AllowsWidth s.length :=
      ⟨fun lo hlo => by cases hlo; exact hlength, by simp [o, TokenOptions.ofKind]⟩
    exact ⟨hne, List.all_eq_true.1 hdigits, hwidth⟩
  obtain ⟨hparse, hlarge, hformat⟩ := int_exact ht rfl rfl rfl rfl rfl (by decide)
  have hseven : frameNumber.format (.int 7) = .ok "007" :=
    (hformat 7 "007").1.2 ⟨by decide, by simp [o, TokenOptions.ofKind], by decide +kernel⟩
  refine ⟨⟨ht, rfl, rfl, rfl, rfl, rfl, by decide⟩, ?_, ?_, hseven, (hformat 7 "007").2 hseven⟩
  · exact (hparse "0042" 42).2 ⟨hnumeral "0042" (by decide) (by decide) (by decide), by decide⟩
  · exact hlarge _ (hnumeral _ (by decide) (by decide) (by decide)) (by decide)

end Token

end Stencil
