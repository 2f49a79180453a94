import Stencil.Proofs.Token.Rendering
import Stencil.Proofs.Token.Widths

/-!
# Formatting what was read

A token may read a value that it cannot format: the text that its rule renders need not be one of
the texts that it matches. For tokens of integers and of text without an expression and a spec of
their own, `Token.reformats_iff` says exactly when every value that is read can be formatted, in
terms of the options and of the rule that is made from them.
-/

namespace Stencil

open Pattern

/-! ## Numerals -/

namespace RenderRule

variable {rule : RenderRule} {n : Nat}

/-- The rule fills up in front of a number and not behind it. -/
def PadsInFront (rule : RenderRule) : Prop := rule.align ≠ some .left ∧ rule.align ≠ some .center

instance : Decidable rule.PadsInFront := inferInstanceAs (Decidable (_ ∧ _))

theorem length_numeral : (rule.numeral n).length = max rule.width (Decimal.digits n).length := by
  rw [numeral, length_fillUp, List.length_nil]
  omega

theorem numeral_of_le (h : rule.width ≤ (Decimal.digits n).length) :
    rule.numeral n = Decimal.digits n := by
  rw [numeral, Nat.sub_eq_zero_of_le h, fillUp_zero, List.nil_append]

theorem numeral_of_padsInFront (h : rule.PadsInFront) : rule.numeral n =
    List.replicate (rule.width - (Decimal.digits n).length) (rule.fill.getD ' ') ++
      Decimal.digits n := by
  obtain ⟨hleft, hcenter⟩ := h
  rw [numeral]
  cases halign : rule.align with
  | none => simp [fillUp]
  | some a =>
    cases a with
    | left => exact absurd halign hleft
    | center => exact absurd halign hcenter
    | right | afterSign => simp [fillUp]

/-- Filled up behind it, a one does not stay a one. -/
theorem padsInFront_of_value (hwidth : 1 < rule.width) (h : Decimal.value (rule.numeral 1) = 1) :
    rule.PadsInFront := by
  have hdigits : Decimal.digits 1 = ['1'] := Decimal.digits_of_lt (by decide)
  have hpad : rule.width - 1 ≠ 0 ∧ rule.width - 1 - (rule.width - 1) / 2 ≠ 0 := by omega
  rw [numeral, hdigits] at h
  constructor
  · intro halign
    have hten := Decimal.ten_le_value [] (List.replicate (rule.width - 1) (rule.fill.getD ' '))
      (by simpa using hpad.1)
    simp only [halign, Option.getD_some, fillUp, List.nil_append, List.length_singleton,
      List.singleton_append] at h hten
    omega
  · intro halign
    have hten := Decimal.ten_le_value (List.replicate ((rule.width - 1) / 2) (rule.fill.getD ' '))
      (List.replicate (rule.width - 1 - (rule.width - 1) / 2) (rule.fill.getD ' '))
      (by simpa using hpad.2)
    simp only [halign, Option.getD_some, fillUp, List.append_nil, List.length_singleton,
      List.append_assoc, List.singleton_append] at h
    omega

/-- Filled up in front of it, a zero stays a zero by zeros alone. -/
theorem fill_of_value (hwidth : 1 < rule.width) (hfront : rule.PadsInFront)
    (hall : ∀ c ∈ rule.numeral 0, c.isDigit = true) (h : Decimal.value (rule.numeral 0) = 0) :
    rule.fill = some '0' := by
  have hdigits : Decimal.digits 0 = ['0'] := Decimal.digits_of_lt (by decide)
  obtain ⟨k, hk⟩ : ∃ k, rule.width - (Decimal.digits 0).length = k + 1 :=
    ⟨rule.width - 2, by simp [hdigits]; omega⟩
  rw [numeral_of_padsInFront hfront, hk, List.replicate_succ, List.cons_append] at hall h
  have hfill := Decimal.eq_zero_of_value (hall _ (List.mem_cons_self ..)) h
  cases hrule : rule.fill with
  | none => simp [hrule] at hfill
  | some c => simpa [hrule] using hfill

end RenderRule

/-! ## Integers within bounds -/

namespace TokenOptions

variable {o : TokenOptions} {p : Padding} {rule : RenderRule} {cs : List Char} {n : Nat}

/-- A numeral of a number that is as wide as the bounds allow. -/
structure Writes (o : TokenOptions) (cs : List Char) (n : Nat) : Prop where
  digits : ∀ c ∈ cs, c.isDigit = true
  ne_nil : cs ≠ []
  width : o.AllowsWidth cs.length
  value : Decimal.value cs = n

/-- The rule renders integers to numerals of the same integers within the bounds: those that are too
short for the least width are filled up, by zeros in front of them, and to no more than the greatest
width. -/
def KeepsIntegers (o : TokenOptions) (rule : RenderRule) : Prop :=
  o.padmax = some 0 ∨
    (∀ lo ∈ o.padmin, lo.toInt ≤ (max 1 rule.width : Nat)) ∧
      (1 < rule.width → rule.fill = some '0' ∧ rule.PadsInFront ∧ ∀ hi ∈ o.padmax,
        rule.width ≤ hi.toInt)

/-- The digits of a number and zeros in front of them write it, if the bounds allow as many. -/
theorem writes_zeros {k : Nat} (h : o.AllowsWidth (k + (Decimal.digits n).length)) :
    o.Writes (List.replicate k '0' ++ Decimal.digits n) n := by
  refine ⟨fun c hc => ?_, by simp [Decimal.digits_ne_nil n], by simpa using h, ?_⟩
  · rcases List.mem_append.1 hc with hc | hc
    · rw [List.eq_of_mem_replicate hc]
      rfl
    · exact Decimal.all_isDigit_digits n c hc
  · rw [Decimal.value_zeros, Decimal.value_digits]

/-- Unless no character is allowed, every digit can be written. -/
theorem exists_writes (hp : o.padding = .ok p) (hzero : o.padmax ≠ some 0) (hn : n < 10) :
    ∃ cs, o.Writes cs n := by
  have hdigits : (Decimal.digits n).length = 1 := by
    rw [Decimal.digits_of_lt hn, List.length_singleton]
  obtain ⟨-, hmax, hle⟩ := Padding.ofBounds_eq_ok hp
  refine ⟨_, writes_zeros (k := p.min.getD 0 - 1)
    ((Padding.allowsWidth_iff hp).2 ⟨fun lo hlo => ?_, fun hi hhi => ?_⟩)⟩
  · rw [hlo, Option.getD_some]
    omega
  · have hpos : hi ≠ 0 := by
      rintro rfl
      exact hzero (Padding.eq_some_zero_of_isGiven (hhi ▸ hmax))
    cases hmin : p.min with
    | none => simp [hdigits]; omega
    | some lo =>
      have := hle lo hi hmin hhi
      rw [Option.getD_some]
      omega

/-- What the rule makes of a number that can be written is a numeral of it within the bounds. -/
theorem KeepsIntegers.writes (hkeeps : o.KeepsIntegers rule) (h : o.Writes cs n) :
    o.Writes (rule.numeral n) n := by
  obtain ⟨hcs, hne, ⟨hmin, hmax⟩, hvalue⟩ := h
  have hpos := List.length_pos_iff.2 hne
  rcases hkeeps with hzero | ⟨hlo, hfill⟩
  · have := hmax 0 hzero
    rw [Int64.toInt_zero] at this
    omega
  have hlength : (Decimal.digits n).length ≤ cs.length :=
    hvalue ▸ Decimal.length_digits_value_le hne hcs
  have hdigits := List.length_pos_iff.2 (Decimal.digits_ne_nil n)
  rcases Nat.lt_or_ge (Decimal.digits n).length rule.width with hlt | hle
  · obtain ⟨hzero, hfront, hhi⟩ := hfill (by omega)
    rw [RenderRule.numeral_of_padsInFront hfront, hzero, Option.getD_some]
    refine writes_zeros ⟨fun lo h => ?_, fun hi h => ?_⟩
    · have := hlo lo h
      omega
    · have := hhi hi h
      omega
  · rw [RenderRule.numeral_of_le hle]
    refine writes_zeros (k := 0) ⟨fun lo h => ?_, fun hi h => ?_⟩
    · have := hlo lo h
      omega
    · have := hmax hi h
      omega

/-- It is enough that this is so of the numbers zero and one. -/
theorem keepsIntegers_of_writes (hp : o.padding = .ok p)
    (h : ∀ n cs, n < 2 → o.Writes cs n → o.Writes (rule.numeral n) n) : o.KeepsIntegers rule := by
  by_cases hzero : o.padmax = some 0
  · exact .inl hzero
  obtain ⟨cs, hcs⟩ := exists_writes hp hzero (show 0 < 10 by decide)
  obtain ⟨ds, hds⟩ := exists_writes hp hzero (show 1 < 10 by decide)
  have hwrites := h 0 cs (by decide) hcs
  have hone := h 1 ds (by decide) hds
  have hlength : (rule.numeral 0).length = max rule.width 1 := by
    rw [RenderRule.length_numeral, Decimal.digits_of_lt (by decide), List.length_singleton]
  obtain ⟨hmin, hmax⟩ := hwrites.width
  refine .inr ⟨fun lo hlo => ?_, fun hwidth => ?_⟩
  · have := hmin lo hlo
    omega
  · have hfront := RenderRule.padsInFront_of_value hwidth hone.value
    refine ⟨RenderRule.fill_of_value hwidth hfront hwrites.digits hwrites.value,
      hfront, fun hi hhi => ?_⟩
    have := hmax hi hhi
    omega

end TokenOptions

/-! ## Shortest texts -/

namespace Shape

variable {sh : Shape} {w : List Char}

/-- The length of the shortest words of a shape. -/
def least (sh : Shape) : Nat := sh.front.length + sh.padding.bounds.1

theorem least_le_length (h : w ∈ sh.pattern.language) : sh.least ≤ w.length := by
  obtain ⟨front, last, p⟩ := sh
  induction front generalizing w with
  | nil => simpa [least] using (mem_language_repeatedLast.1 h).1
  | cons a front ih =>
    obtain ⟨c, v, rfl, -, hv⟩ := mem_language_cons.1 h
    have := ih hv
    simp only [least, List.length_cons] at this ⊢
    omega

/-- If no class is empty, there is a word as short as that. -/
theorem exists_least (hp : Ordered sh.padding.bounds.1 sh.padding.bounds.2)
    (hclass : ∀ a ∈ sh.last :: sh.front, ∃ c, a.set.mem c = true) :
    ∃ w ∈ sh.pattern.language, w.length = sh.least := by
  obtain ⟨front, last, p⟩ := sh
  induction front with
  | nil =>
    obtain ⟨c, hc⟩ := hclass last (List.mem_cons_self ..)
    refine ⟨List.replicate p.bounds.1 c, (mem_language_nil hp).2 ⟨fun d hd => ?_, ?_⟩,
      by simp [least]⟩
    · rwa [List.eq_of_mem_replicate hd]
    · rw [List.length_replicate]
      exact ⟨Nat.le_refl _, fun m hm => (hp.2 m hm).2⟩
  | cons a front ih =>
    obtain ⟨c, hc⟩ := hclass a (by simp)
    obtain ⟨v, hv, hlength⟩ := ih hp fun b hb => hclass b (by simp at hb ⊢; tauto)
    refine ⟨c :: v, mem_language_cons.2 ⟨c, v, rfl, hc, hv⟩, ?_⟩
    simp only [least, List.length_cons] at hlength ⊢
    omega

end Shape

/-- The shortest text is as short as the least width allows, if that is two letters or more. -/
theorem TokenOptions.least_textShape (o : TokenOptions) (p : Padding) :
    p.min.getD 0 ≤ (o.textShape p).least ∧ (o.textShape p).least ≤ max (p.min.getD 0) 2 := by
  rw [textShape]
  cases o.letterCase with
  | none => obtain ⟨_ | lo, _ | hi⟩ := p <;> simp [Shape.least, Padding.bounds]
  | some c =>
    obtain ⟨_ | _ | lo, _ | _ | hi⟩ := p <;> cases c <;>
      simp [Case.shape, Shape.least, Padding.bounds, Padding.behindFirst, Padding.pred?] <;> omega

theorem TokenOptions.exists_mem_textShape (o : TokenOptions) (p : Padding) :
    ∀ a ∈ (o.textShape p).last :: (o.textShape p).front, ∃ c, a.set.mem c = true := by
  have hlower : ∃ c, CharClass.lower.set.mem c = true := ⟨'a', rfl⟩
  have hupper : ∃ c, CharClass.upper.set.mem c = true := ⟨'A', rfl⟩
  have hletters : ∃ c, CharClass.letters.set.mem c = true := ⟨'a', rfl⟩
  rw [textShape]
  cases o.letterCase with
  | none => simpa using hletters
  | some c => cases c <;> simp [Case.shape, hlower, hupper, hletters]

/-! ## Tokens -/

namespace Token

variable {name s u : String} {o : TokenOptions} {t : Token} {v : Value} {p : Padding}

/-- Every value that the token reads from a text can be formatted, and the text of it is read as the
same value. -/
def Reformats (t : Token) : Prop :=
  ∀ s v, t.parse s = .ok v → ∃ u, t.format v = .ok u ∧ t.parse u = .ok v

theorem reformats_iff_render :
    t.Reformats ↔ ∀ s v, t.parse s = .ok v → ∃ u, t.rule.render v = .ok u ∧ t.parse u = .ok v := by
  refine forall_congr' fun s => forall_congr' fun v => imp_congr_right fun _ =>
    exists_congr fun u => ?_
  rw [format_eq_ok_iff, and_assoc, and_self]

/-- An integer token reads a text that it matches as the integer that the text stands for. -/
theorem parse_int (hkind : t.kind = .int) :
    t.parse s = .ok v ↔ t.matches? s = true ∧ ∃ k, Decimal.readInt64? s.toList = some k ∧
    v = .int k := by
  rw [parse_eq_ok_iff, readValue, hkind]
  refine and_congr_right fun _ => ?_
  simp only [Kind.int, Kind.readInt]
  cases Decimal.readInt64? s.toList with
  | none => simp
  | some k =>
    simp only [Except.ok.injEq, Option.some.injEq, exists_eq_left']
    exact eq_comm

/-- A token of text reformats what it reads if nothing that it matches is filled up. -/
theorem reformats_iff_of_text (hkind : t.kind = .text) (htype : t.rule.type = some .text)
    (halign : t.rule.align ≠ some .afterSign) :
    t.Reformats ↔ ∀ s, t.matches? s = true → t.rule.width ≤ s.length := by
  simp only [reformats_iff_render, parse_text hkind]
  constructor
  · intro h s hs
    obtain ⟨u, hu, -, heq⟩ := h s _ ⟨hs, rfl⟩
    obtain ⟨w, hw, hlength, -⟩ := RenderRule.render_text htype halign s
    obtain rfl : w = u := Except.ok.inj (hw.symm.trans hu)
    obtain rfl : s = w := Value.text.inj heq
    omega
  · rintro h s _ ⟨hs, rfl⟩
    obtain ⟨w, hw, -, hsame⟩ := RenderRule.render_text htype halign s
    obtain rfl := hsame (h s hs)
    exact ⟨w, hw, hs, rfl⟩

/-! ### Integers -/

/-- A token of integers without choices matches as many digits as the bounds allow. -/
theorem matches?_int_of_padding (ht : ofOptions name .int o = .ok t) (hregex : o.regex = none)
    (hchoices : Kind.choices? o = none) : ∃ p, o.padding = .ok p ∧
      ∀ s : String, t.matches? s = true ↔
        (∀ c ∈ s.toList, c.isDigit = true) ∧ p.Allows s.toList.length := by
  obtain ⟨hkindregex, -, -, hvalid, -⟩ := ofOptions_eq ht
  obtain ⟨p, hp, -, htext⟩ | ⟨cs, hcs, -⟩ := int_regex_cases hregex hkindregex
  · obtain ⟨hordered, hmatches⟩ := matches?_of_shape hvalid htext
    exact ⟨p, hp, fun s => (hmatches s).trans (Shape.mem_language_nil hordered)⟩
  · rw [hchoices] at hcs
    cases hcs

/-- It reads the numerals within the bounds. -/
theorem parse_int_of_padding (ht : ofOptions name .int o = .ok t) (hregex : o.regex = none)
    (hchoices : Kind.choices? o = none) : ∃ p, o.padding = .ok p ∧
      ∀ cs v, t.parse (.ofList cs) = .ok v ↔
        ∃ (n : Nat) (k : Int64), (n : Int) = k.toInt ∧ v = .int k ∧ o.Writes cs n := by
  obtain ⟨p, hp, hmatches⟩ := matches?_int_of_padding ht hregex hchoices
  refine ⟨p, hp, fun cs v => ?_⟩
  rw [parse_int (ofOptions_eq ht).2.2.2.2.2, hmatches, String.toList_ofList]
  constructor
  · rintro ⟨⟨hall, hallows⟩, k, hk, rfl⟩
    obtain ⟨hne, hvalue⟩ := (Decimal.readInt64?_eq_some_iff hall).1 hk
    exact ⟨_, k, hvalue, rfl, hall, hne,
      (Padding.allows_iff_of_pos hp (List.length_pos_iff.2 hne)).1 hallows, rfl⟩
  · rintro ⟨n, k, hk, rfl, hall, hne, hwidth, rfl⟩
    exact ⟨⟨hall, (Padding.allows_iff_of_pos hp (List.length_pos_iff.2 hne)).2 hwidth⟩, k,
      (Decimal.readInt64?_eq_some_iff hall).2 ⟨hne, hk⟩, rfl⟩

theorem reformats_int_of_padding (ht : ofOptions name .int o = .ok t) (hregex : o.regex = none)
    (hspec : o.formatSpec = none) (hchoices : Kind.choices? o = none) :
    t.Reformats ↔ o.KeepsIntegers t.rule := by
  obtain ⟨p, hp, hread⟩ := parse_int_of_padding ht hregex hchoices
  obtain ⟨htype, -⟩ := Kind.paddedRule_eq_ok hspec (ofOptions_eq ht).2.1
  rw [reformats_iff_render]
  constructor
  · intro h
    refine TokenOptions.keepsIntegers_of_writes hp fun n cs hn hcs => ?_
    obtain ⟨k, hk⟩ : ∃ k : Int64, (n : Int) = k.toInt := by
      obtain rfl | rfl : n = 0 ∨ n = 1 := by omega
      · exact ⟨0, rfl⟩
      · exact ⟨1, rfl⟩
    obtain ⟨u, hu, hparse⟩ := h _ _ ((hread cs _).2 ⟨n, k, hk, rfl, hcs⟩)
    rw [RenderRule.render_int htype hk] at hu
    cases hu
    obtain ⟨m, l, hm, hl, hwrites⟩ := (hread _ _).1 hparse
    cases hl
    obtain rfl : m = n := by omega
    exact hwrites
  · intro hkeeps s v hs
    rw [← s.ofList_toList] at hs
    obtain ⟨n, k, hk, rfl, hwrites⟩ := (hread _ _).1 hs
    exact ⟨_, RenderRule.render_int htype hk, (hread _ _).2 ⟨n, k, hk, rfl, hkeeps.writes hwrites⟩⟩

theorem reformats_int_of_choices (ht : ofOptions name .int o = .ok t) (hregex : o.regex = none)
    {cs : List Value} (hchoices : Kind.choices? o = some cs) : t.Reformats ↔
      ∀ c ∈ cs, ∀ k, Decimal.readInt64? c.display.toList = some k →
        ∃ d ∈ cs, t.rule.render (.int k) = .ok d.display ∧
          Decimal.readInt64? d.display.toList = some k := by
  obtain ⟨hkindregex, -, -, hvalid, -, hkind⟩ := ofOptions_eq ht
  obtain ⟨p, -, hnone, -⟩ | ⟨cs', hcs, htext⟩ := int_regex_cases hregex hkindregex
  · rw [hchoices] at hnone
    cases hnone
  obtain rfl : cs = cs' := Option.some.inj (hchoices.symm.trans hcs)
  simp only [reformats_iff_render, parse_int hkind, matches?_of_choices hvalid hcs htext]
  constructor
  · intro h c hc k hk
    obtain ⟨_, hu, ⟨d, hd, rfl⟩, l, hl, heq⟩ := h c.display (.int k) ⟨⟨c, hc, rfl⟩, k, hk, rfl⟩
    cases heq
    exact ⟨d, hd, hu, hl⟩
  · rintro h _ _ ⟨⟨c, hc, rfl⟩, k, hk, rfl⟩
    obtain ⟨d, hd, hrender, hl⟩ := h c hc k hk
    exact ⟨_, hrender, ⟨d, hd, rfl⟩, k, hl, rfl⟩

/-! ### Text -/

theorem reformats_text_of_padding (ht : ofOptions name .text o = .ok t) (hregex : o.regex = none)
    (hspec : o.formatSpec = none) (hchoices : Kind.choices? o = none ∨ o.letterCase ≠ none) :
    t.Reformats ↔ t.rule.width ≤ (o.padmin.getD 0).toInt := by
  obtain ⟨hkindregex, hrule, -, hvalid, -, hkind⟩ := ofOptions_eq ht
  obtain ⟨p, hp, -, htext⟩ | ⟨cs, hcs, hcase, -⟩ := text_regex_cases hregex hkindregex
  swap
  · simp [hcs, hcase] at hchoices
  obtain ⟨hordered, hmatches⟩ := matches?_of_shape hvalid htext
  obtain ⟨htype, halign, p', hp', hwidth⟩ := Kind.paddedRule_eq_ok hspec hrule
  obtain rfl : p = p' := Except.ok.inj (hp.symm.trans hp')
  obtain ⟨hlow, hhigh⟩ := o.least_textShape p
  rw [reformats_iff_of_text hkind htype fun h => halign ⟨rfl, h⟩,
    Padding.getD_of_isGiven (Padding.ofBounds_eq_ok hp).1]
  constructor
  · intro h
    obtain ⟨w, hw, hlength⟩ := Shape.exists_least hordered (o.exists_mem_textShape p)
    have hle := h (.ofList w) ((hmatches _).2 (by rwa [String.toList_ofList]))
    rw [String.length_ofList, hlength] at hle
    rcases hwidth with hzero | ⟨lo, hlo, hwidth⟩
    · omega
    · rw [hlo, Option.getD_some] at hhigh ⊢
      omega
  · intro hle s hs
    have hleast := Shape.least_le_length ((hmatches s).1 hs)
    rw [String.length_toList] at hleast
    omega

theorem reformats_text_of_choices (ht : ofOptions name .text o = .ok t) (hregex : o.regex = none)
    (hspec : o.formatSpec = none) {cs : List Value} (hchoices : Kind.choices? o = some cs)
    (hcase : o.letterCase = none) : t.Reformats ↔ ∀ c ∈ cs, t.rule.width ≤ c.display.length := by
  obtain ⟨hkindregex, hrule, -, hvalid, -, hkind⟩ := ofOptions_eq ht
  obtain ⟨p, -, hnot, -⟩ | ⟨cs', hcs, -, htext⟩ := text_regex_cases hregex hkindregex
  · simp [hchoices, hcase] at hnot
  obtain rfl : cs = cs' := Option.some.inj (hchoices.symm.trans hcs)
  obtain ⟨htype, halign, -⟩ := Kind.paddedRule_eq_ok hspec hrule
  rw [reformats_iff_of_text hkind htype fun h => halign ⟨rfl, h⟩]
  simp [matches?_of_choices hvalid hcs htext]

end Token

/-! ## Both kinds -/

namespace TokenOptions

variable (o : TokenOptions) (rule : RenderRule)

/-- What the rule makes of the integers that are read is read as the same integers. Of choices,
there is one to each that stands for an integer, it or another one, that the rule renders the
integer to and that stands for it. -/
def RestoresIntegers : Prop :=
  match Kind.choices? o with
  | none => o.KeepsIntegers rule
  | some cs => ∀ c ∈ cs, ∀ k, Decimal.readInt64? c.display.toList = some k →
      ∃ d ∈ cs, rule.render (.int k) = .ok d.display ∧ Decimal.readInt64? d.display.toList = some k

/-- The rule fills up no text that is read: it asks for no more than the least width, or than the
shortest choice. -/
def RestoresTexts : Prop :=
  match Kind.choices? o, o.letterCase with
  | some cs, none => ∀ c ∈ cs, rule.width ≤ c.display.length
  | _, _ => rule.width ≤ (o.padmin.getD 0).toInt

end TokenOptions

namespace Token

variable {name : String} {o : TokenOptions} {t : Token}

theorem reformats_int (ht : ofOptions name .int o = .ok t) (hregex : o.regex = none)
    (hspec : o.formatSpec = none) : t.Reformats ↔ o.RestoresIntegers t.rule := by
  unfold TokenOptions.RestoresIntegers
  split
  · next hchoices => exact reformats_int_of_padding ht hregex hspec hchoices
  · next cs hchoices => exact reformats_int_of_choices ht hregex hchoices

theorem reformats_text (ht : ofOptions name .text o = .ok t) (hregex : o.regex = none)
    (hspec : o.formatSpec = none) : t.Reformats ↔ o.RestoresTexts t.rule := by
  unfold TokenOptions.RestoresTexts
  split
  · next cs hchoices hcase => exact reformats_text_of_choices ht hregex hspec hchoices hcase
  · next hnot =>
    refine reformats_text_of_padding ht hregex hspec ?_
    cases hchoices : Kind.choices? o with
    | none => exact .inl rfl
    | some cs => exact .inr fun hcase => hnot cs hchoices hcase

/-- Padding of integers that is left to the kind fills up by zeros in front of them. Of choices that
are integers nothing is to be filled up. -/
theorem reformats_int_of_default (ht : ofOptions name .int o = .ok t) (hregex : o.regex = none)
    (hspec : o.formatSpec = none) (hchar : o.padchar = none) (halign : o.padalign = none)
    (hstrict : o.padstrict = none)
    (hchoices : ∀ cs, Kind.choices? o = some cs → o.padmin = none ∧ ∀ c ∈ cs, ∃ k, c = .int k) :
    t.Reformats := by
  rw [reformats_int ht hregex hspec, TokenOptions.RestoresIntegers]
  obtain ⟨p, hp, hrule⟩ := Kind.paddedRule_cases hspec (ofOptions_eq ht).2.1
  obtain ⟨hmin, hmax, hle⟩ := Padding.ofBounds_eq_ok hp
  have hpadmin : o.padmin = none ↔ p.min = none := by
    simpa using not_congr (Padding.isSome_iff_of_isGiven hmin)
  split
  · rcases hrule with ⟨hrule, hnone⟩ | ⟨lo, hlo, -, hparse⟩
    · have hnone := hpadmin.2 (by simpa [hstrict] using hnone)
      exact .inr ⟨by simp [hnone], by simp [hrule, RenderRule.typed]⟩
    · rw [hchar, halign] at hparse
      obtain ⟨hfill, halign, hwidth⟩ := RenderRule.parse_paddedSpec_aligned rfl hparse
      refine .inr
        ⟨(Padding.forall_of_isGiven hmin (P := (· ≤ ((max 1 t.rule.width : Nat) : Int)))).2
          fun n hn => ?_, fun _ => ⟨hfill, by simp [RenderRule.PadsInFront, halign],
            (Padding.forall_of_isGiven hmax (P := ((t.rule.width : Int) ≤ ·))).2 fun n hn => ?_⟩⟩
      · obtain rfl : lo = n := Option.some.inj (hlo.symm.trans hn)
        omega
      · have := hle lo n hlo hn
        omega
  · next cs hcs =>
    obtain ⟨hnone, hint⟩ := hchoices cs hcs
    rcases hrule with ⟨hrule, -⟩ | ⟨lo, hlo, -⟩
    · intro c hc k hk
      obtain ⟨l, rfl⟩ := hint c hc
      obtain rfl : l = k := Option.some.inj ((Decimal.readInt64?_ofInt64 l).symm.trans hk)
      exact ⟨_, hc, by rw [hrule, RenderRule.render_typed]; rfl, hk⟩
    · rw [hpadmin.1 hnone] at hlo
      cases hlo

/-- Padding of text that is strict, as it is unless the options say otherwise, fills nothing up.
Otherwise the alignment that is left to the kind makes it fill up no text within the bounds. -/
theorem reformats_text_of_default (ht : ofOptions name .text o = .ok t) (hregex : o.regex = none)
    (hspec : o.formatSpec = none)
    (h : o.padstrict ≠ some false ∨ o.padalign = none ∧ Kind.choices? o = none) : t.Reformats := by
  rw [reformats_text ht hregex hspec, TokenOptions.RestoresTexts]
  obtain ⟨p, hp, hrule⟩ := Kind.paddedRule_cases hspec (ofOptions_eq ht).2.1
  rw [Padding.getD_of_isGiven (Padding.ofBounds_eq_ok hp).1]
  rcases hrule with ⟨hrule, -⟩ | ⟨lo, hlo, hstrict, hparse⟩
  · have hwidth : t.rule.width = 0 := by rw [hrule, RenderRule.typed]
    rw [hwidth]
    split
    · exact fun c _ => Nat.zero_le _
    · exact Int.natCast_nonneg _
  · rcases h with hne | ⟨halign, hchoices⟩
    · have hfalse : o.padstrict = some false := by simpa [Option.getD_eq_iff] using hstrict
      exact absurd hfalse hne
    rw [halign] at hparse
    obtain ⟨-, -, hwidth⟩ := RenderRule.parse_paddedSpec_aligned rfl hparse
    rw [hchoices, hwidth, hlo]
    exact Int.le_refl _

/-- **Formatting what was read.** A token of integers or of text that is made of padding, case and
choices, without an expression and a spec of its own, formats every value that it reads, as a text
that it reads as this value, if and only if its rule restores them: integers are filled up only by
zeros in front of them, to a width within the bounds and no less than the least one, and no text is
filled up; of choices, each is rendered to one that stands for the same value. Padding of integers
that is left to the kind does so, and strict padding of text. -/
theorem reformats_iff (hregex : o.regex = none) (hspec : o.formatSpec = none) :
    (ofOptions name .int o = .ok t → (t.Reformats ↔ o.RestoresIntegers t.rule) ∧
        (o.padchar = none → o.padalign = none → o.padstrict = none →
          (∀ cs, Kind.choices? o = some cs → o.padmin = none ∧ ∀ c ∈ cs, ∃ k, c = .int k) →
            t.Reformats)) ∧
      (ofOptions name .text o = .ok t → (t.Reformats ↔ o.RestoresTexts t.rule) ∧
        (o.padstrict ≠ some false ∨ o.padalign = none ∧ Kind.choices? o = none → t.Reformats)) :=
  ⟨fun ht => ⟨reformats_int ht hregex hspec, reformats_int_of_default ht hregex hspec⟩,
    fun ht => ⟨reformats_text ht hregex hspec, reformats_text_of_default ht hregex hspec⟩⟩

/-- An integer of three or four digits. -/
def paddedNumber : Token where
  name := "n"
  kind := .int
  regex := "[0-9]\x7b3,4\x7d"
  anchored := ⟨.concat [.check .textStart, .repeated (.one (.range '0' '9')) 3 (some 4) true,
    .check .textEnd], []⟩
  rule :=
    { spec := "0=3d", fill := some '0', align := some .afterSign, width := 3, type := some .int }
  description := "Must be a minimum 3-digit integer"
  default := none

theorem reformats_iff_paddedNumber :
    let o := { TokenOptions.ofKind "int" with padmin := some 3, padmax := some 4 }
    ofOptions "n" .int o = .ok paddedNumber ∧ o.regex = none ∧ o.formatSpec = none ∧
      o.RestoresIntegers paddedNumber.rule ∧ paddedNumber.Reformats := by
  intro o
  have hregex : Kind.int.regex "n" o = .ok paddedNumber.regex := by decide +kernel
  have hdescription : Kind.int.description o = paddedNumber.description := by decide +kernel
  have hrule : Kind.int.renderRule o = .ok paddedNumber.rule := by decide +kernel
  have ht : ofOptions "n" .int o = .ok paddedNumber := by
    simp only [ofOptions, hregex, hrule, hdescription]
    rfl
  have hrestores : o.RestoresIntegers paddedNumber.rule :=
    .inr ⟨fun lo hlo => by cases hlo; decide,
      fun _ => ⟨rfl, by decide, fun hi hhi => by cases hhi; decide⟩⟩
  exact ⟨ht, rfl, rfl, hrestores, ((reformats_iff rfl rfl).1 ht).1.2 hrestores⟩

/-- A choice between two digits. -/
def oneOrTwo : Token where
  name := "n"
  kind := .int
  regex := "(?:1|2)"
  anchored := ⟨.concat [.check .textStart, .alt (.char '1') (.char '2'), .check .textEnd], []⟩
  rule :=
    { spec := "0=2d", fill := some '0', align := some .afterSign, width := 2, type := some .int }
  description := "Must be one of: [\"1\", \"2\"]"
  default := none

/-- Choices that are read as they are and rendered to two digits. -/
theorem format_oneOrTwo :
    let o := { TokenOptions.ofKind "int" with choices := some [.int 1, .int 2], padmin := some 2 }
    ofOptions "n" .int o = .ok oneOrTwo ∧ oneOrTwo.parse "1" = .ok (.int 1) ∧
      oneOrTwo.format (.int 1) = .error (.roundTrip "n" "01") ∧ ¬ oneOrTwo.Reformats := by
  intro o
  have hregex : Kind.int.regex "n" o = .ok oneOrTwo.regex := by decide +kernel
  have hdescription : Kind.int.description o = oneOrTwo.description := by decide +kernel
  have hrule : Kind.int.renderRule o = .ok oneOrTwo.rule := by decide +kernel
  have hparse : oneOrTwo.parse "1" = .ok (.int 1) := by decide +kernel
  have hformat : oneOrTwo.format (.int 1) = .error (.roundTrip "n" "01") := by decide +kernel
  refine ⟨?_, hparse, hformat, fun h => ?_⟩
  · simp only [ofOptions, hregex, hrule, hdescription]
    rfl
  · obtain ⟨u, hu, -⟩ := h _ _ hparse
    rw [hformat] at hu
    cases hu

end Token

end Stencil
