import Stencil.Proofs.Pattern.Steady
import Stencil.Proofs.Text.Numerals
import Stencil.Token.RenderRule

/-!
# Specs of render rules

A spec is put together from a front, a zero flag, the digits of a width and the letter of a type
(`RenderRule.Parts`). No spec can be put together in two ways (`Parts.spec_injective`), although any
character may fill and a zero may fill, be the flag or be a digit. The specs that are read are those
of parts within the bounds (`parse_exact`).

Padding options are written one behind the other and read as a spec. An alignment gives them their
own meaning. Another character in its place is refused, unless it is a digit and what is in front of
it a digit or an alignment (`padded_exact`): then it is read as a digit of the width
(`padded_digitForAlign`).
-/

namespace Stencil.RenderRule

/-! ## Parts of a spec -/

/-- What a spec begins with: nothing, an alignment, or a fill character and an alignment. -/
inductive Front where
  | bare
  | aligned (a : Align)
  | filled (c : Char) (a : Align)
deriving DecidableEq

namespace Front

/-- A front as it is written. -/
def chars : Front → List Char
  | .bare => []
  | .aligned a => [a.char]
  | .filled c a => [c, a.char]

/-- The fill character that a front gives. -/
def fill : Front → Option Char
  | .filled c _ => some c
  | _ => none

/-- The alignment that a front gives. -/
def align : Front → Option Align
  | .bare => none
  | .aligned a => some a
  | .filled _ a => some a

end Front

/-- The zero flag as it is written. -/
def flagChars (zero : Bool) : List Char := if zero then ['0'] else []

/-- The parts of a spec. -/
@[ext]
structure Parts where
  front : Front
  /-- Whether the zero flag follows the front. -/
  zero : Bool
  /-- The digits of the width, of which there may be none. -/
  digits : List Char
  type : Option RenderType
  isDigit : ∀ c ∈ digits, c.isDigit = true
  /-- A zero behind the front is the flag, and not a digit of the width. -/
  zero_of_head : digits.head? = some '0' → zero = true

namespace Parts

/-- The spec that is put together from the parts. -/
def spec (p : Parts) : String :=
  .ofList (p.front.chars ++ (flagChars p.zero ++ (p.digits ++ typeChars p.type)))

/-- The fill character: that of the front, or a zero if there is no front but the zero flag. -/
def fill (p : Parts) : Option Char :=
  if p.front = .bare ∧ p.zero = true then some '0' else p.front.fill

/-- The alignment: that of the front, or behind the sign if there is no front but the zero flag. -/
def align (p : Parts) : Option Align :=
  if p.front = .bare ∧ p.zero = true then some .afterSign else p.front.align

/-- The number that the digits stand for. -/
def width (p : Parts) : Nat := Decimal.value p.digits

/-- The rule that the parts describe. -/
def rule (p : Parts) : RenderRule := ⟨p.spec, p.fill, p.align, p.width, p.type⟩

/-- The width is not too large, and no text is to be padded behind its sign. -/
structure Allowed (p : Parts) : Prop where
  width : p.width ≤ maxWidth
  type : ¬ (p.type = some .text ∧ p.align = some .afterSign)

/-- Parts with a run of digits behind the front, of which a zero in front is the flag. -/
def ofRun (front : Front) (run : List Char) (hrun : ∀ c ∈ run, c.isDigit = true)
    (type : Option RenderType) :
    Parts where
  front
  zero := run.head? = some '0'
  digits := if run.head? = some '0' then run.tail else run
  type
  isDigit c hc := by
    split at hc
    · exact hrun c (List.mem_of_mem_tail hc)
    · exact hrun c hc
  zero_of_head := by
    split
    · simp [*]
    · simp [*]

end Parts

variable {spec : String} {rule : RenderRule} {type : Option RenderType} {cs rest : List Char}

/-! ## The readers -/

theorem mem_typeChars {c : Char} (h : c ∈ typeChars type) : c = 'd' ∨ c = 's' := by
  rcases type with _ | _ | _ <;> simp_all [typeChars, RenderType.char]

theorem typeChars_injective {t : Option RenderType} (h : typeChars type = typeChars t) :
    type = t := by
  rcases type with _ | _ | _ <;> rcases t with _ | _ | _ <;> simp_all [typeChars, RenderType.char]

theorem isDigit_flagChars (zero : Bool) : ∀ c ∈ flagChars zero, c.isDigit = true := by
  cases zero <;> simp [flagChars]

theorem ofChar?_of_isDigit {c : Char} (h : c.isDigit = true) : Align.ofChar? c = none := by
  unfold Align.ofChar?
  split
  all_goals first
    | rfl
    | exact absurd h (by decide)

/-- A front is read where no alignment follows it. -/
theorem readAlign_front (f : Front) (h : ∀ c ∈ rest, Align.ofChar? c = none) :
    readAlign (f.chars ++ rest) = (f.fill, f.align, rest) := by
  cases f with
  | bare =>
    rcases rest with _ | ⟨c, _ | ⟨d, rest⟩⟩
    · rfl
    · simp [Front.chars, Front.fill, Front.align, readAlign, h c]
    · simp [Front.chars, Front.fill, Front.align, readAlign, h c, h d]
  | aligned a =>
    rcases rest with _ | ⟨d, rest⟩
    · simp [Front.chars, Front.fill, Front.align, readAlign]
    · simp [Front.chars, Front.fill, Front.align, readAlign, h d]
  | filled c a => simp [Front.chars, Front.fill, Front.align, readAlign]

/-- Every text has a front. -/
theorem exists_front (cs : List Char) :
    ∃ f : Front, ∃ rest, cs = f.chars ++ rest ∧ readAlign cs = (f.fill, f.align, rest) := by
  unfold readAlign
  split
  · exact ⟨.bare, [], rfl, rfl⟩
  · next c =>
    split
    · next a ha => exact ⟨.aligned a, [], by rw [Align.ofChar?_eq_some_iff.1 ha]; rfl, rfl⟩
    · exact ⟨.bare, [c], rfl, rfl⟩
  · next c d cs =>
    split
    · next a ha => exact ⟨.filled c a, cs, by rw [Align.ofChar?_eq_some_iff.1 ha]; rfl, rfl⟩
    · split
      · next a ha => exact ⟨.aligned a, d :: cs, by rw [Align.ofChar?_eq_some_iff.1 ha]; rfl, rfl⟩
      · exact ⟨.bare, c :: d :: cs, rfl, rfl⟩

theorem readZero_of_head (fill : Option Char) (align : Option Align) (h : cs.head? ≠ some '0') :
    readZero (fill, align, cs) = (fill, align, cs) := by
  unfold readZero
  split
  · next heq =>
    cases heq
    exact absurd rfl h
  · rfl

theorem readZero_zero (f : Front) (cs : List Char) : readZero (f.fill, f.align, '0' :: cs) =
    (if f = .bare then some '0' else f.fill, if f = .bare then some .afterSign else f.align,
      cs) := by
  cases f <;> simp [readZero, Front.fill, Front.align]

/-- What follows a front is the zero flag, if it is there, and what does not begin with a zero
unless it is. -/
theorem exists_flag (f : Front) (cs : List Char) : ∃ zero rest, cs = flagChars zero ++ rest ∧
    (rest.head? = some '0' → zero = true) ∧ (readZero (f.fill, f.align, cs)).2.2 = rest := by
  by_cases hhead : cs.head? = some '0'
  · obtain ⟨rest, rfl⟩ := List.head?_eq_some_iff.1 hhead
    exact ⟨true, rest, rfl, fun _ => rfl, by rw [readZero_zero]⟩
  · exact ⟨false, cs, rfl, fun h => absurd h hhead, by rw [readZero_of_head _ _ hhead]⟩

/-- The width of a run of digits. -/
theorem readWidth_run (hdigits : ∀ c ∈ cs, c.isDigit = true)
    (hrest : ∀ c ∈ rest.head?, c.isDigit = false) :
    readWidth (cs ++ rest) =
      if widthLimit ≤ Decimal.value cs then .error .widthUnreadable
      else if maxWidth < Decimal.value cs then .error (.widthExceeds (Decimal.value cs))
      else .ok (Decimal.value cs, rest) := by
  have hstop : rest.takeWhile Char.isDigit = [] ∧ rest.dropWhile Char.isDigit = rest := by
    cases rest with
    | nil => exact ⟨rfl, rfl⟩
    | cons c rest => simp [hrest c rfl]
  simp only [readWidth, List.takeWhile_append_of_pos hdigits, List.dropWhile_append_of_pos hdigits,
    hstop.1, hstop.2, List.append_nil]

/-- A width is read from a run of digits. -/
theorem exists_digits {width : Nat} (h : readWidth cs = .ok (width, rest)) :
    ∃ digits, (∀ c ∈ digits, c.isDigit = true) ∧ cs = digits ++ rest := by
  refine ⟨cs.takeWhile Char.isDigit, fun c hc => List.mem_takeWhile_imp hc, ?_⟩
  simp only [readWidth] at h
  split at h
  · cases h
  · split at h
    · cases h
    · have hdrop : cs.dropWhile Char.isDigit = rest := congrArg Prod.snd (Except.ok.inj h)
      rw [← hdrop, List.takeWhile_append_dropWhile]

theorem readType_eq_ok_iff : readType cs = .ok type ↔ cs = typeChars type := by
  constructor
  · intro h
    unfold readType at h
    split at h
    · cases h
      rfl
    · split at h
      · next hcs =>
        cases h
        rw [hcs]
        rfl
      · cases h
    · split at h
      · next hcs =>
        cases h
        rw [hcs]
        rfl
      · cases h
    · cases h
  · rintro rfl
    rcases type with _ | _ | _ <;> rfl

/-! ## Reading a spec -/

namespace Parts

/-- The zero flag is a digit as well. -/
theorem isDigit_run (p : Parts) : ∀ c ∈ flagChars p.zero ++ p.digits, c.isDigit = true := by
  intro c hc
  rcases List.mem_append.1 hc with hc | hc
  · exact isDigit_flagChars p.zero c hc
  · exact p.isDigit c hc

/-- What follows the front holds no alignment. -/
theorem ofChar?_of_mem (p : Parts) :
    ∀ c ∈ flagChars p.zero ++ (p.digits ++ typeChars p.type), Align.ofChar? c = none := by
  intro c hc
  rw [← List.append_assoc] at hc
  rcases List.mem_append.1 hc with hc | hc
  · exact ofChar?_of_isDigit (p.isDigit_run c hc)
  · rcases mem_typeChars hc with rfl | rfl <;> rfl

theorem readAlign_spec (p : Parts) : readAlign p.spec.toList =
    (p.front.fill, p.front.align, flagChars p.zero ++ (p.digits ++ typeChars p.type)) := by
  rw [spec, String.toList_ofList, readAlign_front p.front p.ofChar?_of_mem]

/-- A zero behind the front is the flag. -/
theorem zero_iff (p : Parts) :
    p.zero = true ↔ (flagChars p.zero ++ (p.digits ++ typeChars p.type)).head? = some '0' := by
  cases hzero : p.zero with
  | true => simp [flagChars]
  | false =>
    refine iff_of_false Bool.false_ne_true fun h => ?_
    rw [flagChars, if_neg Bool.false_ne_true, List.nil_append] at h
    rcases hdigits : p.digits with _ | ⟨c, cs⟩
    · rw [hdigits, List.nil_append] at h
      rcases mem_typeChars (List.mem_of_mem_head? h) with hc | hc <;> exact absurd hc (by decide)
    · have := p.zero_of_head (by rw [hdigits] at h ⊢; exact h)
      rw [hzero] at this
      cases this

theorem readZero_spec (p : Parts) : readZero (readAlign p.spec.toList) =
    (p.fill, p.align, p.digits ++ typeChars p.type) := by
  have hiff := p.zero_iff
  rw [readAlign_spec]
  cases hzero : p.zero with
  | true => simp [flagChars, hzero, readZero_zero, fill, align]
  | false =>
    have hhead : (p.digits ++ typeChars p.type).head? ≠ some '0' := by
      simpa [flagChars, hzero] using hiff
    simp [flagChars, hzero, readZero_of_head _ _ hhead, fill, align]

/-- What comes of a spec. -/
theorem parse_spec (p : Parts) : parse p.spec =
    if widthLimit ≤ p.width then .error .widthUnreadable
    else if maxWidth < p.width then .error (.widthExceeds p.width)
    else if p.type = some .text ∧ p.align = some .afterSign then .error .textAfterSign
    else .ok p.rule := by
  have hletter : ∀ c ∈ (typeChars p.type).head?, c.isDigit = false := by
    intro c hc
    rcases mem_typeChars (List.mem_of_mem_head? hc) with rfl | rfl <;> rfl
  have hread := readWidth_run p.isDigit hletter
  rw [← width] at hread
  simp only [parse, readZero_spec, hread]
  by_cases hlimit : widthLimit ≤ p.width
  · simp only [if_pos hlimit]
    rfl
  · by_cases hwide : maxWidth < p.width
    · simp only [if_neg hlimit, if_pos hwide]
      rfl
    · simp only [if_neg hlimit, if_neg hwide, bind, Except.bind, readType_eq_ok_iff.2 rfl]
      rfl

theorem parse_spec_eq_ok_iff {p : Parts} : parse p.spec = .ok rule ↔ p.Allowed ∧ p.rule = rule := by
  have hlimit : maxWidth < widthLimit := by decide
  rw [parse_spec]
  constructor
  · intro h
    split at h
    · cases h
    · split at h
      · cases h
      · next hwidth =>
        split at h
        · cases h
        · next htype => exact ⟨⟨Nat.le_of_not_lt hwidth, htype⟩, Except.ok.inj h⟩
  · rintro ⟨⟨hwidth, htype⟩, rfl⟩
    rw [if_neg (by omega), if_neg (by omega), if_neg htype]

/-- A width that is too large is refused, however many digits it has. -/
theorem parse_of_wide {p : Parts} (h : maxWidth < p.width) :
    parse p.spec = .error .widthUnreadable ∨ parse p.spec = .error (.widthExceeds p.width) := by
  rw [parse_spec, if_pos h]
  split
  · exact .inl rfl
  · exact .inr rfl

/-- A spec that is read has parts. -/
theorem exists_of_parse (h : parse spec = .ok rule) : ∃ p : Parts, p.spec = spec := by
  obtain ⟨f, rest, hspec, hfront⟩ := exists_front spec.toList
  obtain ⟨zero, run, hrest, hzero, hread⟩ := exists_flag f rest
  simp only [parse, hfront, hread] at h
  obtain ⟨⟨width, cs⟩, hwidth, h⟩ := bind_eq_ok.1 h
  obtain ⟨type, htype, -⟩ := bind_eq_ok.1 h
  obtain ⟨digits, hdigits, rfl⟩ := exists_digits hwidth
  have hcs : cs = typeChars type := readType_eq_ok_iff.1 htype
  have hhead : digits.head? = some '0' → zero = true := by
    intro hhead
    obtain ⟨ds, rfl⟩ := List.head?_eq_some_iff.1 hhead
    exact hzero rfl
  refine ⟨⟨f, zero, digits, type, hdigits, hhead⟩, ?_⟩
  rw [← String.toList_inj, hspec, hrest, hcs, Parts.spec, String.toList_ofList]

theorem parse_eq_ok_iff :
    parse spec = .ok rule ↔ ∃ p : Parts, p.spec = spec ∧ p.Allowed ∧ p.rule = rule := by
  constructor
  · intro h
    obtain ⟨p, rfl⟩ := exists_of_parse h
    exact ⟨p, rfl, parse_spec_eq_ok_iff.1 h⟩
  · rintro ⟨p, rfl, h⟩
    exact parse_spec_eq_ok_iff.2 h

/-- Digits and a type behind them are told apart. -/
theorem run_injective {ds es : List Char} {t : Option RenderType} (hds : ∀ c ∈ ds, c.isDigit = true)
    (hes : ∀ c ∈ es, c.isDigit = true) (h : ds ++ typeChars type = es ++ typeChars t) :
    ds = es ∧ type = t := by
  have htake : ∀ (cs : List Char) (u : Option RenderType), (∀ c ∈ cs, c.isDigit = true) →
      (cs ++ typeChars u).takeWhile Char.isDigit = cs := by
    intro cs u hcs
    rw [List.takeWhile_append_of_pos hcs]
    rcases u with _ | _ | _ <;> simp [typeChars, RenderType.char]
  have heq := congrArg (List.takeWhile Char.isDigit) h
  rw [htake ds type hds, htake es t hes] at heq
  subst heq
  exact ⟨rfl, typeChars_injective (List.append_cancel_left h)⟩

/-- What stands in front of digits and a type, and is a run and a type together with them, is
digits. -/
theorem run_append {run ds : List Char} {t : Option RenderType} (hrun : ∀ c ∈ run, c.isDigit = true)
    (hds : ∀ c ∈ ds, c.isDigit = true) (hne : ds ≠ []) (xs : List Char)
    (h : run ++ typeChars t = xs ++ (ds ++ typeChars type)) : run = xs ++ ds ∧ t = type := by
  induction xs generalizing run with
  | nil => exact run_injective hrun hds h
  | cons x xs ih =>
    rcases run with _ | ⟨c, run⟩
    · -- A type is one letter at most, and behind `x` there is a digit.
      have hlength := congrArg List.length h
      have hpos := List.length_pos_iff.2 hne
      have hone : (typeChars t).length ≤ 1 := by rcases t with _ | _ | _ <;> simp [typeChars]
      simp only [List.nil_append, List.length_cons, List.length_append] at hlength
      omega
    · simp only [List.cons_append, List.cons.injEq] at h
      obtain ⟨rfl, h⟩ := h
      obtain ⟨hrest, ht⟩ := ih (fun d hd => hrun d (List.mem_cons_of_mem _ hd)) h
      exact ⟨by rw [hrest, List.cons_append], ht⟩

theorem front_injective {f g : Front} (hfill : f.fill = g.fill) (halign : f.align = g.align) :
    f = g := by
  cases f <;> cases g <;> simp_all [Front.fill, Front.align]

/-- No spec is put together in two ways. -/
theorem spec_injective {p q : Parts} (h : p.spec = q.spec) : p = q := by
  have hread := p.readAlign_spec
  rw [h, q.readAlign_spec] at hread
  simp only [Prod.mk.injEq] at hread
  obtain ⟨hfill, halign, htail⟩ := hread
  have hzero : p.zero = q.zero := Bool.eq_iff_iff.2 (by rw [zero_iff, zero_iff, htail])
  rw [hzero, List.append_cancel_left_eq] at htail
  obtain ⟨hdigits, htype⟩ := run_injective p.isDigit q.isDigit htail.symm
  exact Parts.ext (front_injective hfill halign).symm hzero hdigits htype

/-- The zero flag does not change the width. -/
theorem width_eq (p : Parts) : p.width = Decimal.value (flagChars p.zero ++ p.digits) := by
  unfold flagChars
  split
  · exact (Decimal.value_zeros 1 _).symm
  · rfl

section

variable {f : Front} {run : List Char} (hrun : ∀ c ∈ run, c.isDigit = true)

theorem run_ofRun :
    flagChars (ofRun f run hrun type).zero ++ (ofRun f run hrun type).digits = run := by
  by_cases hhead : run.head? = some '0'
  · obtain ⟨cs, rfl⟩ := List.head?_eq_some_iff.1 hhead
    simp [flagChars, ofRun]
  · simp [flagChars, ofRun, hhead]

theorem width_ofRun :
    (ofRun f run hrun type).width = Decimal.value run := by rw [width_eq, run_ofRun]

theorem allowed_ofRun_iff : (ofRun f run hrun type).Allowed ↔ Decimal.value run ≤ maxWidth ∧
    ¬ (type = some .text ∧
      (if f = .bare ∧ run.head? = some '0' then some .afterSign else f.align) =
        some .afterSign) := by
  have halign : (ofRun f run hrun type).align =
      if f = .bare ∧ run.head? = some '0' then some .afterSign else f.align := by
        simp [align, ofRun]
  rw [← width_ofRun hrun, ← halign]
  exact ⟨fun h => ⟨h.width, h.type⟩, fun h => ⟨h.1, h.2⟩⟩

theorem spec_ofRun :
    (ofRun f run hrun type).spec = .ofList (f.chars ++ (run ++ typeChars type)) := by
  rw [spec, ← List.append_assoc (flagChars _), run_ofRun]
  rfl

end

/-- The parts of padding options: what is not read as the front is read as digits of the width. -/
theorem exists_of_paddedSpec {p : Parts} {fill align : Char} {n : Nat}
    (h : p.spec = paddedSpec fill align n type) :
    ∃ xs, [fill, align] = p.front.chars ++ xs ∧ (∀ c ∈ xs, c.isDigit = true) ∧
      p.width = Decimal.value (xs ++ Decimal.digits n) ∧ p.type = type := by
  rw [spec, paddedSpec, String.ofList_inj, ← List.append_assoc (flagChars _)] at h
  obtain ⟨xs, hxs, htail⟩ : ∃ xs, [fill, align] = p.front.chars ++ xs ∧
      flagChars p.zero ++ p.digits ++ typeChars p.type =
      xs ++ (Decimal.digits n ++ typeChars type) := by
    cases hfront : p.front with
    | bare =>
      rw [hfront] at h
      exact ⟨[fill, align], rfl, h⟩
    | aligned a =>
      rw [hfront] at h
      obtain ⟨rfl, htail⟩ := List.cons.inj h
      exact ⟨[align], rfl, htail⟩
    | filled c a =>
      rw [hfront] at h
      obtain ⟨hc, h⟩ := List.cons.inj h
      obtain ⟨ha, htail⟩ := List.cons.inj h
      exact ⟨[], by rw [← hc, ← ha]; rfl, htail⟩
  obtain ⟨hrun, htype⟩ := run_append p.isDigit_run (Decimal.all_isDigit_digits n)
    (Decimal.digits_ne_nil n) xs htail
  refine ⟨xs, hxs, fun c hc => ?_, by rw [width_eq, hrun], htype⟩
  exact p.isDigit_run c (by rw [hrun]; exact List.mem_append_left _ hc)

end Parts

open Parts

/-- **Specs are read exactly.** A spec is read if it is put together from parts that are allowed,
and then as the rule that the parts describe; the parts of a spec are determined by it; and digits
of a number beyond the greatest width are refused, however many they are. -/
theorem parse_exact :
    (∀ spec rule, parse spec = .ok rule ↔ ∃ p : Parts, p.spec = spec ∧ p.Allowed ∧ p.rule = rule) ∧
      (∀ p q : Parts, p.spec = q.spec → p = q) ∧
      ∀ p : Parts, maxWidth < p.width →
        parse p.spec = .error .widthUnreadable ∨ parse p.spec = .error (.widthExceeds p.width) :=
  ⟨fun _ _ => parse_eq_ok_iff, fun _ _ => spec_injective, fun _ => parse_of_wide⟩

/-! ## Padding options -/

variable {fill align : Char} {width : Nat}

/-- With an alignment, the spec of padding options is read as these options. -/
theorem parse_paddedSpec_align (a : Align) : parse (paddedSpec fill a.char width type) = .ok rule ↔
    width ≤ maxWidth ∧ ¬ (type = some .text ∧ a = .afterSign) ∧
      rule = ⟨paddedSpec fill a.char width type, some fill, some a, width, type⟩ := by
  have hrun := Decimal.all_isDigit_digits width
  have hspec : (ofRun (.filled fill a) (Decimal.digits width) hrun type).spec =
      paddedSpec fill a.char width type :=
    spec_ofRun hrun
  have hrule : (ofRun (.filled fill a) (Decimal.digits width) hrun type).rule =
      ⟨paddedSpec fill a.char width type, some fill, some a, width, type⟩ := by
    rw [Parts.rule, width_ofRun, Decimal.value_digits, hspec]
    simp [Parts.fill, Parts.align, ofRun, Front.fill, Front.align]
  rw [← hspec, parse_spec_eq_ok_iff, allowed_ofRun_iff, Decimal.value_digits, hrule, hspec]
  simp [Front.align, and_assoc, eq_comm]

/-- The spec of padding options is read if a front and digits make up the first two characters, and
these digits with those of the width make no width that is too large. A zero in front of all the
digits is the flag. -/
theorem exists_parse_paddedSpec_iff :
    (∃ rule, parse (paddedSpec fill align width type) = .ok rule) ↔ ∃ (f : Front) (xs : List Char),
      [fill, align] = f.chars ++ xs ∧ (∀ c ∈ xs, c.isDigit = true) ∧
      Decimal.value (xs ++ Decimal.digits width) ≤ maxWidth ∧ ¬ (type = some .text ∧
        (if f = .bare ∧ (xs ++ Decimal.digits width).head? = some '0' then some
          .afterSign else f.align) = some .afterSign) := by
  have hrun : ∀ xs : List Char, (∀ c ∈ xs, c.isDigit = true) →
      ∀ c ∈ xs ++ Decimal.digits width, c.isDigit = true := by
    intro xs hxs c hc
    rcases List.mem_append.1 hc with hc | hc
    · exact hxs c hc
    · exact Decimal.all_isDigit_digits width c hc
  have hspec : ∀ (f : Front) (xs : List Char) (hxs : ∀ c ∈ xs, c.isDigit = true),
      [fill, align] = f.chars ++ xs → (ofRun f _ (hrun xs hxs) type).spec =
      paddedSpec fill align width type := by
    intro f xs hxs hfront
    rw [spec_ofRun, paddedSpec, List.append_assoc, ← List.append_assoc f.chars, ← hfront]
    rfl
  constructor
  · rintro ⟨rule, hrule⟩
    obtain ⟨p, hp, hallowed, -⟩ := parse_eq_ok_iff.1 hrule
    obtain ⟨xs, hfront, hxs, -⟩ := exists_of_paddedSpec hp
    have hparts := spec_injective (hp.trans (hspec p.front xs hxs hfront).symm)
    rw [hparts] at hallowed
    exact ⟨_, xs, hfront, hxs, (allowed_ofRun_iff (hrun xs hxs)).1 hallowed⟩
  · rintro ⟨f, xs, hfront, hxs, hallowed⟩
    exact ⟨_, parse_eq_ok_iff.2 ⟨_, hspec f xs hxs hfront,
      (allowed_ofRun_iff (hrun xs hxs)).2 hallowed, rfl⟩⟩

/-- Without an alignment, the spec of padding options is read where a digit stands in its place and
an alignment or another digit in front of it. -/
theorem exists_parse_paddedSpec_unaligned_iff (h : Align.ofChar? align = none) :
    (∃ rule, parse (paddedSpec fill align width type) = .ok rule) ↔ align.isDigit = true ∧
      ((∃ b : Align, fill = b.char ∧ Decimal.value (align :: Decimal.digits width) ≤ maxWidth ∧
          ¬ (type = some .text ∧ b = .afterSign)) ∨
        (fill.isDigit = true ∧ Decimal.value (fill :: align :: Decimal.digits width) ≤ maxWidth ∧
          ¬ (type = some .text ∧ fill = '0'))) := by
  rw [exists_parse_paddedSpec_iff]
  constructor
  · rintro ⟨f, xs, hxs, hdigits, hwidth, htype⟩
    cases f with
    | bare =>
      obtain rfl : [fill, align] = xs := hxs
      obtain ⟨hfill, halign⟩ : fill.isDigit = true ∧ align.isDigit = true := by simpa using hdigits
      exact ⟨halign, .inr ⟨hfill, hwidth, by simpa [Front.align] using htype⟩⟩
    | aligned b =>
      obtain ⟨rfl, rfl⟩ := List.cons.inj hxs
      have halign : align.isDigit = true := by simpa using hdigits
      exact ⟨halign, .inl ⟨b, rfl, hwidth, by simpa [Front.align] using htype⟩⟩
    | filled c a =>
      obtain ⟨-, hxs⟩ := List.cons.inj hxs
      obtain ⟨rfl, -⟩ := List.cons.inj hxs
      rw [Align.ofChar?_char] at h
      cases h
  · rintro ⟨halign, ⟨b, rfl, hwidth, htype⟩ | ⟨hfill, hwidth, htype⟩⟩
    · exact ⟨.aligned b, [align], rfl, by simpa using halign, hwidth,
        by simpa [Front.align] using htype⟩
    · exact ⟨.bare, [fill, align], rfl, by simp [hfill, halign], hwidth,
        by simpa [Front.align] using htype⟩

/-- **Padding options mean what they say, but for digits.** With an alignment, padding options are
accepted if their width is not too large and no text is to be padded behind its sign, and then they
make the rule that pads with this character, at this alignment, to this width, and asks for this
type. Any other character in place of the alignment is refused, unless it is a digit behind an
alignment or a digit: this is read as part of the width. -/
theorem padded_exact (fill : Char) (width : Nat) (type : Option RenderType) :
    (∀ (a : Align) rule, padded fill a.char width type = .ok rule ↔
        width ≤ maxWidth ∧ ¬ (type = some .text ∧ a = .afterSign) ∧
          rule = ⟨paddedSpec fill a.char width type, some fill, some a, width, type⟩) ∧
      ∀ align, Align.ofChar? align = none →
        ((∃ rule, padded fill align width type = .ok rule) ↔ align.isDigit = true ∧
        ((∃ b : Align, fill = b.char ∧ Decimal.value (align :: Decimal.digits width) ≤ maxWidth ∧
            ¬ (type = some .text ∧ b = .afterSign)) ∨
          (fill.isDigit = true ∧ Decimal.value (fill :: align :: Decimal.digits width) ≤ maxWidth ∧
            ¬ (type = some .text ∧ fill = '0')))) :=
  ⟨fun a _ => parse_paddedSpec_align a, fun _ => exists_parse_paddedSpec_unaligned_iff⟩

/-- A sign that fills up integers to three characters, and a letter in place of an alignment. -/
theorem padded_exact_filledByEquals :
    padded '=' '^' 3 (some .int) = .ok ⟨"=^3d", some '=', some .center, 3, some .int⟩ ∧
    Align.ofChar? 'x' = none ∧
      ¬ ∃ rule, padded '=' 'x' 3 (some .int) = .ok rule := by
  obtain ⟨haligned, hother⟩ := padded_exact '=' 3 (some .int)
  refine ⟨(haligned .center _).2 ⟨by decide, by decide, by decide +kernel⟩, rfl, fun h => ?_⟩
  exact absurd ((hother 'x' rfl).1 h).1 (by decide)

/-- A digit in place of the alignment: the fill character is read as the alignment, and the width is
fifty more. -/
theorem padded_digitForAlign :
    Align.ofChar? '5' = none ∧
      padded '<' '5' 3 (some .int) = .ok ⟨"<53d", none, some .left, 53, some .int⟩ := by
  decide +kernel

end Stencil.RenderRule
