import Stencil.Proofs.Pattern.Consuming
import Stencil.Proofs.Template.Parsing
import Stencil.Proofs.Text.Numerals

/-!
# Tokens of letters and digits

A token of integers or of text that is built from padding and case alone has an expression of
classes of ASCII letters and digits, the last of which is repeated (`Shape`). Both readers read it
as the same pattern, and so the token means in the expression of a template what it means alone
(`IsPadded.composable`).
-/

namespace Stencil

open Pattern

namespace Pattern

/-! ## Classes -/

/-- The text of a class behind its opening bracket, and the set of letters and digits that either
reader reads it as. -/
structure CharClass where
  text : List Char
  set : CharSet
  plain : ∀ tail, readBracket {} (text ++ tail) = .ok (set, tail)
  composite : ∀ tail, Composite.readBracket {} (text ++ tail) = .ok (set, tail)
  alnum : ∀ c, set.mem c = true → c.isAlphanum = true

namespace CharClass

theorem isAlphanum_of_mem_range {a b c : Char} (h : (CharSet.range a b).mem c = true)
    (hab : (a = '0' ∧ b = '9') ∨ (a = 'a' ∧ b = 'z') ∨ (a = 'A' ∧ b = 'Z')) :
    c.isAlphanum = true := by
  simp only [CharSet.mem, Bool.and_eq_true, decide_eq_true_eq] at h
  rw [isAlphanum_iff]
  rcases hab with ⟨rfl, rfl⟩ | ⟨rfl, rfl⟩ | ⟨rfl, rfl⟩
  · exact .inr h
  · exact .inl (.inr h)
  · exact .inl (.inl h)

/-- The digits. -/
def digits : CharClass where
  text := "0-9]".toList
  set := .range '0' '9'
  plain _ := rfl
  composite _ := rfl
  alnum _ h := isAlphanum_of_mem_range h (.inl ⟨rfl, rfl⟩)

/-- The small letters. -/
def lower : CharClass where
  text := "a-z]".toList
  set := .range 'a' 'z'
  plain _ := rfl
  composite _ := rfl
  alnum _ h := isAlphanum_of_mem_range h (.inr (.inl ⟨rfl, rfl⟩))

/-- The capital letters. -/
def upper : CharClass where
  text := "A-Z]".toList
  set := .range 'A' 'Z'
  plain _ := rfl
  composite _ := rfl
  alnum _ h := isAlphanum_of_mem_range h (.inr (.inr ⟨rfl, rfl⟩))

/-- The letters. -/
def letters : CharClass where
  text := "a-zA-Z]".toList
  set := .union (.range 'a' 'z') (.range 'A' 'Z')
  plain _ := rfl
  composite _ := rfl
  alnum _ h := by
    rcases Bool.or_eq_true _ _ ▸ h with h | h
    · exact isAlphanum_of_mem_range h (.inr (.inl ⟨rfl, rfl⟩))
    · exact isAlphanum_of_mem_range h (.inr (.inr ⟨rfl, rfl⟩))

end CharClass

end Pattern

/-! ## Bounds -/

namespace Padding

variable {p : Padding}

/-- The least and the greatest number of rounds of a padding. -/
def bounds (p : Padding) : Nat × Option Nat :=
  match p.min, p.max with
  | some lo, hi => (lo, hi)
  | none, some hi => (0, some hi)
  | none, none => (1, none)

/-- The digits of an upper bound, if there is one. -/
def upperDigits (hi : Option Nat) : List Char := (hi.map Decimal.digits).getD []

theorem quantifier_cases (p : Padding) :
    (p.quantifier.toList = ['+'] ∧ p.bounds = (1, none)) ∨
      p.quantifier.toList =
        '\x7b' :: (Decimal.digits p.bounds.1 ++ ',' :: (upperDigits p.bounds.2 ++ ['\x7d'])) := by
  obtain ⟨min, max⟩ := p
  cases min with
  | some lo =>
    right
    cases max <;> simp [quantifier, bounds, upperDigits, Decimal.ofNat]
  | none =>
    cases max with
    | some hi =>
      right
      have hzero : Decimal.digits 0 = ['0'] := by
        rw [Decimal.digits, if_pos (by decide)]
        rfl
      simp [quantifier, bounds, upperDigits, Decimal.ofNat, hzero]
    | none => exact .inl ⟨by simp [quantifier], rfl⟩

end Padding

/-- Bounds of a repetition that are in order and not too great to be written. -/
def Ordered (lo : Nat) (hi : Option Nat) : Prop :=
  lo < Pattern.Reader.countLimit ∧ ∀ n, hi = some n → n < Pattern.Reader.countLimit ∧ lo ≤ n

theorem isSpace_of_isDigit {c : Char} (h : c.isDigit = true) : Unicode.isSpace c = false := by
  have hbounds : 48 ≤ c.toNat ∧ c.toNat ≤ 57 := Char.isDigit_iff_toNat.1 h
  have hne : (c == ' ') = false := by
    rw [beq_eq_false_iff_ne]
    rintro rfl
    exact absurd hbounds (by decide)
  have hlt : ¬ c.toNat ≤ 13 := by omega
  simp [Unicode.isSpace, show c.toNat < 128 by omega, hne, hlt]

/-! ## Reading repetitions -/

namespace Pattern.Reader

variable {r : Reader} {tail : List Char}

theorem readCount_digits {f : Flags} (hf : f.ignoreSpace = false) (n : Nat)
    {d : Char} (hd : d.isDigit = false) (hspace : Unicode.isSpace d = false) (tail : List Char) :
    readCount f (Decimal.digits n ++ d :: tail) =
      if countLimit ≤ n then .error .badRepetition else .ok (some n, d :: tail) := by
  obtain ⟨c, cs, hcs, hc⟩ := Decimal.digits_eq_cons n
  have hall := Decimal.all_isDigit_digits n
  have hfirst : (Decimal.digits n ++ d :: tail).dropWhile Unicode.isSpace =
      Decimal.digits n ++ d :: tail := by
    simp [hcs, isSpace_of_isDigit hc]
  have htake : (Decimal.digits n ++ d :: tail).takeWhile Char.isDigit = Decimal.digits n := by
    simp [List.takeWhile_append_of_pos hall, hd]
  have hdrop : (Decimal.digits n ++ d :: tail).dropWhile Char.isDigit = d :: tail := by
    simp [List.dropWhile_append_of_pos hall, hd]
  have hlast : (d :: tail).dropWhile Unicode.isSpace = d :: tail := by simp [hspace]
  have hfilter : (Decimal.digits n).filter Char.isDigit = Decimal.digits n :=
    List.filter_eq_self.2 hall
  have hempty : (Decimal.digits n).isEmpty = false := by simp [hcs]
  simp only [readCount, hf, Bool.false_and, Bool.or_false, hfirst, htake, hdrop, hlast, hfilter,
    hempty, Decimal.value_digits, Bool.false_eq_true, if_false]

theorem readUpper_digits {f : Flags} (hf : f.ignoreSpace = false)
    (min : Option Nat) (hi : Option Nat) :
    readUpper f min (',' :: (Padding.upperDigits hi ++ '\x7d' :: tail)) =
      if ∀ n ∈ hi, n < countLimit then .ok (hi, '\x7d' :: tail) else .error .badRepetition := by
  cases hi with
  | none => simp [readUpper, Padding.upperDigits, Flags.trim_of_not hf]
  | some n =>
    obtain ⟨c, cs, hcs, hc⟩ := Decimal.digits_eq_cons n
    have hdigits : Padding.upperDigits (some n) = Decimal.digits n := rfl
    have hcount := readCount_digits hf n (d := '\x7d') (by decide) (by decide) tail
    rw [readUpper, Flags.trim_of_not hf, hdigits]
    split
    · next heq =>
      rw [hcs] at heq
      obtain ⟨rfl, -⟩ := List.cons.inj heq
      exact absurd hc (by decide)
    · rw [hcount]
      by_cases hn : countLimit ≤ n
      · rw [if_pos hn, if_neg (by simpa using hn)]
        rfl
      · rw [if_neg hn, if_pos (by simpa using hn)]
        rfl

/-- A counted repetition is read if its bounds are in order, and refused if they are not. -/
theorem readCounted_digits (hflags : r.flags = {}) (lo : Nat) (hi : Option Nat)
    (htail : takeLazy tail = (false, tail)) :
    (Ordered lo hi ∧
      r.readCounted (Decimal.digits lo ++ ',' :: (Padding.upperDigits hi ++ '\x7d' :: tail)) =
        r.repeatLast lo hi false tail) ∨
      (¬ Ordered lo hi ∧
        r.readCounted (Decimal.digits lo ++ ',' :: (Padding.upperDigits hi ++ '\x7d' :: tail)) =
          .error .badRepetition) := by
  have hf : r.flags.ignoreSpace = false := by rw [hflags]
  rw [readCounted, Flags.trim_of_not hf, readCount_digits hf lo (by decide) (by decide)]
  by_cases hlo : countLimit ≤ lo
  · rw [if_pos hlo]
    exact .inr ⟨fun h => absurd h.1 (by omega), rfl⟩
  simp only [if_neg hlo, bind, Except.bind, readUpper_digits hf]
  by_cases hhi : ∀ n ∈ hi, n < countLimit
  · rw [if_pos hhi]
    simp only [Flags.trim_of_not hf, htail]
    by_cases hany : hi.any (· < lo) = true
    · rw [if_pos hany]
      refine .inr ⟨fun h => ?_, rfl⟩
      obtain ⟨n, rfl⟩ : ∃ n, hi = some n := Option.isSome_iff_exists.1 (by cases hi <;> simp_all)
      have hle := (h.2 n rfl).2
      simp only [Option.any_some, decide_eq_true_eq] at hany
      omega
    · rw [if_neg hany]
      refine .inl ⟨⟨by omega, fun n hn => ⟨hhi n hn, ?_⟩⟩, rfl⟩
      simpa [hn] using hany
  · rw [if_neg hhi]
    exact .inr ⟨fun h => hhi fun n hn => (h.2 n hn).1, rfl⟩

theorem ordered_of_readCounted {lo : Nat} {hi : Option Nat} {r' : Reader} (hflags : r.flags = {})
    (htail : takeLazy tail = (false, tail))
    (h : r.readCounted (Decimal.digits lo ++ ',' :: (Padding.upperDigits hi ++ '\x7d' :: tail)) =
      .ok r') :
    Ordered lo hi := by
  rcases readCounted_digits hflags lo hi htail with ⟨hordered, -⟩ | ⟨-, hread⟩
  · exact hordered
  · rw [hread] at h
    cases h

end Pattern.Reader

namespace Pattern.Composite

open Reader

variable {f : Flags} {tail : List Char}

theorem number?_digits {n : Nat} (hn : n < UInt64.size) {d : Char} (hd : d.isDigit = false) :
    number? (Decimal.digits n ++ d :: tail) = some n := by
  have htake : (Decimal.digits n ++ d :: tail).takeWhile Char.isDigit = Decimal.digits n := by
    simp [List.takeWhile_append_of_pos (Decimal.all_isDigit_digits n), hd]
  have hempty : (Decimal.digits n).isEmpty = false := by simp [Decimal.digits_ne_nil n]
  simp only [number?, htake, hempty, Decimal.value_digits, Bool.false_eq_true, false_or]
  rw [if_neg (by omega)]

theorem dropWhile_digits (n : Nat) {d : Char} (hd : d.isDigit = false) :
    (Decimal.digits n ++ d :: tail).dropWhile Char.isDigit = d :: tail := by
  simp [List.dropWhile_append_of_pos (Decimal.all_isDigit_digits n), hd]

theorem skip_digits (hf : f.ignoreSpace = false) (n : Nat) (tail : List Char) :
    skip f (Decimal.digits n ++ tail) = .ok (Decimal.digits n ++ tail) := by
  obtain ⟨c, cs, hcs, hc⟩ := Decimal.digits_eq_cons n
  rw [hcs]
  refine skip_plain hf fun ds heq => ?_
  obtain ⟨rfl, -⟩ := List.cons.inj heq
  exact absurd hc (by decide)

/-- The bounds of a counted repetition. -/
theorem readCount?_digits (hf : f.ignoreSpace = false) {lo : Nat}
    {hi : Option Nat} (hlo : lo < UInt64.size) (hhi : ∀ n ∈ hi, n < UInt64.size)
    (tail : List Char) :
    readCount? f (Decimal.digits lo ++ ',' :: (Padding.upperDigits hi ++ '\x7d' :: tail)) =
      some (lo, hi, tail) := by
  have hcomma : ∀ cs, skip f (',' :: cs) = .ok (',' :: cs) := fun cs => skip_plain hf (by simp)
  have hbrace : skip f ('\x7d' :: tail) = .ok ('\x7d' :: tail) := skip_plain hf (by simp)
  have hmin : readMin? f (Decimal.digits lo ++ ',' :: (Padding.upperDigits hi ++ '\x7d' :: tail)) =
      some (lo, ',' :: (Padding.upperDigits hi ++ '\x7d' :: tail)) := by
    obtain ⟨c, cs, hcs, hc⟩ := Decimal.digits_eq_cons lo
    have hhead : (Decimal.digits lo ++ ',' :: (Padding.upperDigits hi ++ '\x7d' :: tail)).head? ≠
        some ',' := by
      rw [hcs]
      rintro heq
      cases heq
      exact absurd hc (by decide)
    simp only [readMin?, skip_digits hf, Except.toOption, bind, Option.bind, if_neg hhead,
      number?_digits hlo (show Char.isDigit ',' = false by decide), dropWhile_digits lo
      (show Char.isDigit ',' = false by decide), Option.map]
  have hmax : readMax? f (Padding.upperDigits hi ++ '\x7d' :: tail) = some (hi, tail) := by
    cases hi with
    | none =>
      have hnumber : number? ('\x7d' :: tail) = none := rfl
      simp only [readMax?, Padding.upperDigits, Option.map_none, Option.getD_none, List.nil_append,
        hbrace, Except.toOption, bind, Option.bind, hnumber, Option.isSome_none,
        Bool.false_eq_true, if_false]
    | some n =>
      have hdigits : Padding.upperDigits (some n) = Decimal.digits n := rfl
      have hclose : Char.isDigit '\x7d' = false := by decide
      simp only [readMax?, hdigits, skip_digits hf, Except.toOption, bind, Option.bind,
        number?_digits (hhi n rfl) hclose, Option.isSome_some, if_true,
        dropWhile_digits n hclose, hbrace]
  simp only [readCount?, hmin, bind, Option.bind, hcomma, Except.toOption, hmax, Option.map]

end Pattern.Composite

/-! ## Shapes -/

/-- Classes one behind the other, the last of which is repeated. -/
structure Shape where
  front : List CharClass
  last : CharClass
  padding : Padding

namespace Shape

/-- The expression of classes. -/
def classesText (cs : List CharClass) : List Char := cs.flatMap fun c => '[' :: c.text

/-- The expression of a shape. -/
def text (sh : Shape) : List Char :=
  classesText (sh.front ++ [sh.last]) ++ sh.padding.quantifier.toList

/-- The pattern of the class that is repeated. -/
def repeatedLast (sh : Shape) : Pattern :=
  .repeated (.one sh.last.set) sh.padding.bounds.1 sh.padding.bounds.2 true

/-- The pattern of a shape. -/
def pattern (sh : Shape) : Pattern :=
  .concat (sh.front.map (fun c => .one c.set) ++ [sh.repeatedLast])

end Shape

/-- The shape of a case within a padding, the fixed first letter of camel cases counted in. -/
def Case.shape (p : Padding) : Case → Shape
  | .lower => ⟨[], .lower, p⟩
  | .upper => ⟨[], .upper, p⟩
  | .lowerCamel => ⟨[.lower], .letters, p.behindFirst⟩
  | .upperCamel => ⟨[.upper], .letters, p.behindFirst⟩

open Shape

namespace Pattern.Reader

variable {step : Reader → Except Fault Reader} {r : Reader} {tail : List Char} {sh : Shape}

/-- The reader reads classes. -/
def ReadsClasses (step : Reader → Except Fault Reader) : Prop :=
  ∀ (r : Reader) (c : CharClass) (tail : List Char), r.flags = {} →
    r.rest = '[' :: (c.text ++ tail) → step r = .ok (r.push (.one c.set) tail)

/-- The parts of classes, the latest first. -/
def classItems (cs : List CharClass) : List Item :=
  (cs.map fun c => .part (.one c.set) true).reverse

theorem leadsTo_classes (hstep : ReadsClasses step) {cs : List CharClass} (hflags : r.flags = {})
    (hrest : r.rest = classesText cs ++ tail) :
    LeadsTo step r { r with
      contents := { r.contents with items := classItems cs ++ r.contents.items },
      rest := tail } := by
  induction cs generalizing r with
  | nil =>
    have hsame :
        { r with contents := { r.contents with items := classItems [] ++ r.contents.items },
                          rest := tail } = r := by
      rw [show tail = r.rest from hrest.symm]
      rfl
    rw [hsame]
    exact .refl r
  | cons c cs ih =>
    have hfirst : r.rest = '[' :: (c.text ++ (classesText cs ++ tail)) := by
      simpa [classesText] using hrest
    have hlength : (r.push (.one c.set) (classesText cs ++ tail)).rest.length < r.rest.length := by
      simp only [hfirst, Reader.push, List.length_cons, List.length_append]
      omega
    refine (LeadsTo.of_step (hstep r c _ hflags hfirst) hlength).trans ?_
    have hnext := @ih (r.push (.one c.set) (classesText cs ++ tail)) hflags rfl
    simpa [Reader.push, Contents.push, classItems] using hnext

/-- The reader reads the repetition sign of a padding behind a class. -/
def ReadsQuantifier (step : Reader → Except Fault Reader) (p : Padding) : Prop :=
  ∀ (r : Reader) (set : CharSet) (items : List Item) (tail : List Char), r.flags = {} →
    r.contents.items = .part (.one set) true :: items → tail = [] ∨ Stops tail →
    r.rest = p.quantifier.toList ++ tail →
    step r = .ok { r with
      contents := { r.contents with
        items := .part (.repeated (.one set) p.bounds.1 p.bounds.2 true) false :: items },
      rest := tail }

/-- The reader reads the expression of a shape, also as the contents of a group. -/
theorem leadsTo_shape (hclass : ReadsClasses step) (hquantifier : ReadsQuantifier step sh.padding)
    (hflags : r.flags = {}) (hcontents : r.contents = .empty) (htail : tail = [] ∨ Stops tail)
    (hrest : r.rest = sh.text ++ tail) :
    ∃ c, c.close = sh.pattern ∧ LeadsTo step r { r with contents := c, rest := tail } := by
  have hclasses :
      r.rest = classesText (sh.front ++ [sh.last]) ++ (sh.padding.quantifier.toList ++ tail) := by
    rw [hrest, text, List.append_assoc]
  have hpos : 0 < sh.padding.quantifier.toList.length := by
    rcases sh.padding.quantifier_cases with ⟨h, -⟩ | h <;> rw [h] <;> exact Nat.succ_pos _
  refine ⟨⟨.part sh.repeatedLast false :: classItems sh.front, []⟩, ?_,
    (leadsTo_classes hclass hflags hclasses).trans (LeadsTo.of_step ?_ ?_)⟩
  · simp [Contents.close, Contents.branch, choice, pattern, repeatedLast, classItems, Item.pattern?,
      List.filterMap_reverse, List.filterMap_map, Function.comp_def]
  · have hitems : classItems (sh.front ++ [sh.last]) ++ r.contents.items =
        .part (.one sh.last.set) true :: classItems sh.front := by
        simp [classItems, hcontents, Contents.empty]
    have hread := hquantifier { r with
      contents := { r.contents with
        items := classItems (sh.front ++ [sh.last]) ++ r.contents.items }
      rest := sh.padding.quantifier.toList ++ tail } sh.last.set _ tail hflags hitems htail rfl
    rw [hread, hcontents]
    rfl
  · simpa using hpos

end Pattern.Reader

/-! ## Both readers -/

namespace Pattern

variable {p : Padding} {sh : Shape}

theorem Reader.readsClasses : Reader.ReadsClasses Reader.step := by
  intro r c tail hflags hrest
  rw [Reader.step_plain (by rw [hflags]) hrest, Reader.readSign, hflags, c.plain]
  rfl

theorem Reader.readsQuantifier (hp : Ordered p.bounds.1 p.bounds.2) :
    Reader.ReadsQuantifier Reader.step p := by
  intro r set items tail hflags hitems htail hrest
  have hplain : r.flags.ignoreSpace = false := by rw [hflags]
  have hlazy : Reader.takeLazy tail = (false, tail) := by
    rcases htail with rfl | ⟨cs⟩ | ⟨cs⟩ <;> rfl
  rcases p.quantifier_cases with ⟨htext, hbounds⟩ | htext
  · have hsign : r.rest = '+' :: tail := by simp [hrest, htext]
    rw [Reader.step_plain hplain hsign, Reader.readSign, hbounds]
    simp only [hlazy, Reader.repeatLast, hitems, hflags]
    rfl
  · have hsign :
        r.rest = '\x7b' :: (Decimal.digits p.bounds.1 ++ ',' :: (Padding.upperDigits p.bounds.2 ++
          '\x7d' :: tail)) := by simp [hrest, htext]
    rw [Reader.step_plain hplain hsign, Reader.readSign]
    rcases Reader.readCounted_digits hflags p.bounds.1 p.bounds.2 hlazy with ⟨-, hread⟩ | ⟨hnot, -⟩
    · rw [hread, Reader.repeatLast]
      simp only [hitems, hflags]
      rfl
    · exact absurd hp hnot

theorem Composite.readsClasses : Reader.ReadsClasses Composite.step := by
  intro r c tail hflags hrest
  have hskip : Composite.skip r.flags r.rest = .ok ('[' :: (c.text ++ tail)) := by
    rw [hrest]
    exact Composite.skip_plain (by rw [hflags]) (by simp)
  rw [Composite.step, hskip]
  simp only [bind, Except.bind, Composite.readSign, hflags, c.composite]
  rfl

theorem Composite.repeatLast_one {r : Reader} {set : CharSet}
    {items : List Item} (hflags : r.flags = {})
    (hitems : r.contents.items = .part (.one set) true :: items) {tail : List Char}
    (htail : tail = [] ∨ Stops tail) (min : Nat) (max : Option Nat) :
    Composite.repeatLast r min max tail = .ok { r with
      contents := { r.contents with
        items := .part (.repeated (.one set) min max true) false :: items },
      rest := tail } := by
  have hskip : Composite.skip r.flags tail = .ok tail := by
    rcases htail with rfl | ⟨cs⟩ | ⟨cs⟩
    · rfl
    · exact Composite.skip_plain (by rw [hflags]) (by simp)
    · exact Composite.skip_plain (by rw [hflags]) (by simp)
  simp only [Composite.repeatLast, hitems, hskip]
  rcases htail with rfl | ⟨cs⟩ | ⟨cs⟩ <;> rw [hflags] <;> rfl

theorem Composite.readsQuantifier (hp : Ordered p.bounds.1 p.bounds.2) :
    Reader.ReadsQuantifier Composite.step p := by
  intro r set items tail hflags hitems htail hrest
  have hplain : r.flags.ignoreSpace = false := by rw [hflags]
  rcases p.quantifier_cases with ⟨htext, hbounds⟩ | htext
  · have hskip : Composite.skip r.flags r.rest = .ok ('+' :: tail) := by
      rw [hrest, htext]
      exact Composite.skip_plain hplain (by simp)
    rw [Composite.step, hskip, hbounds]
    exact Composite.repeatLast_one hflags hitems htail 1 none
  · have hskip : Composite.skip r.flags r.rest =
        .ok ('\x7b' :: (Decimal.digits p.bounds.1 ++
          ',' :: (Padding.upperDigits p.bounds.2 ++ '\x7d' :: tail))) := by
      rw [hrest, htext, List.cons_append, List.append_assoc, List.cons_append, List.append_assoc]
      exact Composite.skip_plain hplain (by simp)
    have hlimit : Reader.countLimit ≤ UInt64.size := by decide
    have hcount := Composite.readCount?_digits hplain (hp.1.trans_le hlimit)
      (fun n hn => (hp.2 n hn).1.trans_le hlimit) tail
    have hexpects : Composite.expectsCount r = true := by simp [Composite.expectsCount, hitems]
    rw [Composite.step, hskip]
    simp only [bind, Except.bind, Composite.readSign, hexpects, if_true, hcount]
    exact Composite.repeatLast_one hflags hitems htail _ _

/-- Either reader reads the expression of a shape as its pattern. -/
theorem alone?_shape {regex : String} (htext : regex.toList = sh.text)
    (hp : Ordered sh.padding.bounds.1 sh.padding.bounds.2) :
    Reader.alone? regex = some sh.pattern ∧ Composite.alone? regex = some sh.pattern := by
  have hrest : (Reader.start regex.toList).rest = sh.text ++ [] := by
    rw [List.append_nil, ← htext, Reader.start]
  constructor
  · obtain ⟨c, hclose, hleads⟩ :=
      Reader.leadsTo_shape Reader.readsClasses (Reader.readsQuantifier hp) rfl rfl (.inl rfl) hrest
    exact Reader.alone?_of_leadsTo hleads hclose
  · obtain ⟨c, hclose, hleads⟩ :=
      Reader.leadsTo_shape Composite.readsClasses (Composite.readsQuantifier hp) rfl rfl
        (.inl rfl) hrest
    exact Composite.alone?_of_leadsTo hleads hclose

/-- If the expression can be read between anchors, its bounds are in order. -/
theorem ordered_of_read {regex : String} {e : Expression} (htext : regex.toList = sh.text)
    (h : Expression.read (Token.anchor regex) = .ok e) :
    Ordered sh.padding.bounds.1 sh.padding.bounds.2 := by
  obtain ⟨r', hr, -⟩ := Reader.run_enclosed h
  rcases hq : sh.padding.quantifier_cases with ⟨-, hbounds⟩ | hquantifier
  · rw [hbounds]
    exact ⟨by decide, by simp⟩
  have hrest : (Reader.enclosed (regex.toList ++ [')', '$'])).rest =
      classesText (sh.front ++ [sh.last]) ++ '\x7b' :: (Decimal.digits sh.padding.bounds.1 ++
        ',' :: (Padding.upperDigits sh.padding.bounds.2 ++ '\x7d' :: [')', '$'])) := by
    simp [Reader.enclosed, htext, text, hquantifier]
  obtain ⟨k, hk, hrun⟩ := Reader.leadsTo_classes Reader.readsClasses rfl hrest
  obtain ⟨n, hn⟩ : ∃ n, regex.toList.length + 1 + 4 = k + (n + 1) := by
    have hlength : (Reader.enclosed (regex.toList ++ [')', '$'])).rest.length =
        regex.toList.length + 2 := by
      simp [Reader.enclosed]
    exact ⟨regex.toList.length + 4 - k, by omega⟩
  rw [hn, hrun, Reader.run_step (List.cons_ne_nil _ _)] at hr
  obtain ⟨r1, hstep, -⟩ := bind_eq_ok.1 hr
  rw [Reader.step_plain rfl rfl, Reader.readSign] at hstep
  have hparen : Reader.takeLazy [')', '$'] = (false, [')', '$']) := rfl
  exact Reader.ordered_of_readCounted rfl hparen hstep

end Pattern

/-! ## Words of a shape -/

namespace Shape

variable {sh : Shape} {w : List Char}

/-- The words of the class that is repeated. -/
theorem mem_language_repeatedLast :
    w ∈ sh.repeatedLast.language ↔ sh.padding.bounds.1 ≤ w.length ∧
      (∀ n, sh.padding.bounds.2 = some n → w.length ≤ max sh.padding.bounds.1 n) ∧
      ∀ c ∈ w, sh.last.set.mem c = true := by
  rw [repeatedLast, mem_language_repeated]
  constructor
  · rintro ⟨n, hn, hw⟩
    obtain ⟨hlen, hall⟩ := mem_language_one_pow.1 hw
    refine ⟨by omega, fun m hm => ?_, hall⟩
    have := hn m hm
    omega
  · rintro ⟨hlo, hhi, hall⟩
    refine ⟨w.length - sh.padding.bounds.1, fun m hm => ?_, mem_language_one_pow.2 ⟨by omega, hall⟩⟩
    have := hhi m hm
    omega

theorem isRegular_pattern (sh : Shape) : sh.pattern.isRegular = true := by
  refine isRegular_concat fun p hp => ?_
  rcases List.mem_append.1 hp with hp | hp
  · obtain ⟨c, -, rfl⟩ := List.mem_map.1 hp
    rfl
  · obtain rfl := List.mem_singleton.1 hp
    rfl

theorem loopsConsume_pattern (sh : Shape) : sh.pattern.loopsConsume = true := by
  refine loopsConsume_concat fun p hp => ?_
  rcases List.mem_append.1 hp with hp | hp
  · obtain ⟨c, -, rfl⟩ := List.mem_map.1 hp
    rfl
  · obtain rfl := List.mem_singleton.1 hp
    rfl

/-- A shape stands for words of ASCII letters and digits. -/
theorem isAlphanum_of_mem (h : w ∈ sh.pattern.language) : ∀ c ∈ w, c.isAlphanum = true := by
  rw [pattern] at h
  generalize sh.front = front at h
  induction front generalizing w with
  | nil =>
    have hall := (mem_language_repeatedLast.1 h).2.2
    exact fun c hc => sh.last.alnum c (hall c hc)
  | cons a front ih =>
    rw [List.map_cons, List.cons_append, language_concat_cons, Language.mem_mul] at h
    obtain ⟨u, ⟨c, rfl, hc⟩, v, hv, rfl⟩ := h
    intro d hd
    rcases List.mem_cons.1 hd with rfl | hd
    · exact a.alnum d hc
    · exact ih hv d hd

end Shape

/-- The shape of text within a padding, of any letters or of the letters of a case. -/
def TokenOptions.textShape (o : TokenOptions) (p : Padding) : Shape :=
  match o.letterCase with
  | none => ⟨[], .letters, p⟩
  | some c => c.shape p

/-! ## Tokens -/

namespace Token

theorem ofOptions_eq {name : String} {kind : Kind} {o : TokenOptions} {u : Token}
    (h : ofOptions name kind o = .ok u) :
    kind.regex name o = .ok u.regex ∧ kind.renderRule o = .ok u.rule ∧
    isIdentifier name = true ∧ u.Valid ∧
      u.name = name ∧ u.kind = kind := by
  obtain ⟨regex, hregex, hrest⟩ := bind_eq_ok.1 h
  obtain ⟨rule, hrule, hcreate⟩ := bind_eq_ok.1 hrest
  obtain ⟨v, hv, hu⟩ := bind_eq_ok.1 hcreate
  obtain ⟨hname, hread, rfl, rfl, rfl, rfl⟩ := create_eq hv
  cases hu
  exact ⟨hregex, hrule, hname, hread, rfl, rfl⟩

/-- Without an expression of its own, the expression of a class is the class within its padding, or
the choices. -/
theorem classRegex_cases {o : TokenOptions} {cls regex : String} (hregex : o.regex = none)
    (h : Kind.classRegex o cls = .ok regex) :
    (∃ padding, o.padding = .ok padding ∧ Kind.choices? o = none ∧
        regex.toList = cls.toList ++ padding.quantifier.toList) ∨
      ∃ cs, Kind.choices? o = some cs ∧ regex = Kind.choicesRegex cs := by
  rw [Kind.classRegex, hregex] at h
  obtain ⟨padding, hpadding, h⟩ := bind_eq_ok.1 h
  split at h
  · next cs hcs =>
    cases h
    exact .inr ⟨cs, hcs, rfl⟩
  · next hcs =>
    cases h
    exact .inl ⟨padding, hpadding, hcs, String.toList_append⟩

theorem toList_caseRegex {o : TokenOptions} {c : Case} {regex : String}
    (h : Kind.caseRegex o c = .ok regex) :
    ∃ padding, o.padding = .ok padding ∧ regex.toList = (c.shape padding).text := by
  unfold Kind.caseRegex at h
  split at h
  · cases h
  · obtain ⟨padding, hpadding, h⟩ := bind_eq_ok.1 h
    cases h
    exact ⟨padding, hpadding, by cases c <;> exact String.toList_append⟩

/-- Without an expression of its own, the expression of a token of integers is that of digits within
its padding, or that of its choices. -/
theorem int_regex_cases {name regex : String} {o : TokenOptions} (hregex : o.regex = none)
    (h : Kind.int.regex name o = .ok regex) :
    (∃ padding, o.padding = .ok padding ∧ Kind.choices? o = none ∧
        regex.toList = (⟨[], .digits, padding⟩ : Shape).text) ∨
      ∃ cs, Kind.choices? o = some cs ∧ regex = Kind.choicesRegex cs := by
  simp only [Kind.int] at h
  split at h
  · cases h
  · exact classRegex_cases hregex h

/-- The expression of a token of text is that of letters of its case within its padding, unless
there are choices and no case. -/
theorem text_regex_cases {name regex : String} {o : TokenOptions} (hregex : o.regex = none)
    (h : Kind.text.regex name o = .ok regex) :
    (∃ padding, o.padding = .ok padding ∧ (Kind.choices? o = none ∨ o.letterCase ≠ none) ∧
        regex.toList = (o.textShape padding).text) ∨
      ∃ cs, Kind.choices? o = some cs ∧ o.letterCase = none ∧ regex = Kind.choicesRegex cs := by
  simp only [Kind.text] at h
  unfold TokenOptions.textShape
  split at h
  · next hcase =>
    rw [hcase]
    obtain ⟨padding, hpadding, hchoices, htext⟩ | ⟨cs, hcs, hchoices⟩ := classRegex_cases hregex h
    · exact .inl ⟨padding, hpadding, .inl hchoices, htext⟩
    · exact .inr ⟨cs, hcs, rfl, hchoices⟩
  · next c hcase =>
    rw [hcase]
    obtain ⟨padding, hpadding, htext⟩ := toList_caseRegex h
    exact .inl ⟨padding, hpadding, .inr (by simp), htext⟩

/-- Of both kinds, it is one of classes, the last of which is repeated, or that of the choices. -/
theorem shape_or_choices {name regex : String} {kind : Kind} {o : TokenOptions}
    (hkind : kind = .int ∨ kind = .text) (hregex : o.regex = none)
    (h : kind.regex name o = .ok regex) :
    (∃ sh : Shape, regex.toList = sh.text) ∨ ∃ cs, Kind.choices? o = some cs ∧
      regex = Kind.choicesRegex cs := by
  rcases hkind with rfl | rfl
  · exact (int_regex_cases hregex h).imp_left fun ⟨_, _, _, htext⟩ => ⟨_, htext⟩
  · exact (text_regex_cases hregex h).imp (fun ⟨_, _, _, htext⟩ => ⟨_, htext⟩)
      fun ⟨cs, hcs, _, hchoices⟩ =>
      ⟨cs, hcs, hchoices⟩

/-- A token of integers or of text that is built without an expression of its own. Its description
and its default may be any. -/
def IsDerived (u : Token) : Prop :=
  ∃ kind o v, (kind = Kind.int ∨ kind = Kind.text) ∧ o.regex = none ∧
    ofOptions u.name kind o = .ok v ∧
      u = { v with description := u.description, default := u.default }

namespace IsDerived

variable {u v : Token}

theorem isIdentifier_name (h : u.IsDerived) : isIdentifier u.name = true := by
  obtain ⟨kind, o, v, -, -, hv, -⟩ := h
  exact (ofOptions_eq hv).2.2.1

theorem valid (h : u.IsDerived) : u.Valid := by
  obtain ⟨kind, o, v, -, -, hv, hu⟩ := h
  rw [hu]
  exact (ofOptions_eq hv).2.2.2.1

theorem kind_eq (h : u.IsDerived) : u.kind = Kind.int ∨ u.kind = Kind.text := by
  obtain ⟨kind, o, v, hkind, -, hv, hu⟩ := h
  rw [hu]
  simpa [(ofOptions_eq hv).2.2.2.2.2] using hkind

/-- Such tokens that cannot be told apart are equal. -/
theorem eq_of_same (hu : u.IsDerived) (hv : v.IsDerived) (h : u.same v = true) : u = v := by
  simp only [same, Bool.and_eq_true, beq_iff_eq] at h
  obtain ⟨⟨⟨⟨⟨hname, htag⟩, hregex⟩, hrule⟩, hdescription⟩, hdefault⟩ := h
  have hkind : u.kind = v.kind := by
    rcases hu.kind_eq with hu | hu <;> rcases hv.kind_eq with hv | hv <;> rw [hu, hv] at htag ⊢
    · exact absurd htag (by decide)
    · exact absurd htag (by decide)
  have hanchored : u.anchored = v.anchored := by
    have := hu.valid
    rw [Valid, hregex, hv.valid] at this
    exact (Except.ok.inj this).symm
  obtain ⟨⟩ := u
  obtain ⟨⟩ := v
  simp_all

end IsDerived

/-- A token of integers or of text that is built from padding and case alone: without an expression,
choices or a spec of its own. Its description and its default may be any. -/
def IsPadded (u : Token) : Prop :=
  ∃ kind o v, (kind = Kind.int ∨ kind = Kind.text) ∧ o.regex = none ∧ Kind.choices? o = none ∧
    o.formatSpec = none ∧ ofOptions u.name kind o = .ok v ∧
    u = { v with description := u.description, default := u.default }

namespace IsPadded

variable {u : Token}

theorem isDerived (h : u.IsPadded) : u.IsDerived := by
  obtain ⟨kind, o, v, hkind, hregex, -, -, hv, hu⟩ := h
  exact ⟨kind, o, v, hkind, hregex, hv, hu⟩

theorem valid (h : u.IsPadded) : u.Valid := h.isDerived.valid

/-- The expression of such a token is one of classes, the last of which is repeated. -/
theorem exists_shape (h : u.IsPadded) : ∃ sh : Shape, u.regex.toList = sh.text := by
  obtain ⟨kind, o, v, hkind, hregex, hchoices, -, hv, hu⟩ := h
  have hsame : u.regex = v.regex := by rw [hu]
  rw [hsame]
  rcases shape_or_choices hkind hregex (ofOptions_eq hv).1 with hshape | ⟨cs, hcs, -⟩
  · exact hshape
  · rw [hchoices] at hcs
    cases hcs

/-- Its shape is what either reader reads, and what it matches. -/
theorem exists_read (h : u.IsPadded) :
    ∃ sh : Shape, Composite.alone? u.regex = some sh.pattern ∧
      ∀ w : String, u.matches? w = true ↔ w.toList ∈ sh.pattern.language := by
  obtain ⟨sh, htext⟩ := h.exists_shape
  obtain ⟨hplain, hcomposite⟩ := alone?_shape htext (ordered_of_read htext h.valid)
  exact ⟨sh, hcomposite, u.matches?_iff h.valid hplain sh.isRegular_pattern⟩

theorem composable (h : u.IsPadded) : u.Composable := by
  obtain ⟨sh, hcomposite, hmatches⟩ := h.exists_read
  exact ⟨h.isDerived.isIdentifier_name, sh.pattern, hcomposite, sh.isRegular_pattern, hmatches⟩

/-- It matches texts of ASCII letters and digits alone. -/
theorem isAlphanum_of_matches (h : u.IsPadded) {w : String} (hw : u.matches? w = true) :
    ∀ c ∈ w.toList, c.isAlphanum = true := by
  obtain ⟨sh, -, hmatches⟩ := h.exists_read
  exact Shape.isAlphanum_of_mem ((hmatches w).1 hw)

theorem eq_of_same {v : Token} (hu : u.IsPadded) (hv : v.IsPadded) (h : u.same v = true) : u = v :=
  hu.isDerived.eq_of_same hv.isDerived h

end IsPadded

end Token

end Stencil
