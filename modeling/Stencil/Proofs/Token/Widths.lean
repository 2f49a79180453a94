import Stencil.Proofs.Token.Choices

/-!
# Widths of tokens

Which texts a token of integers or of text matches, in terms of the options that it is built from.
The bounds that are given hold the number of characters (`TokenOptions.AllowsWidth`). For text of a
case they count its fixed first letter in (`Padding.allows_behindFirst`), and so they are exact
there as well, but for camel cases without any bound but zeros (`Token.parse_width_of_case`).
-/

namespace Stencil

open Pattern

/-! ## Bounds -/

namespace TokenOptions

variable (o : TokenOptions) (n : Nat)

/-- The width is within the bounds that are given. -/
def AllowsWidth : Prop := (∀ lo ∈ o.padmin, lo.toInt ≤ n) ∧ ∀ hi ∈ o.padmax, n ≤ hi.toInt

/-- There is no bound but zeros. -/
def BoundsZero : Prop := (∀ lo ∈ o.padmin, lo = 0) ∧ ∀ hi ∈ o.padmax, hi = 0

instance : Decidable (o.AllowsWidth n) :=
  @instDecidableAnd _ _ (Option.decidableForallMem o.padmin) (Option.decidableForallMem o.padmax)

instance : Decidable o.BoundsZero :=
  @instDecidableAnd _ _ (Option.decidableForallMem o.padmin) (Option.decidableForallMem o.padmax)

end TokenOptions

namespace Padding

variable {bound : PaddingBound} {given : Option Int64} {m : Option Nat}
  {bounds : PaddingBounds} {p : Padding} {o : TokenOptions} {n : Nat}

/-- A bound of a padding is the one that is given. -/
def IsGiven : Option Int64 → Option Nat → Prop := Option.Rel fun k n => k.toInt = n

/-- The number of rounds is within the bounds of a padding. -/
def Allows (p : Padding) (n : Nat) : Prop := p.bounds.1 ≤ n ∧ ∀ m, p.bounds.2 = some m → n ≤ m

theorem check_eq_ok (h : check bound given = .ok m) : IsGiven given m := by
  cases given with
  | none =>
    cases h
    exact .none
  | some k =>
    simp only [check] at h
    split at h
    · cases h
    · cases h
      exact .some (by omega)

/-- The bounds of a padding are the ones that are given, and in order. -/
theorem ofBounds_eq_ok (h : ofBounds bounds = .ok p) :
    IsGiven bounds.padmin p.min ∧ IsGiven bounds.padmax p.max ∧
      ∀ lo hi, p.min = some lo → p.max = some hi → lo ≤ hi := by
  obtain ⟨padmin, padmax⟩ := bounds
  obtain ⟨min, hmin, h⟩ := bind_eq_ok.1 h
  obtain ⟨max, hmax, h⟩ := bind_eq_ok.1 h
  have hlo := check_eq_ok hmin
  have hhi := check_eq_ok hmax
  cases hlo with
  | none =>
    cases h
    exact ⟨.none, hhi, by simp⟩
  | some hlo =>
    cases hhi with
    | none =>
      cases h
      exact ⟨.some hlo, .none, by simp⟩
    | some hhi =>
      simp only at h
      split at h
      · cases h
      · cases h
        refine ⟨.some hlo, .some hhi, fun lo hi hmin hmax => ?_⟩
        cases hmin
        cases hmax
        omega

theorem forall_of_isGiven (h : IsGiven given m) {P : Int → Prop} :
    (∀ k ∈ given, P k.toInt) ↔ ∀ n, m = some n → P n := by
  cases h with
  | none => simp
  | some heq => simp [heq]

theorem allowsWidth_iff (h : o.padding = .ok p) :
    o.AllowsWidth n ↔ (∀ lo, p.min = some lo → lo ≤ n) ∧ ∀ hi, p.max = some hi → n ≤ hi := by
  obtain ⟨hmin, hmax, -⟩ := ofBounds_eq_ok h
  have hlo := forall_of_isGiven hmin (P := (· ≤ (n : Int)))
  have hhi := forall_of_isGiven hmax (P := ((n : Int) ≤ ·))
  simp only [Int.ofNat_le] at hlo hhi
  exact and_congr hlo hhi

theorem boundsZero_iff (h : o.padding = .ok p) :
    o.BoundsZero ↔ (∀ lo, p.min = some lo → lo = 0) ∧ ∀ hi, p.max = some hi → hi = 0 := by
  obtain ⟨hmin, hmax, -⟩ := ofBounds_eq_ok h
  have hlo := forall_of_isGiven hmin (P := (· = 0))
  have hhi := forall_of_isGiven hmax (P := (· = 0))
  have hzero : ∀ k : Int64, k.toInt = 0 ↔ k = 0 := fun k => by
    rw [← Int64.toInt_zero, Int64.toInt_inj]
  simp only [hzero, Int.natCast_eq_zero] at hlo hhi
  exact and_congr hlo hhi

theorem isSome_iff_of_isGiven (h : IsGiven given m) : given ≠ none ↔ m ≠ none := by
  cases h <;> simp

theorem eq_some_zero_of_isGiven (h : IsGiven given (some 0)) : given = some 0 := by
  cases h with
  | some heq => rw [← Int64.toInt_inj.1 (heq.trans Int64.toInt_zero.symm)]

theorem getD_of_isGiven (h : IsGiven given m) : (given.getD 0).toInt = m.getD 0 := by
  cases h with
  | none => rfl
  | some heq => exact heq

theorem allows_none : (⟨none, none⟩ : Padding).Allows n ↔ 1 ≤ n := by simp [Allows, bounds]

/-- With a bound, the class is repeated as often as the bounds allow. -/
theorem allows_iff (h : o.padding = .ok p) (hgiven : o.padmin ≠ none ∨ o.padmax ≠ none) :
    p.Allows n ↔ o.AllowsWidth n := by
  obtain ⟨hmin, hmax, -⟩ := ofBounds_eq_ok h
  replace hgiven := hgiven.imp (isSome_iff_of_isGiven hmin).1 (isSome_iff_of_isGiven hmax).1
  rw [allowsWidth_iff h, Allows]
  obtain ⟨_ | lo, _ | hi⟩ := p <;> simp [bounds] at hgiven ⊢

/-- For words of one character and more, it does not matter whether there is a bound. -/
theorem allows_iff_of_pos (h : o.padding = .ok p) (hn : 0 < n) : p.Allows n ↔ o.AllowsWidth n := by
  rw [allowsWidth_iff h, Allows]
  obtain ⟨_ | lo, _ | hi⟩ := p <;> simp [bounds, Nat.one_le_iff_ne_zero, Nat.pos_iff_ne_zero.1 hn]

/-- Behind a fixed character, the class is repeated as often as the bounds allow for both. -/
theorem allows_behindFirst (h : o.padding = .ok p) (hzero : ¬ o.BoundsZero) :
    p.behindFirst.Allows n ↔ o.AllowsWidth (n + 1) := by
  obtain ⟨-, -, hle⟩ := ofBounds_eq_ok h
  rw [boundsZero_iff h] at hzero
  rw [allowsWidth_iff h, Allows]
  obtain ⟨_ | _ | lo, _ | _ | hi⟩ := p <;> simp [bounds, behindFirst, pred?] at hle hzero ⊢

/-- Bounds of zero are none behind a fixed character. -/
theorem behindFirst_of_boundsZero (h : o.padding = .ok p) (hzero : o.BoundsZero) :
    p.behindFirst = ⟨none, none⟩ := by
  obtain ⟨hmin, hmax⟩ := (boundsZero_iff h).1 hzero
  obtain ⟨_ | _ | lo, _ | _ | hi⟩ := p <;> simp [behindFirst, pred?] at hmin hmax ⊢

end Padding

/-! ## Words of classes -/

namespace Pattern.CharClass

variable (c : Char)

theorem mem_lower : lower.set.mem c = c.isLower := rfl

theorem mem_upper : upper.set.mem c = c.isUpper := by
  change (decide ('A' ≤ c) && decide (c ≤ 'Z')) = decide ('A' ≤ c ∧ c ≤ 'Z')
  rw [Bool.decide_and]

theorem mem_letters : letters.set.mem c = c.isAlpha := by
  change (lower.set.mem c || upper.set.mem c) = (c.isUpper || c.isLower)
  rw [mem_lower, mem_upper, Bool.or_comm]

end Pattern.CharClass

namespace Shape

variable {a last : CharClass} {front : List CharClass} {p : Padding} {w : List Char}

theorem mem_language_nil (hp : Ordered p.bounds.1 p.bounds.2) :
    w ∈ (⟨[], last, p⟩ : Shape).pattern.language ↔
    (∀ c ∈ w, last.set.mem c = true) ∧ p.Allows w.length := by
  refine mem_language_repeatedLast.trans ⟨fun ⟨hlo, hhi, hall⟩ => ⟨hall, hlo, fun m hm => ?_⟩,
    fun ⟨hall, hlo, hhi⟩ => ⟨hlo, fun m hm => le_max_of_le_right (hhi m hm), hall⟩⟩
  exact max_eq_right (hp.2 m hm).2 ▸ hhi m hm

/-- A character of the class in front, and a word behind it. -/
theorem mem_language_cons : w ∈ (⟨a :: front, last, p⟩ : Shape).pattern.language ↔
    ∃ c v, w = c :: v ∧ a.set.mem c = true ∧ v ∈ (⟨front, last, p⟩ : Shape).pattern.language := by
  rw [pattern, List.map_cons, List.cons_append, language_concat_cons, Language.mem_mul]
  constructor
  · rintro ⟨_, ⟨c, rfl, hc⟩, v, hv, rfl⟩
    exact ⟨c, v, rfl, hc, hv⟩
  · rintro ⟨c, v, rfl, hc, hv⟩
    exact ⟨[c], ⟨c, rfl, hc⟩, v, hv, rfl⟩

end Shape

/-- The texts of a case, whatever their widths: letters of the case alone, and for camel cases a
letter that may stand first and any letters behind it. -/
def Case.admits : Case → List Char → Bool
  | .lower, cs => cs.all Char.isLower
  | .upper, cs => cs.all Char.isUpper
  | .lowerCamel, c :: cs => c.isLower && cs.all Char.isAlpha
  | .upperCamel, c :: cs => c.isUpper && cs.all Char.isAlpha
  | .lowerCamel, [] | .upperCamel, [] => false

theorem Case.length_pos_of_admits {c : Case} (hcamel : c.isCamel = true) {cs : List Char}
    (h : c.admits cs = true) : 0 < cs.length := by
  cases cs with
  | nil => cases c <;> simp [admits, isCamel] at h hcamel
  | cons d cs => exact Nat.succ_pos _

/-- The words of the shape of a case are the texts of the case that have as many letters as its
padding allows. -/
theorem Case.mem_language_shape {c : Case} {p : Padding} {w : List Char}
    (hp : Ordered (c.shape p).padding.bounds.1 (c.shape p).padding.bounds.2) :
    w ∈ (c.shape p).pattern.language ↔ c.admits w = true ∧
      if c.isCamel then p.behindFirst.Allows (w.length - 1) else p.Allows w.length := by
  cases c with
  | lower =>
    change Ordered p.bounds.1 p.bounds.2 at hp
    rw [shape, Shape.mem_language_nil hp]
    simp [admits, isCamel, CharClass.mem_lower]
  | upper =>
    change Ordered p.bounds.1 p.bounds.2 at hp
    rw [shape, Shape.mem_language_nil hp]
    simp [admits, isCamel, CharClass.mem_upper]
  | lowerCamel =>
    change Ordered p.behindFirst.bounds.1 p.behindFirst.bounds.2 at hp
    rw [shape, Shape.mem_language_cons]
    cases w with
    | nil => simp [admits]
    | cons d w =>
      simp [Shape.mem_language_nil hp, admits, isCamel, CharClass.mem_lower, CharClass.mem_letters,
        and_assoc]
  | upperCamel =>
    change Ordered p.behindFirst.bounds.1 p.behindFirst.bounds.2 at hp
    rw [shape, Shape.mem_language_cons]
    cases w with
    | nil => simp [admits]
    | cons d w =>
      simp [Shape.mem_language_nil hp, admits, isCamel, CharClass.mem_upper, CharClass.mem_letters,
        and_assoc]

namespace Token

variable {name s : String} {o : TokenOptions} {t : Token} {c : Case} {v : Value}

/-- A token of text reads a text that it matches as itself. -/
theorem parse_text (hkind : t.kind = .text) :
    t.parse s = .ok v ↔ t.matches? s = true ∧ v = .text s := by
  rw [parse_eq_ok_iff, readValue, hkind]
  exact and_congr_right fun _ => ⟨fun h => (Except.ok.inj h).symm, fun h => h ▸ rfl⟩

/-- A token with the expression of a shape matches the words of the shape. -/
theorem matches?_of_shape {sh : Shape} (hvalid : t.Valid) (htext : t.regex.toList = sh.text) :
    Ordered sh.padding.bounds.1 sh.padding.bounds.2 ∧
      ∀ s : String, t.matches? s = true ↔ s.toList ∈ sh.pattern.language := by
  have hordered := ordered_of_read htext hvalid
  exact ⟨hordered, t.matches?_iff hvalid (alone?_shape htext hordered).1 sh.isRegular_pattern⟩

/-- A token with the expression of choices matches the choices. -/
theorem matches?_of_choices {cs : List Value} (hvalid : t.Valid) (hcs : Kind.choices? o = some cs)
    (hregex : t.regex = Kind.choicesRegex cs) (s : String) :
    t.matches? s = true ↔ ∃ c ∈ cs, c.display = s := by
  have hne := Kind.choices?_ne_nil hcs
  have hread := (alone?_choices hne).1
  rw [← hregex] at hread
  rw [t.matches?_iff hvalid hread (isRegular_choice fun p hp => ?_),
    mem_language_choice (by simpa using hne)]
  · simp [mem_language_ofChars, String.toList_inj, eq_comm]
  · obtain ⟨c, -, rfl⟩ := List.mem_map.1 hp
    exact isRegular_ofChars _

/-- **The widths of text of a case.** A token of text that is held to a case, with a bound for its
width, reads the texts of the case whose widths are within the bounds, and no other text. Only for a
camel case without any bound but zeros it is not so: its expression loses the bounds, and it reads
all texts of the case that have two letters or more. -/
theorem parse_width_of_case (ht : ofOptions name .text o = .ok t) (hcase : o.letterCase = some c)
    (hgiven : o.padmin ≠ none ∨ o.padmax ≠ none) (s : String) :
    (¬ (c.isCamel = true ∧ o.BoundsZero) →
        ((∃ v, t.parse s = .ok v) ↔ c.admits s.toList = true ∧ o.AllowsWidth s.length)) ∧
      (c.isCamel = true ∧ o.BoundsZero →
        ((∃ v, t.parse s = .ok v) ↔ c.admits s.toList = true ∧ 2 ≤ s.length)) := by
  obtain ⟨hregex, -, -, hvalid, -, hkind⟩ := ofOptions_eq ht
  simp only [Kind.text, hcase] at hregex
  obtain ⟨p, hp, htext⟩ := toList_caseRegex hregex
  obtain ⟨hordered, hmatches⟩ := matches?_of_shape hvalid htext
  have hread : (∃ v, t.parse s = .ok v) ↔ s.toList ∈ (c.shape p).pattern.language := by
    simp [parse_text hkind, hmatches]
  rw [hread, Case.mem_language_shape hordered, ← String.length_toList]
  by_cases hcamel : c.isCamel = true
  · rw [if_pos hcamel]
    constructor
    · intro hbounds
      have hzero : ¬ o.BoundsZero := fun h => hbounds ⟨hcamel, h⟩
      refine and_congr_right fun hadmits => ?_
      rw [Padding.allows_behindFirst hp hzero,
        Nat.sub_add_cancel (Case.length_pos_of_admits hcamel hadmits)]
    · rintro ⟨-, hzero⟩
      refine and_congr_right fun hadmits => ?_
      have hpos := Case.length_pos_of_admits hcamel hadmits
      rw [Padding.behindFirst_of_boundsZero hp hzero, Padding.allows_none]
      omega
  · rw [if_neg hcamel]
    exact ⟨fun _ => and_congr_right fun _ => Padding.allows_iff hp hgiven,
      fun h => absurd h.1 hcamel⟩

/-- A word of three to five letters in lower camel case. -/
def camelWord : Token where
  name := "w"
  kind := .text
  regex := "[a-z][a-zA-Z]\x7b2,4\x7d"
  anchored := ⟨.concat [.check .textStart, .concat [.one (.range 'a' 'z'),
    .repeated (.one (.union (.range 'a' 'z') (.range 'A' 'Z'))) 2 (some 4) true],
      .check .textEnd], []⟩
  rule := .typed (some .text)
  description := "Must be a minimum 3-character lowerCamel case string"
  default := none

/-- A word in lower camel case of no letters at least. -/
def looseWord : Token where
  name := "w"
  kind := .text
  regex := "[a-z][a-zA-Z]+"
  anchored := ⟨.concat [.check .textStart, .concat [.one (.range 'a' 'z'),
    .repeated (.one (.union (.range 'a' 'z') (.range 'A' 'Z'))) 1 none true], .check .textEnd], []⟩
  rule := .typed (some .text)
  description := "Must be a minimum 0-character lowerCamel case string"
  default := none

theorem parse_width_of_case_camelWord :
    let o := { TokenOptions.ofKind "str" with
      letterCase := some .lowerCamel, padmin := some 3, padmax := some 5 }
    ofOptions "w" .text o = .ok camelWord ∧ o.letterCase = some .lowerCamel ∧
      (o.padmin ≠ none ∨ o.padmax ≠ none) ∧ ¬ (Case.lowerCamel.isCamel = true ∧ o.BoundsZero) ∧
      ((∃ v, camelWord.parse "aBc" = .ok v) ↔
        Case.lowerCamel.admits "aBc".toList = true ∧ o.AllowsWidth "aBc".length) := by
  intro o
  have hregex : Kind.text.regex "w" o = .ok camelWord.regex := by decide +kernel
  have hdescription : Kind.text.description o = camelWord.description := by decide +kernel
  have hrule : Kind.text.renderRule o = .ok camelWord.rule := rfl
  have ht : ofOptions "w" .text o = .ok camelWord := by
    simp only [ofOptions, hregex, hrule, hdescription]
    rfl
  have hbounds : ¬ (Case.lowerCamel.isCamel = true ∧ o.BoundsZero) := by decide
  exact ⟨ht, rfl, by decide, hbounds, (parse_width_of_case ht rfl (by decide) "aBc").1 hbounds⟩

/-- A camel case of no letters at least: the text of one letter, which is within the bounds, is
refused. -/
theorem parse_camelWord_of_zero :
    let o := { TokenOptions.ofKind "str" with letterCase := some .lowerCamel, padmin := some 0 }
    ofOptions "w" .text o = .ok looseWord ∧ o.AllowsWidth "a".length ∧
      Case.lowerCamel.admits "a".toList = true ∧
      looseWord.parse "a" = .error (.mismatch "w" "a") := by
  intro o
  have hdescription : Kind.text.description o = looseWord.description := by decide +kernel
  refine ⟨?_, by decide, by decide, by decide +kernel⟩
  simp only [ofOptions, hdescription]
  rfl

end Token

end Stencil
