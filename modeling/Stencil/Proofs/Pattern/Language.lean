import Mathlib.Computability.Language
import Stencil.Proofs.Pattern.Meaning

/-!
# The language of a pattern

A pattern made of characters alone stands for a set of words, its `language`. Such a pattern matches
where a word of the language stands (`matches_iff_language`), so that the ways from a spot are, for
either engine, those that lead over a word of the language: `within_ways` and `covers_ways` are the
two directions.
-/

namespace Stencil

/-! ## Words of a text -/

/-- A word stands in a text between two positions. -/
structure Spans (text : Array Char) (start stop : Nat) (w : List Char) : Prop where
  isPrefix : w <+: text.toList.drop start
  stop_eq : stop = start + w.length

namespace Spans

variable {text : Array Char} {a b c : Nat} {u v w : List Char}

theorem nil (text : Array Char) (a : Nat) : Spans text a a [] := ⟨List.nil_prefix, rfl⟩

theorem append (h : Spans text a b u) (h' : Spans text b c v) : Spans text a c (u ++ v) := by
  obtain ⟨⟨t, ht⟩, rfl⟩ := h
  obtain ⟨hv, rfl⟩ := h'
  refine ⟨?_, by simp [Nat.add_assoc]⟩
  rw [← List.drop_drop, ← ht, List.drop_left] at hv
  rw [← ht]
  exact (List.prefix_append_right_inj u).2 hv

theorem of_append (h : Spans text a c (u ++ v)) :
    Spans text a (a + u.length) u ∧ Spans text (a + u.length) c v := by
  obtain ⟨⟨t, ht⟩, rfl⟩ := h
  refine ⟨⟨⟨v ++ t, by rw [← ht, List.append_assoc]⟩, rfl⟩, ⟨t, ?_⟩, by simp [Nat.add_assoc]⟩
  rw [← List.drop_drop, ← ht, List.append_assoc, List.drop_left]

theorem singleton_iff {d : Char} : Spans text a (a + 1) [d] ↔ text[a]? = some d := by
  rw [← Array.getElem?_toList, ← List.head?_drop]
  constructor
  · rintro ⟨⟨t, ht⟩, -⟩
    rw [← ht]
    rfl
  · intro h
    obtain ⟨t, ht⟩ := List.head?_eq_some_iff.1 h
    exact ⟨⟨t, ht.symm⟩, rfl⟩

theorem cons_iff {d : Char} :
    Spans text a b (d :: w) ↔ text[a]? = some d ∧ Spans text (a + 1) b w := by
  rw [← singleton_iff]
  constructor
  · intro h
    exact of_append (u := [d]) h
  · rintro ⟨hd, hw⟩
    exact hd.append hw

theorem extract_eq (h : Spans text a b w) : (text.extract a b).toList = w := by
  obtain ⟨hw, rfl⟩ := h
  rw [Array.toList_extract, List.extract_eq_take_drop, Nat.add_sub_cancel_left]
  exact (List.prefix_iff_eq_take.1 hw).symm

theorem extract (hab : a ≤ b) (hb : b ≤ text.size) : Spans text a b (text.extract a b).toList := by
  rw [Array.toList_extract, List.extract_eq_take_drop]
  refine ⟨List.take_prefix _ _, ?_⟩
  rw [List.length_take, List.length_drop, Array.length_toList]
  omega

theorem unique (h : Spans text a b u) (h' : Spans text a b v) : u = v :=
  h.extract_eq.symm.trans h'.extract_eq

theorem le_size (h : Spans text a b w) (ha : a ≤ text.size) : b ≤ text.size := by
  have := h.isPrefix.length_le
  simp only [List.length_drop, Array.length_toList] at this
  have := h.stop_eq
  omega

/-- A word stands at the beginning of a text and ends with it if it is the whole of it. -/
theorem whole_iff : Spans text 0 text.size w ↔ w = text.toList := by
  constructor
  · intro h
    simpa using h.extract_eq.symm
  · rintro rfl
    exact ⟨List.prefix_refl _, by simp⟩

end Spans

namespace Pattern

/-! ## Languages -/

/-- Whether a pattern is made of characters alone: it looks at no position, asks for no text again
and never holds to its preferred way. -/
def isRegular : Pattern → Bool
  | empty | one _ => true
  | check _ | again _ | atomic _ => false
  | seq p q | alt p q => p.isRegular && q.isRegular
  | group _ p | repeated p _ _ _ => p.isRegular

/-- The words that a pattern made of characters alone stands for. -/
def language : Pattern → Language Char
  | empty => 1
  | one set => {w | ∃ c, w = [c] ∧ set.mem c = true}
  | check _ | again _ | atomic _ => 0
  | seq p q => p.language * q.language
  | alt p q => p.language + q.language
  | group _ p => p.language
  | repeated p min max _ => {w | ∃ n, (∀ m ∈ max, n ≤ m - min) ∧ w ∈ p.language ^ (min + n)}

theorem mem_language_repeated {p : Pattern} {min : Nat} {max : Option Nat}
    {greedy : Bool} {w : List Char} :
    w ∈ (repeated p min max greedy).language ↔
      ∃ n, (∀ m ∈ max, n ≤ m - min) ∧ w ∈ p.language ^ (min + n) := Iff.rfl

/-- Rounds over one set lead over as many of its characters. -/
theorem mem_language_one_pow {set : CharSet} {n : Nat} {w : List Char} :
    w ∈ (one set).language ^ n ↔ w.length = n ∧ ∀ c ∈ w, set.mem c = true := by
  induction n generalizing w with
  | zero =>
    rw [pow_zero, Language.mem_one, List.length_eq_zero_iff]
    refine ⟨?_, fun h => h.1⟩
    rintro rfl
    exact ⟨rfl, by simp⟩
  | succ n ih =>
    rw [pow_succ', Language.mem_mul]
    constructor
    · rintro ⟨u, ⟨c, rfl, hc⟩, v, hv, rfl⟩
      obtain ⟨hlen, hall⟩ := ih.1 hv
      refine ⟨by simp [hlen], fun d hd => ?_⟩
      rcases List.mem_cons.1 hd with rfl | hd
      · exact hc
      · exact hall d hd
    · rintro ⟨hlen, hall⟩
      obtain ⟨c, v, rfl⟩ := List.exists_cons_of_length_eq_add_one hlen
      refine ⟨[c], ⟨c, rfl, hall c (List.mem_cons_self ..)⟩, v, ih.2 ⟨Nat.succ.inj hlen, ?_⟩, rfl⟩
      exact fun d hd => hall d (List.mem_cons_of_mem _ hd)

theorem language_concat_cons (p : Pattern) (ps : List Pattern) :
    (concat (p :: ps)).language = p.language * (concat ps).language := by
  cases ps with
  | nil => exact (mul_one _).symm
  | cons q ps => rfl

theorem isRegular_concat {ps : List Pattern} (h : ∀ p ∈ ps, p.isRegular = true) :
    (concat ps).isRegular = true :=
  @concat_of_forall (·.isRegular = true) rfl (fun hp hq => Bool.and_eq_true_iff.2 ⟨hp, hq⟩) ps h

theorem isRegular_ofChars (cs : List Char) : (ofChars cs).isRegular = true := by
  refine isRegular_concat fun p hp => ?_
  obtain ⟨c, -, rfl⟩ := List.mem_map.1 hp
  rfl

/-- The pattern of a text stands for this alone. -/
theorem mem_language_ofChars {cs w : List Char} : w ∈ (ofChars cs).language ↔ w = cs := by
  rw [ofChars]
  induction cs generalizing w with
  | nil => exact Language.mem_one w
  | cons c cs ih =>
    rw [List.map_cons, language_concat_cons, Language.mem_mul]
    constructor
    · rintro ⟨u, ⟨d, rfl, hd⟩, v, hv, rfl⟩
      rw [CharSet.mem_single, decide_eq_true_eq] at hd
      rw [ih.1 hv, hd]
      rfl
    · rintro rfl
      exact ⟨[c], ⟨c, rfl, by simp⟩, cs, ih.2 rfl, rfl⟩

/-! ## Matching and the language -/

section Spans

variable {text : Array Char} {l m : Language Char} {i j : Nat}

theorem exists_spans_one : (∃ w ∈ (1 : Language Char), Spans text i j w) ↔ j = i := by
  constructor
  · rintro ⟨w, rfl, h⟩
    exact h.stop_eq
  · rintro rfl
    exact ⟨[], Language.nil_mem_one, .nil text j⟩

theorem exists_spans_mul :
    (∃ w ∈ l * m, Spans text i j w) ↔ ∃ k, (∃ u ∈ l, Spans text i k u) ∧
      ∃ v ∈ m, Spans text k j v := by
  constructor
  · rintro ⟨w, hw, h⟩
    obtain ⟨u, hu, v, hv, rfl⟩ := Language.mem_mul.1 hw
    exact ⟨_, ⟨u, hu, h.of_append.1⟩, v, hv, h.of_append.2⟩
  · rintro ⟨k, ⟨u, hu, hik⟩, v, hv, hkj⟩
    exact ⟨u ++ v, Language.append_mem_mul hu hv, hik.append hkj⟩

/-- Rounds over the words of a language lead over the words of its powers. -/
theorem inRounds_iff_pow {R : Nat → Nat → Prop} (h : ∀ i j, R i j ↔ ∃ w ∈ l, Spans text i j w)
    {n : Nat} : InRounds R n i j ↔ ∃ w ∈ l ^ n, Spans text i j w := by
  induction n generalizing i with
  | zero => rw [pow_zero, exists_spans_one, InRounds]
  | succ n ih => simp only [pow_succ', exists_spans_mul, InRounds, h, ih]

end Spans

theorem isPlain_of_isRegular {p : Pattern} (hp : p.isRegular = true) : p.isPlain = true := by
  induction p with
  | empty | one => rfl
  | seq p q ihp ihq | alt p q ihp ihq =>
    simp only [isRegular, Bool.and_eq_true] at hp
    simp only [isPlain, ihp hp.1, ihq hp.2, Bool.and_self]
  | group _ p ih | repeated p _ _ _ ih => exact ih hp
  | check | again | atomic => cases hp

/-- A pattern made of characters alone matches between two positions if a word of its language
stands there. -/
theorem matches_iff_language {text : Array Char} {p : Pattern}
    (hp : p.isRegular = true) (i j : Nat) :
    p.Matches text i j ↔ ∃ w ∈ p.language, Spans text i j w := by
  induction p generalizing i j with
  | empty => exact exists_spans_one.symm
  | one set =>
    constructor
    · rintro ⟨rfl, c, hc, hmem⟩
      exact ⟨[c], ⟨c, rfl, hmem⟩, Spans.singleton_iff.2 hc⟩
    · rintro ⟨w, ⟨c, rfl, hmem⟩, h⟩
      obtain rfl : j = i + 1 := h.stop_eq
      exact ⟨rfl, c, Spans.singleton_iff.1 h, hmem⟩
  | seq p q ihp ihq =>
    simp only [isRegular, Bool.and_eq_true] at hp
    simp only [Matches, language, exists_spans_mul, ihp hp.1, ihq hp.2]
  | alt p q ihp ihq =>
    simp only [isRegular, Bool.and_eq_true] at hp
    simp only [Matches, language, Language.mem_add, or_and_right, exists_or, ihp hp.1, ihq hp.2]
  | group _ p ih => exact ih hp i j
  | repeated p min max greedy ih =>
    simp only [Matches, mem_language_repeated, inRounds_iff_pow (ih hp)]
    constructor
    · rintro ⟨n, hn, w, hw, h⟩
      exact ⟨w, ⟨n, hn, hw⟩, h⟩
    · rintro ⟨w, ⟨n, hn, hw⟩, h⟩
      exact ⟨n, hn, w, hw, h⟩
  | check | again | atomic => cases hp

theorem matchesAll_iff_language {text : Array Char} {p : Pattern} (hp : p.isRegular = true) :
    p.MatchesAll text ↔ text.toList ∈ p.language := by
  rw [MatchesAll, matches_iff_language hp]
  constructor
  · rintro ⟨w, hw, h⟩
    exact Spans.whole_iff.1 h ▸ hw
  · intro hw
    exact ⟨_, hw, Spans.whole_iff.2 rfl⟩

/-! ## Ways and words -/

/-- The ways that a function gives lead over words of a language. -/
def Within (text : Array Char) (l : Language Char) (f : Spot → List Spot) : Prop :=
  ∀ s, ∀ e ∈ f s, ∃ w ∈ l, Spans text s.pos e.pos w

/-- There are ways over every word of a language. -/
def Covers (text : Array Char) (l : Language Char) (f : Spot → List Spot) : Prop :=
  ∀ w ∈ l, ∀ (s : Spot) (stop : Nat), Spans text s.pos stop w → ∃ e ∈ f s, e.pos = stop

/-- Every way of a pattern leads over a word of its language. -/
theorem within_ways (strict : Bool) (text : Array Char) {p : Pattern} (hp : p.isRegular = true) :
    Within text p.language (ways strict text p) := by
  intro s e he
  have hmatches := (leadsWhere_ways strict text (isPlain_of_isRegular hp) s e.pos).1 ⟨e, he, rfl⟩
  exact (matches_iff_language hp _ _).1 hmatches

/-- There is a way of a pattern over every word of its language. -/
theorem covers_ways (strict : Bool) (text : Array Char) {p : Pattern} (hp : p.isRegular = true) :
    Covers text p.language (ways strict text p) := by
  intro w hw s stop h
  have hmatches := (matches_iff_language hp s.pos stop).2 ⟨w, hw, h⟩
  exact (leadsWhere_ways strict text (isPlain_of_isRegular hp) s stop).2 hmatches

end Pattern

end Stencil
