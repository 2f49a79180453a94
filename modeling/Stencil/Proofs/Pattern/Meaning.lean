import Stencil.Proofs.Pattern.Ways

/-!
# What patterns mean

`Pattern.Matches` says between which positions of a text a pattern matches, part by part and without
any order of preference. A pattern that asks for no text again and holds to no preferred way
(`Pattern.isPlain`) has, for either engine, ways to just these positions (`leadsWhere_ways`).
-/

namespace Stencil.Pattern

/-! ## Meaning -/

/-- So many rounds lead from one position to another. -/
def InRounds (round : Nat → Nat → Prop) : (n : Nat) → Nat → Nat → Prop
  | 0, i, j => j = i
  | n + 1, i, j => ∃ k, round i k ∧ InRounds round n k j

/-- A pattern matches a text between two positions. Patterns that ask for a text again or hold to
their preferred way have no such meaning. -/
def Matches (text : Array Char) : Pattern → Nat → Nat → Prop
  | empty, i, j => j = i
  | one set, i, j => j = i + 1 ∧ ∃ c, text[i]? = some c ∧ set.mem c = true
  | check a, i, j => j = i ∧ (⟨i, []⟩ : Spot).satisfies text a = true
  | seq p q, i, j => ∃ k, p.Matches text i k ∧ q.Matches text k j
  | alt p q, i, j => p.Matches text i j ∨ q.Matches text i j
  | group _ p, i, j => p.Matches text i j
  | repeated p min max _, i, j =>
    ∃ n, (∀ m ∈ max, n ≤ m - min) ∧ InRounds (p.Matches text) (min + n) i j
  | again _, _, _ | atomic _, _, _ => False

/-- A pattern matches the whole of a text. -/
def MatchesAll (p : Pattern) (text : Array Char) : Prop := p.Matches text 0 text.size

/-- Whether a pattern asks for no text again and holds to no preferred way. -/
def isPlain : Pattern → Bool
  | empty | one _ | check _ => true
  | seq p q | alt p q => p.isPlain && q.isPlain
  | group _ p | repeated p _ _ _ => p.isPlain
  | again _ | atomic _ => false

theorem inRounds_add {round : Nat → Nat → Prop} {m n i j : Nat} :
    InRounds round (m + n) i j ↔ ∃ k, InRounds round m i k ∧ InRounds round n k j := by
  induction m generalizing i with
  | zero => simp [InRounds]
  | succ m ih =>
    rw [Nat.succ_add]
    simp only [InRounds, ih]
    constructor
    · rintro ⟨x, hx, k, hk, hn⟩
      exact ⟨k, ⟨x, hx, hk⟩, hn⟩
    · rintro ⟨k, ⟨x, hx, hk⟩, hn⟩
      exact ⟨x, hx, k, hk, hn⟩

/-! ## Ways lead where a pattern matches -/

/-- On from a spot, and not out of a text. -/
def Spot.Onward (text : Array Char) (s e : Spot) : Prop :=
  s.pos ≤ e.pos ∧ (e.pos ≤ text.size ∨ e.pos = s.pos)

theorem onward_ways (strict : Bool) (text : Array Char) (p : Pattern) :
    Along (Spot.Onward text) (ways strict text p) := by
  refine .ways (fun s => ⟨Nat.le_refl _, .inr rfl⟩) (fun {s x e} hsx hxe => ?_)
    (fun s hlt => ⟨Nat.le_succ _, .inl hlt⟩) (fun s _ => ⟨Nat.le_refl _, .inr rfl⟩)
    (fun s a b e he => ?_) strict p
  · unfold Spot.Onward at *
    omega
  · obtain ⟨rfl, hle⟩ := eq_of_mem_past? he
    exact ⟨Nat.le_add_right _ _, .inl hle⟩

/-- From each spot, a function leads to the positions that are related to its own. -/
def LeadsWhere (R : Nat → Nat → Prop) (f : Spot → List Spot) : Prop :=
  ∀ s j, (∃ e ∈ f s, e.pos = j) ↔ R s.pos j

namespace LeadsWhere

variable {text : Array Char} {R S : Nat → Nat → Prop} {f g : Spot → List Spot}
  {strict greedy : Bool}

theorem self : LeadsWhere (fun i j => j = i) fun s => [s] := by
  intro s j
  simp [eq_comm]

theorem flatMap (hf : LeadsWhere R f) (hg : LeadsWhere S g) :
    LeadsWhere (fun i j => ∃ k, R i k ∧ S k j) fun s => (f s).flatMap g := by
  intro s j
  constructor
  · rintro ⟨e, he, hj⟩
    obtain ⟨x, hx, he⟩ := List.mem_flatMap.1 he
    exact ⟨x.pos, (hf s _).1 ⟨x, hx, rfl⟩, (hg x j).1 ⟨e, he, hj⟩⟩
  · rintro ⟨k, hk, hj⟩
    obtain ⟨x, hx, rfl⟩ := (hf s k).2 hk
    obtain ⟨e, he, hpos⟩ := (hg x j).2 hj
    exact ⟨e, List.mem_flatMap.2 ⟨x, hx, he⟩, hpos⟩

theorem rounds (hf : LeadsWhere R f) (n : Nat) :
    LeadsWhere (InRounds R n) (Pattern.rounds f n) := by
  induction n with
  | zero => exact self
  | succ n ih => exact hf.flatMap ih

/-- What a loop goes over is a number of rounds. -/
theorem inRounds_of_mem_furtherRounds (hf : LeadsWhere R f) {fuel : Nat}
    {left : Option Nat} {s e : Spot} (he : e ∈ Pattern.furtherRounds strict greedy f fuel left s) :
    ∃ n, (∀ m ∈ left, n ≤ m) ∧ InRounds R n s.pos e.pos := by
  induction fuel generalizing left s with
  | zero =>
    obtain rfl := mem_furtherRounds_zero.1 he
    exact ⟨0, fun m _ => Nat.zero_le m, rfl⟩
  | succ fuel ih =>
    rcases mem_furtherRounds_succ.1 he with rfl | ⟨hleft, x, hx, he⟩
    · exact ⟨0, fun m _ => Nat.zero_le m, rfl⟩
    have hround : R s.pos x.pos := (hf s _).1 ⟨x, hx, rfl⟩
    have hone : ∀ m ∈ left, 1 ≤ m := fun m hm => Nat.pos_of_ne_zero fun h => hleft (h ▸ hm)
    unfold afterRound at he
    split at he
    · obtain ⟨n, hn, hrounds⟩ := ih he
      refine ⟨n + 1, fun m hm => ?_, x.pos, hround, hrounds⟩
      have hle := hn (m - 1) (by simp [Option.mem_def.1 hm])
      have hpos := hone m hm
      omega
    · split at he
      · cases he
      · obtain rfl := List.mem_singleton.1 he
        exact ⟨1, hone, e.pos, hround, rfl⟩

/-- A loop goes over any rounds, as long as limit and fuel last; a round that gets no further is
left out. -/
theorem exists_mem_furtherRounds (hon : Along (Spot.Onward text) f) (hf : LeadsWhere R f)
    {n fuel : Nat} {left : Option Nat} {s : Spot} {j : Nat}
    (hfuel : n < fuel ∨ text.size - s.pos < fuel) (hleft : ∀ m ∈ left, n ≤ m)
    (h : InRounds R n s.pos j) :
    ∃ e ∈ Pattern.furtherRounds strict greedy f fuel left s, e.pos = j := by
  induction n generalizing fuel left s with
  | zero =>
    obtain ⟨fuel, rfl⟩ : ∃ k, fuel = k + 1 := ⟨fuel - 1, by omega⟩
    exact ⟨s, mem_furtherRounds_succ.2 (.inl rfl), h.symm⟩
  | succ n ih =>
    obtain ⟨k, hk, hrounds⟩ := h
    obtain ⟨x, hx, rfl⟩ := (hf s k).2 hk
    obtain ⟨hle, hsize⟩ := hon s x hx
    by_cases hpos : x.pos = s.pos
    · rw [hpos] at hrounds
      exact ih (by omega) (fun m hm => Nat.le_of_succ_le (hleft m hm)) hrounds
    · obtain ⟨fuel, rfl⟩ : ∃ k, fuel = k + 1 := ⟨fuel - 1, by omega⟩
      have hzero : left ≠ some 0 := by
        rintro rfl
        exact Nat.not_succ_le_zero n (hleft 0 rfl)
      have hleft' : ∀ m ∈ left.map (· - 1), n ≤ m := by
        intro m hm
        obtain ⟨m', hm', rfl⟩ := Option.map_eq_some_iff.1 hm
        exact Nat.le_sub_one_of_lt (hleft m' hm')
      have hfuel' : n < fuel ∨ text.size - x.pos < fuel := by omega
      obtain ⟨e, he, hj⟩ := ih hfuel' hleft' hrounds
      refine ⟨e, mem_furtherRounds_succ.2 (.inr ⟨hzero, x, hx, ?_⟩), hj⟩
      rwa [afterRound, if_pos (.inl hpos)]

theorem furtherRounds (hon : Along (Spot.Onward text) f) (hf : LeadsWhere R f)
    (strict greedy : Bool) {fuel : Nat} {left : Option Nat}
    (hfuel : (∃ m ∈ left, m < fuel) ∨ text.size < fuel) :
    LeadsWhere (fun i j => ∃ n, (∀ m ∈ left, n ≤ m) ∧ InRounds R n i j)
      (Pattern.furtherRounds strict greedy f fuel left) := by
  intro s j
  constructor
  · rintro ⟨e, he, rfl⟩
    exact inRounds_of_mem_furtherRounds hf he
  · rintro ⟨n, hn, h⟩
    refine exists_mem_furtherRounds hon hf ?_ hn h
    rcases hfuel with ⟨m, hm, hlt⟩ | hlt
    · exact .inl (Nat.lt_of_le_of_lt (hn m hm) hlt)
    · exact .inr (Nat.lt_of_le_of_lt (Nat.sub_le ..) hlt)

end LeadsWhere

/-- The ways of a plain pattern lead where it matches. -/
theorem leadsWhere_ways (strict : Bool) (text : Array Char) {p : Pattern} (hp : p.isPlain = true) :
    LeadsWhere (p.Matches text) (ways strict text p) := by
  induction p with
  | empty => exact LeadsWhere.self
  | one set =>
    intro s j
    rw [Matches]
    cases hc : text[s.pos]? with
    | none => simp [ways, hc]
    | some c =>
      by_cases hmem : set.mem c = true <;> simp [ways, hc, hmem, Spot.advance, @eq_comm _ j]
  | check a =>
    intro s j
    have hspot : (⟨s.pos, []⟩ : Spot).satisfies text a = s.satisfies text a := rfl
    rw [Matches, hspot]
    by_cases ha : s.satisfies text a = true <;> simp [ways, ha, @eq_comm _ j]
  | seq p q ihp ihq =>
    simp only [isPlain, Bool.and_eq_true] at hp
    exact (ihp hp.1).flatMap (ihq hp.2)
  | alt p q ihp ihq =>
    simp only [isPlain, Bool.and_eq_true] at hp
    intro s j
    simp only [ways, List.mem_append, or_and_right, exists_or, ihp hp.1 s j, ihq hp.2 s j]
    exact Iff.rfl
  | group i p ih =>
    intro s j
    refine Iff.trans ?_ (ih hp (s.mark (2 * i)) j)
    constructor
    · rintro ⟨e, he, hj⟩
      obtain ⟨x, hx, rfl⟩ := List.mem_map.1 he
      exact ⟨x, hx, hj⟩
    · rintro ⟨x, hx, hj⟩
      exact ⟨_, List.mem_map.2 ⟨x, hx, rfl⟩, hj⟩
  | repeated p min max greedy ih =>
    have hfuel : (∃ m ∈ max.map (· - min), m < roundFuel strict text min max) ∨
        text.size < roundFuel strict text min max := by
      unfold roundFuel
      cases strict with
      | false => exact .inr (Nat.lt_succ_self _)
      | true =>
        cases max with
        | none => exact .inr (Nat.lt_add_of_pos_right Nat.two_pos)
        | some m => exact .inl ⟨m - min, rfl, Nat.lt_succ_self _⟩
    have hrounds := (ih hp).rounds min
    have hfurther := (ih hp).furtherRounds (onward_ways strict text p) strict greedy hfuel
    intro s j
    refine (hrounds.flatMap hfurther s j).trans ?_
    have hbound : ∀ n, (∀ m ∈ max.map (· - min), n ≤ m) ↔ ∀ m ∈ max, n ≤ m - min := by
      intro n
      cases max <;> simp
    simp only [Matches, hbound, inRounds_add]
    constructor
    · rintro ⟨k, hk, n, hn, hj⟩
      exact ⟨n, hn, k, hk, hj⟩
    · rintro ⟨n, hn, k, hk, hj⟩
      exact ⟨k, hk, n, hn, hj⟩
  | again => cases hp
  | atomic => cases hp

end Stencil.Pattern
