import Mathlib.Data.List.Basic
import Stencil.Proofs.Pattern.Ways

/-!
# Loops that get further

The engines differ in rounds of a loop that match no character. Where every round of every loop
takes a character (`loopsConsume`), they have the same ways in the same order
(`ways_eq_of_loopsConsume`).
-/

namespace Stencil.Pattern

/-- Whether a pattern takes a character in every way. -/
def consumes : Pattern → Bool
  | empty | check _ | again _ => false
  | one _ => true
  | seq p q => p.consumes || q.consumes
  | alt p q => p.consumes && q.consumes
  | group _ p | atomic p => p.consumes
  | repeated p min _ _ => 0 < min && p.consumes

/-- Whether every round of every loop takes a character. -/
def loopsConsume : Pattern → Bool
  | empty | one _ | check _ | again _ => true
  | seq p q | alt p q => p.loopsConsume && q.loopsConsume
  | group _ p | atomic p => p.loopsConsume
  | repeated p _ _ _ => p.consumes && p.loopsConsume

theorem loopsConsume_concat {ps : List Pattern} (h : ∀ p ∈ ps, p.loopsConsume = true) :
    (concat ps).loopsConsume = true :=
  @concat_of_forall (·.loopsConsume = true) rfl (fun hp hq => Bool.and_eq_true_iff.2 ⟨hp, hq⟩) ps h

theorem loopsConsume_choice {ps : List Pattern} (h : ∀ p ∈ ps, p.loopsConsume = true) :
    (choice ps).loopsConsume = true :=
  @choice_of_forall (·.loopsConsume = true) rfl (fun hp hq => Bool.and_eq_true_iff.2 ⟨hp, hq⟩) ps h

theorem loopsConsume_ofChars (cs : List Char) : (ofChars cs).loopsConsume = true := by
  refine loopsConsume_concat fun p hp => ?_
  obtain ⟨c, -, rfl⟩ := List.mem_map.1 hp
  rfl

variable {strict : Bool} {text : Array Char} {p : Pattern} {s e : Spot}

theorem lt_of_consumes (hp : p.consumes = true) (hs : s.pos ≤ text.size)
    (he : e ∈ ways strict text p s) : s.pos < e.pos := by
  induction p generalizing s e with
  | empty | check | again => cases hp
  | one set =>
    simp only [ways] at he
    split at he
    · split at he
      · obtain rfl := List.mem_singleton.1 he
        exact Nat.lt_succ_self _
      · cases he
    · cases he
  | seq p q ihp ihq =>
    simp only [consumes, Bool.or_eq_true] at hp
    obtain ⟨x, hx, he⟩ := List.mem_flatMap.1 he
    have hsx := leadsOn_ways strict text p hs x hx
    have hxe := leadsOn_ways strict text q hsx.2 e he
    rcases hp with hp | hq
    · exact Nat.lt_of_lt_of_le (ihp hp hs hx) hxe.1
    · exact Nat.lt_of_le_of_lt hsx.1 (ihq hq hsx.2 he)
  | alt p q ihp ihq =>
    simp only [consumes, Bool.and_eq_true] at hp
    exact (List.mem_append.1 he).elim (ihp hp.1 hs) (ihq hp.2 hs)
  | group index p ih =>
    obtain ⟨x, hx, rfl⟩ := List.mem_map.1 he
    exact ih (s := s.mark (2 * index)) (e := x) hp hs hx
  | repeated p min max greedy ih =>
    simp only [consumes, Bool.and_eq_true, decide_eq_true_eq] at hp
    obtain ⟨n, rfl⟩ := Nat.exists_eq_succ_of_ne_zero (Nat.ne_of_gt hp.1)
    have hround : LeadsOn text (ways strict text p) := leadsOn_ways strict text p
    obtain ⟨x, hx, he⟩ := List.mem_flatMap.1 he
    obtain ⟨y, hy, hx⟩ := List.mem_flatMap.1 hx
    have hsy := hround hs y hy
    have hyx := hround.rounds n hsy.2 x hx
    have hxe := hround.furtherRounds strict greedy _ _ hyx.2 e he
    exact Nat.lt_of_lt_of_le (ih hp.2 hs hy) (Nat.le_trans hyx.1 hxe.1)
  | atomic p ih => exact ih hp hs (List.mem_of_mem_take he)

section

variable {f g : Spot → List Spot}

theorem rounds_congr (hf : LeadsOn text f) (hfg : ∀ s, s.pos ≤ text.size → f s = g s) (n : Nat)
    (hs : s.pos ≤ text.size) : rounds f n s = rounds g n s := by
  induction n generalizing s with
  | zero => rfl
  | succ n ih =>
    rw [rounds, rounds, ← hfg s hs]
    exact List.flatMap_congr fun x hx => ih (hf hs x hx).2

/-- There is fuel for as many rounds as the text or the limit leaves room for, if every round gets
further. -/
def Fuelled (text : Array Char) (s : Spot) (fuel : Nat) (left : Option Nat) : Prop :=
  text.size - s.pos < fuel ∨ ∃ m ∈ left, m < fuel

/-- Where every round gets further, further rounds depend neither on the engine nor on fuel that is
left. -/
theorem furtherRounds_congr (hf : LeadsOn text f) (hfg : ∀ s, s.pos ≤ text.size → f s = g s)
    (hfurther : ∀ s, s.pos ≤ text.size → ∀ e ∈ f s, s.pos < e.pos) {strict' greedy : Bool}
    {fuel fuel' : Nat} {left : Option Nat} (hs : s.pos ≤ text.size)
    (hfuel : Fuelled text s fuel left) (hfuel' : Fuelled text s fuel' left) :
    furtherRounds strict greedy f fuel left s = furtherRounds strict' greedy g fuel' left s := by
  induction fuel generalizing fuel' left s with
  | zero => obtain h | ⟨m, -, h⟩ := hfuel <;> cases h
  | succ fuel ih =>
    cases fuel' with
    | zero => obtain h | ⟨m, -, h⟩ := hfuel' <;> cases h
    | succ fuel' =>
      have hnext : ∀ {n : Nat}, Fuelled text s (n + 1) left → left ≠ some 0 → ∀ e ∈ f s,
          Fuelled text e n (left.map (· - 1)) := fun {n} h hleft e he => by
        have hlt := hfurther s hs e he
        have hsize := (hf hs e he).2
        obtain h | ⟨m, hm, h⟩ := h
        · exact .inl (by omega)
        · have hpos : m ≠ 0 := fun h0 => hleft (h0 ▸ hm)
          exact .inr ⟨m - 1, by simp [Option.mem_def.1 hm], by omega⟩
      rw [furtherRounds, furtherRounds]
      split
      · rfl
      · next hleft =>
        have hmore :
            (f s).flatMap (afterRound strict left s
              (furtherRounds strict greedy f fuel (left.map (· - 1)))) =
                (g s).flatMap
                  (afterRound strict' left s
                    (furtherRounds strict' greedy g fuel' (left.map (· - 1)))) := by
          rw [← hfg s hs]
          refine List.flatMap_congr fun e he => ?_
          have hne : e.pos ≠ s.pos := Nat.ne_of_gt (hfurther s hs e he)
          rw [afterRound, afterRound, if_pos (.inl hne), if_pos (.inl hne)]
          exact ih (hf hs e he).2 (hnext hfuel hleft e he) (hnext hfuel' hleft e he)
        simp only [hmore]

end

/-- Both engines have the same ways of a pattern whose loops take characters. -/
theorem ways_eq_of_loopsConsume (hp : p.loopsConsume = true) (hs : s.pos ≤ text.size) :
    ways true text p s = ways false text p s := by
  induction p generalizing s with
  | empty | one | check | again => rfl
  | seq p q ihp ihq =>
    simp only [loopsConsume, Bool.and_eq_true] at hp
    rw [ways, ways, ← ihp hp.1 hs]
    exact List.flatMap_congr fun x hx => ihq hp.2 (leadsOn_ways true text p hs x hx).2
  | alt p q ihp ihq =>
    simp only [loopsConsume, Bool.and_eq_true] at hp
    rw [ways, ways, ihp hp.1 hs, ihq hp.2 hs]
  | group index p ih => rw [ways, ways, ih hp (s := s.mark (2 * index)) hs]
  | atomic p ih => rw [ways, ways, ih hp hs]
  | repeated p min max greedy ih =>
    simp only [loopsConsume, Bool.and_eq_true] at hp
    have hround : LeadsOn text (ways true text p) := leadsOn_ways true text p
    have hsame : ∀ s : Spot, s.pos ≤ text.size →
        ways true text p s = ways false text p s := fun s => ih hp.2
    have hfurther : ∀ s : Spot, s.pos ≤ text.size → ∀ e ∈ ways true text p s, s.pos < e.pos :=
      fun s hs e => lt_of_consumes hp.1 hs
    rw [ways, ways, ← rounds_congr hround hsame min hs]
    refine List.flatMap_congr fun x hx => ?_
    have hx := (hround.rounds min hs x hx).2
    refine furtherRounds_congr hround hsame hfurther hx ?_ (.inl ?_)
    · cases max with
      | none => exact .inl (by simp only [roundFuel, if_true]; omega)
      | some m => exact .inr ⟨m - min, rfl, by simp only [roundFuel, if_true]; omega⟩
    · simp only [roundFuel, Bool.false_eq_true, if_false]
      omega

end Stencil.Pattern
