import Stencil.Proofs.Pattern.ListMatching

/-!
# Matching the beginning of a text

A pattern that looks nowhere ahead and holds to no preferred way (`Pattern.isLocal`) matches the
beginning of a text without regard to what stands behind: the ways in the shortened text are the
ways in the whole text that end within it (`shortens_ways`).
-/

namespace Stencil

/-- Whether a property is one of the text before the position alone. -/
def Assertion.looksBack : Assertion → Bool
  | textStart | lineStart false | wordStartHalf _ => true
  | _ => false

/-- Whether a property holds wherever a text ends. -/
def Assertion.isEnd : Assertion → Bool
  | textEnd | lineEnd _ => true
  | _ => false

theorem Assertion.holds_of_isEnd {a : Assertion} (ha : a.isEnd = true) (before : Option Char) :
    a.holds before none = true := by
  cases a with
  | textEnd => rfl
  | lineEnd returns => cases returns <;> rfl
  | _ => cases ha

namespace Pattern

/-- Whether a pattern matches by the text that it leads over and by what stands before it alone: it
looks nowhere ahead, and holds to no preferred way. -/
def isLocal : Pattern → Bool
  | empty | one _ | again _ => true
  | check a => a.looksBack
  | seq p q | alt p q => p.isLocal && q.isLocal
  | group _ p | repeated p _ _ _ => p.isLocal
  | atomic _ => false

end Pattern

/-! ## Spots -/

/-- Nothing is remembered of a spot that lies behind it. -/
def Spot.Tidy (s : Spot) : Prop := ∀ m ∈ s.marks, m.2 ≤ s.pos

namespace Spot

variable {s e : Spot} {text : Array Char} {n a b : Nat}

theorem Tidy.start (pos : Nat) : Tidy ⟨pos, []⟩ := fun _ hm => nomatch hm

theorem Tidy.mark (h : s.Tidy) (slot : Nat) : (s.mark slot).Tidy := by
  intro m hm
  rcases List.mem_cons.1 hm with rfl | hm
  · exact Nat.le_refl _
  · exact h m hm

theorem Tidy.advance (h : s.Tidy) (count : Nat) : (s.advance count).Tidy :=
  fun m hm => Nat.le_trans (h m hm) (Nat.le_add_right _ _)

theorem Tidy.group?_le (h : s.Tidy) {i : Nat} (hgroup : s.group? i = some (a, b)) :
    a ≤ s.pos ∧ b ≤ s.pos := by
  unfold group? at hgroup
  split at hgroup
  · next start stop hstart hstop =>
    cases hgroup
    obtain ⟨ms, ms', hmarks, -⟩ := List.lookup_eq_some_iff.1 hstart
    obtain ⟨ns, ns', hmarks', -⟩ := List.lookup_eq_some_iff.1 hstop
    exact ⟨h (2 * i, a) (by simp [hmarks]), h (2 * i + 1, b) (by simp [hmarks'])⟩
  · cases hgroup

/-! ## The shortened text -/

theorem size_extract_zero (hn : n ≤ text.size) : (text.extract 0 n).size = n := by
  rw [Array.size_extract, Nat.min_eq_left hn, Nat.sub_zero]

theorem getElem?_extract_zero (text : Array Char) (n i : Nat) :
    (text.extract 0 n)[i]? = if i < n then text[i]? else none := by
  rw [Array.getElem?_extract]
  by_cases hi : i < n
  · by_cases hsize : i < text.size
    · rw [if_pos (by omega), if_pos hi, Nat.zero_add]
    · rw [if_neg (by omega), if_pos hi, Array.getElem?_eq_none (by omega)]
  · rw [if_neg (by omega), if_neg hi]

theorem extract_extract_zero (text : Array Char) (h : b ≤ n) :
    (text.extract 0 n).extract a b = text.extract a b := by
  rw [Array.extract_extract, Nat.zero_add, Nat.zero_add, Nat.min_eq_left h]

/-- What stands before a position is the same in the shortened text. -/
theorem satisfies_extract {p : Assertion} (hp : p.looksBack = true) (hs : s.pos ≤ n) :
    s.satisfies (text.extract 0 n) p = s.satisfies text p := by
  have hbefore : s.before (text.extract 0 n) = s.before text := by
    unfold before
    split
    · rfl
    · rw [getElem?_extract_zero, if_pos (by omega)]
  unfold satisfies
  rw [hbefore]
  cases p with
  | textStart | wordStartHalf => rfl
  | lineStart returns =>
    cases returns with
    | false => rfl
    | true => cases hp
  | _ => cases hp

/-- The text of a group comes again in the shortened text if it ends there. -/
theorem past?_extract (hn : n ≤ text.size) (hb : b ≤ n) :
    s.past? (text.extract 0 n) a b = (s.past? text a b).filter (·.pos ≤ n) := by
  unfold past?
  simp only [size_extract_zero hn, extract_extract_zero text hb]
  by_cases hend : (s.advance (b - a)).pos ≤ n
  · rw [extract_extract_zero text hend]
    by_cases hsame : text.extract a b = text.extract s.pos (s.advance (b - a)).pos
    · rw [if_pos ⟨hend, hsame⟩, if_pos ⟨by omega, hsame⟩, Option.filter_some,
        if_pos (decide_eq_true hend)]
    · rw [if_neg fun h => hsame h.2, if_neg fun h => hsame h.2]
      rfl
  · rw [if_neg fun h => hend h.1]
    split
    · rw [Option.filter_some, if_neg fun h => hend (of_decide_eq_true h)]
    · rfl

end Spot

namespace Pattern

variable {text : Array Char} {n : Nat}

/-! ## The ways in the shortened text -/

/-- A function keeps spots tidy. -/
def KeepsTidy (f : Spot → List Spot) : Prop := Along (fun s e => s.Tidy → e.Tidy) f

namespace KeepsTidy

variable {f g : Spot → List Spot}

theorem self : KeepsTidy fun s => [s] := Along.self fun _ => id

theorem flatMap (hf : KeepsTidy f) (hg : KeepsTidy g) : KeepsTidy fun s => (f s).flatMap g :=
  Along.flatMap (fun hsx hxe hs => hxe (hsx hs)) hf hg

theorem rounds (hf : KeepsTidy f) (m : Nat) : KeepsTidy (Pattern.rounds f m) :=
  Along.rounds (fun _ => id) (fun hsx hxe hs => hxe (hsx hs)) hf m

theorem furtherRounds (hf : KeepsTidy f) (strict greedy : Bool) (fuel : Nat) (left : Option Nat) :
    KeepsTidy (Pattern.furtherRounds strict greedy f fuel left) :=
  Along.furtherRounds (fun _ => id) (fun hsx hxe hs => hxe (hsx hs)) hf strict greedy fuel left

end KeepsTidy

theorem keepsTidy_ways (strict : Bool) (text : Array Char) (p : Pattern) :
    KeepsTidy (ways strict text p) := by
  refine Along.ways (fun _ => id) (fun hsx hxe hs => hxe (hsx hs)) (fun s _ hs => hs.advance 1)
    (fun s slot hs => hs.mark slot) (fun s a b e he hs => ?_) strict p
  exact (eq_of_mem_past? he).1 ▸ hs.advance _

theorem flatMap_filter_eq {α β : Type} {P : α → Bool} {g h : α → List β} {l : List α}
    (hin : ∀ x ∈ l, P x = true → g x = h x) (hout : ∀ x ∈ l, P x = false → h x = []) :
    (l.filter P).flatMap g = l.flatMap h := by
  induction l with
  | nil => rfl
  | cons x l ih =>
    have hrest := ih (fun y hy => hin y (List.mem_cons_of_mem _ hy)) fun y hy =>
      hout y (List.mem_cons_of_mem _ hy)
    rw [List.flatMap_cons, ← hrest]
    cases hx : P x with
    | true => rw [List.filter_cons_of_pos hx, List.flatMap_cons, hin x (List.mem_cons_self ..) hx]
    | false =>
      rw [List.filter_cons_of_neg (by simp [hx]), hout x (List.mem_cons_self ..) hx,
        List.nil_append]

/-- The spots up to a position. -/
abbrev upTo (n : Nat) (ss : List Spot) : List Spot := ss.filter (·.pos ≤ n)

/-- The second function gives of the spots of the first those up to a position, from spots up to
there. -/
structure Shortens (text : Array Char) (n : Nat) (f f' : Spot → List Spot) : Prop where
  leadsOn : LeadsOn text f
  tidy : KeepsTidy f
  eq : ∀ ⦃s⦄, s.pos ≤ n → s.Tidy → f' s = upTo n (f s)

namespace Shortens

variable {f f' g g' : Spot → List Spot}

theorem self : Shortens text n (fun s => [s]) fun s => [s] :=
  ⟨LeadsOn.self, KeepsTidy.self, fun s hs _ => by simp [hs]⟩

/-- From behind the position nothing leads back. -/
theorem upTo_eq_nil (hf : LeadsOn text f) {s : Spot} (hsize : s.pos ≤ text.size) (hs : n < s.pos) :
    upTo n (f s) = [] := by
  refine List.filter_eq_nil_iff.2 fun e he => ?_
  have := (hf hsize e he).1
  simp only [decide_eq_true_eq]
  omega

theorem flatMap (hn : n ≤ text.size) (hf : Shortens text n f f') (hg : Shortens text n g g') :
    Shortens text n (fun s => (f s).flatMap g) fun s => (f' s).flatMap g' := by
  refine ⟨hf.leadsOn.flatMap hg.leadsOn, hf.tidy.flatMap hg.tidy, fun s hs htidy => ?_⟩
  have hsize : s.pos ≤ text.size := by omega
  rw [hf.eq hs htidy, upTo, upTo, List.filter_flatMap]
  refine flatMap_filter_eq (fun x hx hxn => ?_) fun x hx hxn => ?_
  · exact hg.eq (by simpa using hxn) (hf.tidy s x hx htidy)
  · exact upTo_eq_nil hg.leadsOn (hf.leadsOn hsize x hx).2 (by simpa using hxn)

theorem rounds (hn : n ≤ text.size) (hf : Shortens text n f f') (m : Nat) :
    Shortens text n (Pattern.rounds f m) (Pattern.rounds f' m) := by
  induction m with
  | zero => exact self
  | succ m ih => exact hf.flatMap hn ih

/-- The rounds of a loop, each with fuel for its text. -/
theorem furtherRounds_eq (hn : n ≤ text.size) (hf : Shortens text n f f')
    (greedy : Bool) {fuel fuel' : Nat} (left : Option Nat) {s : Spot} (hs : s.pos ≤ n)
    (htidy : s.Tidy) (hfuel : text.size < s.pos + fuel) (hfuel' : n < s.pos + fuel') :
    furtherRounds false greedy f' fuel' left s =
      upTo n (furtherRounds false greedy f fuel left s) := by
  induction fuel' generalizing fuel left s with
  | zero => omega
  | succ fuel' ih =>
    obtain ⟨fuel, rfl⟩ : ∃ k, fuel = k + 1 := ⟨fuel - 1, by omega⟩
    simp only [furtherRounds]
    by_cases hleft : left = some 0
    · simp [hleft, hs]
    have hsize : s.pos ≤ text.size := by omega
    have hmore :
        (f' s).flatMap (afterRound false left s
          (furtherRounds false greedy f' fuel' (left.map (· - 1)))) =
            upTo n ((f s).flatMap
              (afterRound false left s
                (furtherRounds false greedy f fuel (left.map (· - 1))))) := by
      rw [hf.eq hs htidy, upTo, upTo, List.filter_flatMap]
      refine flatMap_filter_eq (fun x hx hxn => ?_) fun x hx hxn => ?_
      · have hle := (hf.leadsOn hsize x hx).1
        simp only [decide_eq_true_eq] at hxn
        rw [afterRound_false, afterRound_false]
        by_cases hidle : x.pos = s.pos
        · simp [if_pos hidle, hxn]
        · rw [if_neg hidle, if_neg hidle]
          exact ih _ hxn (hf.tidy s x hx htidy) (by omega) (by omega)
      · simp only [decide_eq_false_iff_not, Nat.not_le] at hxn
        rw [afterRound_false, if_neg (by omega)]
        exact upTo_eq_nil (hf.leadsOn.furtherRounds ..) (hf.leadsOn hsize x hx).2 hxn
    rw [if_neg hleft, if_neg hleft, hmore]
    cases greedy <;> simp [hs]

end Shortens

/-- Without looking ahead, the ways in the shortened text are those that end within it. -/
theorem shortens_ways {p : Pattern} (hp : p.isLocal = true) (hn : n ≤ text.size) :
    Shortens text n (ways false text p) (ways false (text.extract 0 n) p) := by
  refine ⟨leadsOn_ways false text p, keepsTidy_ways false text p, ?_⟩
  induction p with
  | empty => exact (@Shortens.self text n).eq
  | one set =>
    intro s hs htidy
    simp only [ways, Spot.getElem?_extract_zero]
    by_cases hlt : s.pos < n
    · rw [if_pos hlt]
      cases text[s.pos]? with
      | none => rfl
      | some c => by_cases hc : set.mem c = true <;> simp [hc, Spot.advance, Nat.succ_le_iff.2 hlt]
    · rw [if_neg hlt]
      cases text[s.pos]? with
      | none => rfl
      | some c =>
        by_cases hc : set.mem c = true
        · have hbehind : n < (s.advance 1).pos := Nat.lt_succ_of_le (Nat.le_of_not_lt hlt)
          simp [hc, hbehind]
        · simp [hc]
  | check a =>
    intro s hs htidy
    simp only [ways, Spot.satisfies_extract hp hs]
    by_cases ha : s.satisfies text a = true <;> simp [ha, hs]
  | seq p q ihp ihq =>
    obtain ⟨hp, hq⟩ := Bool.and_eq_true_iff.1 hp
    have hfirst : Shortens text n (ways false text p) (ways false (text.extract 0 n) p) :=
      ⟨leadsOn_ways false text p, keepsTidy_ways false text p, ihp hp⟩
    exact (hfirst.flatMap hn ⟨leadsOn_ways false text q, keepsTidy_ways false text q, ihq hq⟩).eq
  | alt p q ihp ihq =>
    obtain ⟨hp, hq⟩ := Bool.and_eq_true_iff.1 hp
    intro s hs htidy
    simp only [ways, ihp hp hs htidy, ihq hq hs htidy, upTo, List.filter_append]
  | group index p ih =>
    intro s hs htidy
    simp only [ways, ih hp (s := s.mark (2 * index)) hs (htidy.mark _), upTo, List.filter_map]
    rfl
  | repeated p min max greedy ih =>
    have hround : Shortens text n (ways false text p) (ways false (text.extract 0 n) p) :=
      ⟨leadsOn_ways false text p, keepsTidy_ways false text p, ih hp⟩
    refine ((hround.rounds hn min).flatMap hn ⟨?_, ?_, fun s hs htidy => ?_⟩).eq
    · exact hround.leadsOn.furtherRounds ..
    · exact hround.tidy.furtherRounds false greedy _ _
    · refine hround.furtherRounds_eq hn greedy _ hs htidy ?_ ?_
      · simp only [roundFuel, Bool.false_eq_true, if_false]
        omega
      · simp only [roundFuel, Bool.false_eq_true, if_false, Spot.size_extract_zero hn]
        omega
  | again index =>
    intro s hs htidy
    simp only [ways]
    cases hgroup : s.group? index with
    | none => rfl
    | some g =>
      simp only [Option.bind_some,
        Spot.past?_extract hn (Nat.le_trans (htidy.group?_le hgroup).2 hs)]
      cases s.past? text g.1 g.2 with
      | none => rfl
      | some e => by_cases he : e.pos ≤ n <;> simp [he, Option.filter]
  | atomic p => cases hp

end Pattern

end Stencil
