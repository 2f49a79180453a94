import Stencil.Pattern.Composite
import Stencil.Proofs.Pattern.ListMatching

/-!
# Searching for anchored patterns

A pattern that can match at the beginning of a text alone is found there or nowhere: searching for
it gives the first of its ways from the beginning (`Anchored.search_eq`, `Anchored.backtrack_eq`,
`Anchored.searchComposite`). Between anchors a plain pattern is found where it matches the whole of
a text (`search_whole_iff`).
-/

namespace Stencil.Pattern

/-- Patterns one behind the other, as ways. -/
def waysAll (strict : Bool) (text : Array Char) : List Pattern → Spot → List Spot
  | [], s => [s]
  | p :: ps, s => (ways strict text p s).flatMap (waysAll strict text ps)

section

variable {strict : Bool} {text : Array Char}

theorem ways_choice {ps : List Pattern} (hne : ps ≠ []) (s : Spot) :
    ways strict text (choice ps) s = ps.flatMap fun p => ways strict text p s := by
  induction ps with
  | nil => exact absurd rfl hne
  | cons p ps ih =>
    cases ps with
    | nil => rw [choice, List.flatMap_singleton]
    | cons q ps =>
      have hchoice : ways strict text (choice (p :: q :: ps)) s =
        ways strict text p s ++ ways strict text (choice (q :: ps)) s := rfl
      rw [hchoice, ih (List.cons_ne_nil q ps)]
      rfl

theorem ways_concat (ps : List Pattern) (s : Spot) :
    ways strict text (concat ps) s = waysAll strict text ps s := by
  induction ps generalizing s with
  | nil => rfl
  | cons p ps ih =>
    cases ps with
    | nil => simp [concat, waysAll]
    | cons q ps =>
      have hrest : waysAll strict text (q :: ps) = ways strict text (concat (q :: ps)) :=
        funext fun x => (ih x).symm
      simp only [concat, ways, waysAll] at hrest ⊢
      rw [hrest]

theorem waysAll_append (ps qs : List Pattern) (s : Spot) :
    waysAll strict text (ps ++ qs) s =
      (waysAll strict text ps s).flatMap (waysAll strict text qs) := by
  induction ps generalizing s with
  | nil => simp [waysAll]
  | cons p ps ih =>
    simp only [List.cons_append, waysAll, List.flatMap_assoc]
    exact List.flatMap_congr fun x _ => ih x

/-- Between anchors, the ways are those over the whole text. -/
theorem ways_whole (ps : List Pattern) :
    ways strict text (.concat (.check .textStart :: (ps ++ [.check .textEnd]))) ⟨0, []⟩ =
      (waysAll strict text ps ⟨0, []⟩).filter fun e => e.pos = text.size := by
  have hstart : (⟨0, []⟩ : Spot).satisfies text .textStart = true := rfl
  have hend : ∀ x ∈ waysAll strict text ps ⟨0, []⟩, waysAll strict text [.check .textEnd] x =
      (Option.guard (fun e : Spot => e.pos = text.size) x).toList := by
    intro x hx
    have hsize : x.pos ≤ text.size := by
      rw [← ways_concat] at hx
      exact (leadsOn_ways strict text _ (Nat.zero_le _) x hx).2
    have hsatisfies : x.satisfies text .textEnd = true ↔ x.pos = text.size := by
      simp only [Spot.satisfies, Assertion.holds, Spot.behind, Option.isNone_iff_eq_none,
        Array.getElem?_eq_none_iff]
      omega
    by_cases hpos : x.pos = text.size <;> simp [waysAll, ways, hsatisfies, hpos, Option.guard]
  rw [ways_concat, waysAll, ways, if_pos hstart, List.flatMap_singleton, waysAll_append,
    List.flatMap_congr hend, ← List.filterMap_eq_flatMap_toList, List.filterMap_eq_filter]

/-- Between anchors, a way leads over a whole text. -/
theorem mem_ways_whole {ps : List Pattern} {e : Spot} :
    e ∈ ways strict text (.concat (.check .textStart :: (ps ++ [.check .textEnd]))) ⟨0, []⟩ ↔
      e ∈ waysAll strict text ps ⟨0, []⟩ ∧ e.pos = text.size := by
  rw [ways_whole, List.mem_filter, decide_eq_true_eq]

end

theorem needsBacktracking_concat {ps : List Pattern} (h : ∀ p ∈ ps, p.needsBacktracking = false) :
    (concat ps).needsBacktracking = false :=
  @concat_of_forall (·.needsBacktracking = false) rfl (fun hp hq => Bool.or_eq_false_iff.2 ⟨hp, hq⟩)
    ps h

/-- A pattern that asks for the text of no group can be matched by lists. -/
theorem asksAgain_of_needsBacktracking {p : Pattern} (h : p.needsBacktracking = false) :
    p.asksAgain = false := by
  induction p with
  | empty | one | check => rfl
  | seq p q ihp ihq | alt p q ihp ihq =>
    simp only [needsBacktracking, Bool.or_eq_false_iff] at h
    simp only [asksAgain, ihp h.1, ihq h.2, Bool.or_false]
  | group _ p ih | repeated p _ _ _ ih => exact ih h
  | again => cases h
  | atomic => cases h

theorem asksAgain_of_isPlain {p : Pattern} (h : p.isPlain = true) : p.asksAgain = false := by
  induction p with
  | empty | one | check => rfl
  | seq p q ihp ihq | alt p q ihp ihq =>
    simp only [isPlain, Bool.and_eq_true] at h
    simp only [asksAgain, ihp h.1, ihq h.2, Bool.or_false]
  | group _ p ih | repeated p _ _ _ ih => exact ih h
  | again => cases h
  | atomic => cases h

/-- Matching by lists tries the first way from each position. -/
theorem searchFrom_succ {p : Pattern} {text : Array Char} {start : Nat} (hp : p.asksAgain = false)
    (hstart : start ≤ text.size) (count : Nat) :
    searchFrom text p start (count + 1) = match (ways false text p ⟨start, []⟩).head? with
      | some s => some ⟨start, s⟩
      | none => searchFrom text p (start + 1) count := by
  have hrun : run text p [⟨start, []⟩] = firsts (ways false text p ⟨start, []⟩) := by
    rw [run_eq text hp (Distinct.singleton hstart), List.flatMap_singleton]
  rw [searchFrom, hrun, ← head?_firsts (ways false text p ⟨start, []⟩)]
  cases firsts (ways false text p ⟨start, []⟩) <;> rfl

/-- What is found ends where a way from its beginning does. -/
theorem searchFrom_found {p : Pattern} {text : Array Char} {start count : Nat} {f : Found}
    (hp : p.asksAgain = false) (hcount : start + count ≤ text.size + 1)
    (h : searchFrom text p start count = some f) :
    start ≤ f.start ∧ f.start ≤ text.size ∧ f.stop ∈ ways false text p ⟨f.start, []⟩ := by
  induction count generalizing start with
  | zero => cases h
  | succ count ih =>
    rw [searchFrom_succ hp (by omega)] at h
    split at h
    · next s hs =>
      cases h
      exact ⟨Nat.le_refl _, by simp only; omega, List.mem_of_mem_head? hs⟩
    · obtain ⟨hle, hfound⟩ := ih (by omega) h
      exact ⟨Nat.le_of_succ_le hle, hfound⟩

/-- What is found does not end behind the text. -/
theorem search_le {p : Pattern} {text : Array Char} {f : Found} (hp : p.asksAgain = false)
    (h : search text p = some f) : f.stop.pos ≤ text.size := by
  obtain ⟨-, hstart, hway⟩ := searchFrom_found hp (by omega) h
  exact (leadsOn_ways false text p hstart _ hway).2

/-- A pattern that matches nowhere but at the beginning of a text. -/
def Anchored (p : Pattern) : Prop :=
  ∀ strict text s, 0 < s.pos → s.pos ≤ text.size → ways strict text p s = []

theorem anchored_concat (ps : List Pattern) : Anchored (concat (.check .textStart :: ps)) := by
  intro strict text s hpos hsize
  have hfails : s.satisfies text .textStart = false := by
    have hlt : s.pos - 1 < text.size := by omega
    have hne : s.pos ≠ 0 := by omega
    simp [Spot.satisfies, Spot.before, Assertion.holds, hne, hlt]
  rw [ways_concat, waysAll, ways, hfails]
  rfl

namespace Anchored

variable {p : Pattern} {text : Array Char}

theorem searchFrom_eq (h : Anchored p) (hp : p.asksAgain = false)
    {start count : Nat} (hstart : 0 < start) (hcount : start + count ≤ text.size + 1) :
    searchFrom text p start count = none := by
  induction count generalizing start with
  | zero => rfl
  | succ count ih =>
    have hways : ways false text p ⟨start, []⟩ = [] :=
      h false text ⟨start, []⟩ hstart (by simp only; omega)
    rw [searchFrom_succ hp (by omega), hways]
    exact ih (by omega) (by omega)

/-- An anchored pattern is found by lists where the first of its ways from the beginning ends. -/
theorem search_eq (h : Anchored p) (hp : p.asksAgain = false) :
    search text p = (ways false text p ⟨0, []⟩).head?.map (⟨0, ·⟩) := by
  rw [search, searchFrom_succ hp (Nat.zero_le _)]
  cases (ways false text p ⟨0, []⟩).head? with
  | none => exact h.searchFrom_eq hp Nat.one_pos (by omega)
  | some s => rfl

theorem backtrackFrom_ne_found (h : Anchored p) {limits : Limits} {start positions count : Nat}
    (hstart : 0 < start) (hpositions : start + positions ≤ text.size + 1) (f : Found) :
    backtrackFrom limits text p start positions count ≠ .found f := by
  induction positions generalizing start count with
  | zero => simp [backtrackFrom]
  | succ positions ih =>
    rw [backtrackFrom]
    have hfollows := tryFrom_follows limits text p (fun e _ => .found e) ⟨start, []⟩ ⟨count, 1⟩
    rw [h true text ⟨start, []⟩ hstart (by simp; omega)] at hfollows
    rcases hfollows.head?_eq with ⟨why, heq⟩ | ⟨e, -, he⟩ | ⟨c, heq, -⟩
    · rw [heq]
      simp
    · cases he
    · rw [heq]
      simp only
      split
      · simp
      · split
        · simp
        · exact ih (by omega) (by omega)

/-- An anchored pattern is found by backtracking where the first of its ways from the beginning
ends, if the search is not given up. -/
theorem backtrack_eq (h : Anchored p) {limits : Limits} :
    (∃ why, backtrack limits text p = .givenUp why) ∨
      (∃ e, backtrack limits text p = .found ⟨0, e⟩ ∧ (ways true text p ⟨0, []⟩).head? = some e) ∨
      (backtrack limits text p = .none ∧ ways true text p ⟨0, []⟩ = []) := by
  have hfollows := tryFrom_follows limits text p (fun e _ => .found e) ⟨0, []⟩ ⟨0, 1⟩
  rw [backtrack, backtrackFrom]
  rcases hfollows.head?_eq with ⟨why, heq⟩ | ⟨e, heq, he⟩ | ⟨c, heq, he⟩
  · rw [heq]
    exact .inl ⟨why, rfl⟩
  · rw [heq]
    exact .inr (.inl ⟨e, rfl, he⟩)
  · rw [heq]
    simp only
    split
    · exact .inr (.inr ⟨rfl, he⟩)
    · split
      · exact .inl ⟨_, rfl⟩
      · cases hrest : backtrackFrom limits text p 1 text.size (c + 1) with
        | found f => exact absurd hrest (h.backtrackFrom_ne_found Nat.one_pos (by omega) f)
        | none => exact .inr (.inr ⟨rfl, he⟩)
        | givenUp why => exact .inl ⟨why, rfl⟩

/-- A search for an anchored composite expression finds the first of its ways from the beginning, in
the order of the engine that the expression needs, or is given up by that which takes back
choices. -/
theorem searchComposite_eq {e : Expression} (h : Anchored e.pattern) :
    (e.pattern.needsBacktracking = true ∧ ∃ why, e.searchComposite text = .givenUp why) ∨
      e.searchComposite text =
        match (ways e.pattern.needsBacktracking text e.pattern ⟨0, []⟩).head? with
        | some s => .found ⟨0, s⟩
        | none => .none := by
  unfold Expression.searchComposite
  by_cases hback : e.pattern.needsBacktracking = true
  · rw [if_pos hback, hback]
    rcases @backtrack_eq _ text h .standard with hsearch | ⟨s, hsearch, hs⟩ | ⟨hsearch, hnil⟩
    · exact .inl ⟨rfl, hsearch⟩
    · exact .inr (by rw [hsearch, hs])
    · exact .inr (by rw [hsearch, hnil]; rfl)
  · rw [if_neg hback, h.search_eq (asksAgain_of_needsBacktracking (by simpa using hback)),
      Bool.eq_false_iff.2 hback]
    cases (ways false text e.pattern ⟨0, []⟩).head? with
    | none => exact .inr rfl
    | some s => exact .inr rfl

/-- Where no choices are taken back, a search is never given up. -/
theorem searchComposite_plain {e : Expression} (h : Anchored e.pattern)
    (hback : e.pattern.needsBacktracking = false) :
    e.searchComposite text = match (ways false text e.pattern ⟨0, []⟩).head? with
      | some s => .found ⟨0, s⟩
      | none => .none := by
  rcases @searchComposite_eq text _ h with ⟨hneeds, -⟩ | hsearch
  · rw [hback] at hneeds
    cases hneeds
  · rwa [hback] at hsearch

/-- What a search for an anchored composite expression comes to. -/
theorem searchComposite {e : Expression} (h : Anchored e.pattern) :
    (∃ why, e.searchComposite text = .givenUp why) ∨ ∃ strict,
      (∃ s, e.searchComposite text = .found ⟨0, s⟩ ∧
        (ways strict text e.pattern ⟨0, []⟩).head? = some s) ∨
      (e.searchComposite text = .none ∧ ways strict text e.pattern ⟨0, []⟩ = []) := by
  refine (@searchComposite_eq text _ h).imp And.right fun hsearch =>
    ⟨e.pattern.needsBacktracking, ?_⟩
  rw [hsearch]
  cases ways e.pattern.needsBacktracking text e.pattern ⟨0, []⟩ with
  | nil => exact .inr ⟨rfl, rfl⟩
  | cons s ss => exact .inl ⟨s, rfl, rfl⟩

end Anchored

/-- Between anchors, a plain pattern is found where it matches the whole of a text. -/
theorem search_whole_iff {text : Array Char} {p : Pattern} (hp : p.isPlain = true) :
    (search text (concat [.check .textStart, p, .check .textEnd])).isSome ↔ p.MatchesAll text := by
  have hagain : (concat [.check .textStart, p, .check .textEnd]).asksAgain = false := by
    simp [concat, asksAgain, asksAgain_of_isPlain hp]
  have hone : waysAll false text [p] ⟨0, []⟩ = ways false text p ⟨0, []⟩ := (ways_concat [p] _).symm
  rw [(anchored_concat _).search_eq hagain, Option.isSome_map, List.isSome_head?, MatchesAll,
    ← leadsWhere_ways false text hp ⟨0, []⟩, ← hone]
  constructor
  · intro hne
    obtain ⟨e, he⟩ := List.exists_mem_of_ne_nil _ hne
    exact ⟨e, (@mem_ways_whole _ _ [p] _).1 he⟩
  · rintro ⟨e, he⟩
    exact List.ne_nil_of_mem ((@mem_ways_whole _ _ [p] _).2 he)

end Stencil.Pattern
