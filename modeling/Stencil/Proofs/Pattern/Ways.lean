import Stencil.Pattern.Backtrack

/-!
# The ways of a pattern

`ways` lists the spots at which a pattern can end that is tried from a spot, the preferred ones
first and each as often as there are ways to reach it. It is what both engines compute in part:
matching by lists keeps the first way to each position (`run_eq`), and backtracking takes the first
way from which it can go on (`tryFrom_follows`).

The engines differ in rounds of a loop that get no further. Matching by lists ends the loop there;
backtracking, which is called strict here, refuses such a round where there is no limit, and goes on
like after any other round where there is one.
-/

namespace Stencil.Pattern

/-! ## Ways -/

/-- A number of rounds, one behind the other. -/
def rounds (round : Spot → List Spot) : Nat → Spot → List Spot
  | 0, s => [s]
  | n + 1, s => (round s).flatMap (rounds round n)

/-- How a loop goes on from the end `e` of a round that was made from `s`. -/
def afterRound (strict : Bool) (left : Option Nat) (s : Spot)
    (onward : Spot → List Spot) (e : Spot) : List Spot :=
  if e.pos ≠ s.pos ∨ (strict ∧ left ≠ none) then onward e else if strict then [] else [e]

/-- Further rounds, of which `left` are allowed. -/
def furtherRounds (strict greedy : Bool) (round : Spot → List Spot) :
    (fuel : Nat) → (left : Option Nat) → Spot → List Spot
  | 0, _, s => [s]
  | fuel + 1, left, s =>
    if left = some 0 then [s]
    else
      let more := (round s).flatMap
        (afterRound strict left s (furtherRounds strict greedy round fuel (left.map (· - 1))))
      if greedy then more ++ [s] else s :: more

/-- The fuel of further rounds in either engine. -/
def roundFuel (strict : Bool) (text : Array Char) (min : Nat) (max : Option Nat) : Nat :=
  if strict then match max with | some m => m - min + 1 | none => text.size + 2 else text.size + 1

/-- Where a pattern can end that is tried from a spot, in the order of preference. -/
def ways (strict : Bool) (text : Array Char) : Pattern → Spot → List Spot
  | empty, s => [s]
  | one set, s =>
    match text[s.pos]? with
    | some c => if set.mem c then [s.advance 1] else []
    | none => []
  | check a, s => if s.satisfies text a then [s] else []
  | seq p q, s => (ways strict text p s).flatMap (ways strict text q)
  | alt p q, s => ways strict text p s ++ ways strict text q s
  | group index p, s => (ways strict text p (s.mark (2 * index))).map (·.mark (2 * index + 1))
  | repeated p min max greedy, s =>
    (rounds (ways strict text p) min s).flatMap
      (furtherRounds strict greedy (ways strict text p) (roundFuel strict text min max)
        (max.map (· - min)))
  | again index, s => ((s.group? index).bind fun g => s.past? text g.1 g.2).toList
  | atomic p, s => (ways strict text p s).take 1

theorem mem_furtherRounds_zero {strict greedy : Bool} {round : Spot → List Spot} {left : Option Nat}
    {s e : Spot} : e ∈ furtherRounds strict greedy round 0 left s ↔ e = s := List.mem_singleton

theorem mem_furtherRounds_succ {strict greedy : Bool} {round : Spot → List Spot} {fuel : Nat}
    {left : Option Nat} {s e : Spot} :
    e ∈ furtherRounds strict greedy round (fuel + 1) left s ↔
      e = s ∨ (left ≠ some 0 ∧ ∃ x ∈ round s,
        e ∈ afterRound strict left s (furtherRounds strict greedy round fuel (left.map (· - 1)))
          x) := by
  simp only [furtherRounds]
  by_cases h : left = some 0
  · simp [h]
  · cases greedy
    · simp [h]
    · simp [h, or_comm]

/-! ## Where ways lead -/

/-- A function leads from every spot to spots that are related to it. -/
def Along (R : Spot → Spot → Prop) (f : Spot → List Spot) : Prop := ∀ s, ∀ e ∈ f s, R s e

namespace Along

variable {R : Spot → Spot → Prop} {text : Array Char} {f g : Spot → List Spot}

theorem self
    (refl : ∀ s, R s s) : Along R fun s => [s] := fun s _ he => List.mem_singleton.1 he ▸ refl s

theorem flatMap (trans : ∀ {s x e}, R s x → R x e → R s e) (hf : Along R f) (hg : Along R g) :
    Along R fun s => (f s).flatMap g := by
  intro s e he
  obtain ⟨x, hx, he⟩ := List.mem_flatMap.1 he
  exact trans (hf s x hx) (hg x e he)

theorem rounds (refl : ∀ s, R s s) (trans : ∀ {s x e}, R s x → R x e → R s e)
    (hf : Along R f) (n : Nat) : Along R (Pattern.rounds f n) := by
  induction n with
  | zero => exact self refl
  | succ n ih => exact hf.flatMap trans ih

theorem furtherRounds (refl : ∀ s, R s s) (trans : ∀ {s x e}, R s x → R x e → R s e)
    (hf : Along R f) (strict greedy : Bool) (fuel : Nat) (left : Option Nat) :
    Along R (Pattern.furtherRounds strict greedy f fuel left) := by
  induction fuel generalizing left with
  | zero => exact self refl
  | succ fuel ih =>
    intro s e he
    rcases mem_furtherRounds_succ.1 he with rfl | ⟨-, x, hx, he⟩
    · exact refl e
    · unfold afterRound at he
      split at he
      · exact trans (hf s x hx) (ih _ x e he)
      · split at he
        · cases he
        · obtain rfl := List.mem_singleton.1 he
          exact hf s e hx

/-- What holds along each step that a pattern can make holds along its ways. -/
theorem ways (refl : ∀ s, R s s) (trans : ∀ {s x e}, R s x → R x e → R s e)
    (one : ∀ s : Spot, s.pos < text.size → R s (s.advance 1))
    (mark : ∀ (s : Spot) slot, R s (s.mark slot))
    (past : ∀ (s : Spot) a b, ∀ e ∈ s.past? text a b, R s e) (strict : Bool) (p : Pattern) :
    Along R (Pattern.ways strict text p) := by
  induction p with
  | empty => exact self refl
  | one set =>
    intro s e he
    simp only [Pattern.ways] at he
    split at he
    · next c hc =>
      split at he
      · obtain rfl := List.mem_singleton.1 he
        exact one s (Array.getElem?_eq_some_iff.1 hc).1
      · cases he
    · cases he
  | check a =>
    intro s e he
    simp only [Pattern.ways] at he
    split at he
    · exact self refl s e he
    · cases he
  | seq p q ihp ihq => exact ihp.flatMap trans ihq
  | alt p q ihp ihq => exact fun s e he => (List.mem_append.1 he).elim (ihp s e) (ihq s e)
  | group index p ih =>
    intro s e he
    obtain ⟨x, hx, rfl⟩ := List.mem_map.1 he
    exact trans (trans (mark s _) (ih _ x hx)) (mark x _)
  | repeated p min max greedy ih =>
    exact (ih.rounds refl trans min).flatMap trans (ih.furtherRounds refl trans strict greedy _ _)
  | again index =>
    intro s e he
    obtain ⟨g, -, hg⟩ := Option.bind_eq_some_iff.1 (Option.mem_toList.1 he)
    exact past s g.1 g.2 e hg
  | atomic p ih => exact fun s e he => ih s e (List.mem_of_mem_take he)

end Along

theorem eq_of_mem_past? {text : Array Char} {s e : Spot} {a b : Nat} (h : e ∈ s.past? text a b) :
    e = s.advance (b - a) ∧ e.pos ≤ text.size := by
  simp only [Spot.past?, Option.mem_def] at h
  split at h
  · next hle =>
    cases h
    exact ⟨rfl, hle.1⟩
  · cases h

/-- A function leads on in a text: from a position of the text to no earlier one of it. -/
def LeadsOn (text : Array Char) (f : Spot → List Spot) : Prop :=
  ∀ ⦃s⦄, s.pos ≤ text.size → ∀ e ∈ f s, s.pos ≤ e.pos ∧ e.pos ≤ text.size

/-- From a spot in a text on to a spot in it. -/
def Spot.LeadsTo (text : Array Char) (s e : Spot) : Prop :=
  s.pos ≤ text.size → s.pos ≤ e.pos ∧ e.pos ≤ text.size

namespace LeadsOn

variable {text : Array Char} {f g : Spot → List Spot}

theorem refl (s : Spot) : Spot.LeadsTo text s s := fun hs => ⟨Nat.le_refl _, hs⟩

theorem trans {s x e : Spot} (hsx : Spot.LeadsTo text s x) (hxe : Spot.LeadsTo text x e) :
    Spot.LeadsTo text s e := by
  intro hs
  obtain ⟨hle, hx⟩ := hsx hs
  obtain ⟨hle', he⟩ := hxe hx
  exact ⟨Nat.le_trans hle hle', he⟩

theorem along_iff : LeadsOn text f ↔ Along (Spot.LeadsTo text) f :=
  ⟨fun h _ e he hs => h hs e he, fun h s hs e he => h s e he hs⟩

theorem self : LeadsOn text fun s => [s] := along_iff.2 (.self refl)

theorem flatMap (hf : LeadsOn text f) (hg : LeadsOn text g) :
    LeadsOn text fun s => (f s).flatMap g :=
  along_iff.2 ((along_iff.1 hf).flatMap trans (along_iff.1 hg))

theorem rounds (hf : LeadsOn text f) (n : Nat) : LeadsOn text (Pattern.rounds f n) :=
  along_iff.2 ((along_iff.1 hf).rounds refl trans n)

theorem furtherRounds (hf : LeadsOn text f) (strict greedy : Bool)
    (fuel : Nat) (left : Option Nat) :
    LeadsOn text (Pattern.furtherRounds strict greedy f fuel left) :=
  along_iff.2 ((along_iff.1 hf).furtherRounds refl trans strict greedy fuel left)

end LeadsOn

theorem leadsOn_ways (strict : Bool) (text : Array Char) (p : Pattern) :
    LeadsOn text (ways strict text p) := by
  refine LeadsOn.along_iff.2 (.ways LeadsOn.refl LeadsOn.trans (fun s hlt _ => ⟨Nat.le_succ _, hlt⟩)
    (fun s _ hs => ⟨Nat.le_refl _, hs⟩) (fun s a b e he _ => ?_) strict p)
  obtain ⟨rfl, hle⟩ := eq_of_mem_past? he
  exact ⟨Nat.le_add_right _ _, hle⟩

/-! ## Positions alone -/

/-- From spots of one position, two functions give spots of the same positions. -/
def Alike (f g : Spot → List Spot) : Prop :=
  ∀ ⦃s t : Spot⦄, s.pos = t.pos → (f s).map Spot.pos = (g t).map Spot.pos

namespace Alike

variable {f f' g g' : Spot → List Spot}

theorem self : Alike (fun s => [s]) fun s => [s] := fun s t h => by simp [h]

theorem flatMap (hf : Alike f f') (hg : Alike g g') :
    Alike (fun s => (f s).flatMap g) fun s => (f' s).flatMap g' := by
  intro s t h
  have key : ∀ {xs ys : List Spot}, xs.map Spot.pos = ys.map Spot.pos →
      (xs.flatMap g).map Spot.pos = (ys.flatMap g').map Spot.pos := by
    intro xs
    induction xs with
    | nil => intro ys h; cases ys <;> simp_all
    | cons x xs ih =>
      intro ys h
      cases ys with
      | nil => simp at h
      | cons y ys =>
        simp only [List.map_cons, List.cons.injEq] at h
        simp only [List.flatMap_cons, List.map_append, hg h.1, ih h.2]
  exact key (hf h)

theorem rounds (hf : Alike f f') (n : Nat) : Alike (Pattern.rounds f n) (Pattern.rounds f' n) := by
  induction n with
  | zero => exact self
  | succ n ih => exact hf.flatMap ih

theorem afterRound (hf : Alike f f') (strict : Bool) (left : Option Nat)
    {s t : Spot} (h : s.pos = t.pos) :
    Alike (Pattern.afterRound strict left s f) (Pattern.afterRound strict left t f') := by
  intro x y hxy
  simp only [Pattern.afterRound, h, hxy]
  split
  · exact hf hxy
  · split <;> simp [hxy]

theorem furtherRounds (hf : Alike f f') (strict greedy : Bool) (fuel : Nat) (left : Option Nat) :
    Alike (Pattern.furtherRounds strict greedy f fuel left)
      (Pattern.furtherRounds strict greedy f' fuel left) := by
  induction fuel generalizing left with
  | zero => exact self
  | succ fuel ih =>
    intro s t h
    have more := hf.flatMap ((ih (left.map (· - 1))).afterRound strict left h) h
    simp only [Pattern.furtherRounds]
    split
    · simp [h]
    · split
      · rw [List.map_append, List.map_append, more]
        simp [h]
      · rw [List.map_cons, List.map_cons, more, h]

theorem exists_pos (hf : Alike f f') {s t : Spot} (h : s.pos = t.pos) {n : Nat}
    (hn : ∃ e ∈ f s, e.pos = n) : ∃ e ∈ f' t, e.pos = n := by
  have : n ∈ (f s).map Spot.pos := by simpa using hn
  rw [hf h] at this
  simpa using this

end Alike

/-- The positions that a function gives depend on the position it is given. -/
abbrev Positional (f : Spot → List Spot) : Prop := Alike f f

/-! ## Backtracking takes the first way on -/

/-- Going on from a spot comes to nothing, after some effort. -/
def Next.Fails (k : Next) (s : Spot) : Prop := ∃ w c, k s w = .failed c

/-- An attempt follows ways if it has gone on from the first of them that does not fail. -/
def Attempt.Follows (k : Next) (ws : List Spot) : Attempt → Prop
  | .found f => ∃ pre s post w, ws = pre ++ s :: post ∧ (∀ x ∈ pre, k.Fails x) ∧ k s w = .found f
  | .failed _ => ∀ x ∈ ws, k.Fails x
  | .givenUp _ => True

namespace Attempt

theorem follows_singleton (k : Next) (s : Spot) (w : Effort) : (k s w).Follows k [s] := by
  cases h : k s w with
  | found f => exact ⟨[], s, [], w, rfl, by simp, h⟩
  | failed c => simpa [Follows] using ⟨w, c, h⟩
  | givenUp => trivial

theorem follows_nil (k : Next) (c : Nat) : (failed c).Follows k [] := by simp [Follows]

theorem Follows.orElse {k : Next} {vs ws : List Spot} {a : Attempt}
    {b : Nat → Attempt} (limit : Nat) (ha : a.Follows k vs) (hb : ∀ c, (b c).Follows k ws) :
    (a.orElse limit b).Follows k (vs ++ ws) := by
  cases a with
  | found f =>
    obtain ⟨pre, s, post, c, rfl, hpre, hs⟩ := ha
    exact ⟨pre, s, post ++ ws, c, by simp, hpre, hs⟩
  | givenUp => trivial
  | failed c =>
    simp only [Attempt.orElse]
    split
    · trivial
    · have hc := hb (c + 1)
      cases hbc : b (c + 1) with
      | found f =>
        obtain ⟨pre, s, post, c', rfl, hpre, hs⟩ := hbc ▸ hc
        refine ⟨vs ++ pre, s, post, c', by simp, fun x hx => ?_, hs⟩
        exact (List.mem_append.1 hx).elim (ha x) (hpre x)
      | failed c' =>
        rw [hbc] at hc
        exact fun x hx => (List.mem_append.1 hx).elim (ha x) (hc x)
      | givenUp => trivial

theorem Follows.flatMap {k k' : Next} {ws : List Spot} {a : Attempt} {f : Spot → List Spot}
    (ha : a.Follows k' ws) (hf : ∀ x w, (k' x w).Follows k (f x)) : a.Follows k (ws.flatMap f) := by
  have fails : ∀ x, k'.Fails x → ∀ y ∈ f x, k.Fails y := by
    rintro x ⟨w, c, h⟩ y hy
    have := hf x w
    rw [h] at this
    exact this y hy
  cases a with
  | found g =>
    obtain ⟨pre, s, post, c, rfl, hpre, hs⟩ := ha
    have := hf s c
    rw [hs] at this
    obtain ⟨pre', s', post', c', hs', hpre', hg⟩ := this
    refine ⟨pre.flatMap f ++ pre', s', post' ++ post.flatMap f, c',
      by simp [hs'], fun x hx => ?_, hg⟩
    rcases List.mem_append.1 hx with hx | hx
    · obtain ⟨y, hy, hxy⟩ := List.mem_flatMap.1 hx
      exact fails y (hpre y hy) x hxy
    · exact hpre' x hx
  | failed c =>
    intro x hx
    obtain ⟨y, hy, hxy⟩ := List.mem_flatMap.1 hx
    exact fails y (ha y hy) x hxy
  | givenUp => trivial

theorem Follows.map {k : Next} {ws : List Spot} {a : Attempt} {g : Spot → Spot}
    (ha : a.Follows (fun e w => k (g e) w) ws) : a.Follows k (ws.map g) := by
  rw [List.map_eq_flatMap]
  exact ha.flatMap fun x w => follows_singleton k (g x) w

/-- An attempt that goes on from wherever it gets has gone the first way. -/
theorem Follows.head?_eq {ws : List Spot} {a : Attempt} (ha : a.Follows (fun e _ => .found e) ws) :
    (∃ why, a = .givenUp why) ∨ (∃ e, a = .found e ∧ ws.head? = some e) ∨ ∃ c,
      a = .failed c ∧ ws = [] := by
  have never : ∀ x, ¬ Next.Fails (fun e _ => .found e) x := by
    rintro x ⟨w, c, h⟩
    cases h
  cases a with
  | found f =>
    obtain ⟨pre, s, post, c, rfl, hpre, hs⟩ := ha
    cases pre with
    | nil => exact .inr (.inl ⟨f, rfl, by cases hs; rfl⟩)
    | cons x pre => exact absurd (hpre x (by simp)) (never x)
  | failed c =>
    exact .inr (.inr ⟨c, rfl, List.eq_nil_iff_forall_not_mem.2 fun x hx => never x (ha x hx)⟩)
  | givenUp why => exact .inl ⟨why, rfl⟩

end Attempt

theorem prefer_follows {k : Next} {vs ws : List Spot} {a b : Effort → Attempt} (limits : Limits)
    (greedy : Bool) (ha : ∀ w, (a w).Follows k vs) (hb : ∀ w, (b w).Follows k ws) (w : Effort) :
    (prefer limits greedy a b w).Follows k (if greedy then vs ++ ws else ws ++ vs) := by
  rcases Nat.lt_or_ge w.opened limits.opened with hroom | hfull
  · cases greedy with
    | true =>
      rw [prefer_true hroom]
      exact (ha w.branch).orElse limits.takenBack fun c => hb ⟨c, w.opened⟩
    | false =>
      rw [prefer_false hroom]
      exact (hb w.branch).orElse limits.takenBack fun c => ha ⟨c, w.opened⟩
  · rw [prefer_of_le hfull]
    trivial

theorem mustRepeat_follows {round : Next → Next} {f : Spot → List Spot}
    (hround : ∀ k s w, (round k s w).Follows k (f s)) (n : Nat) (k : Next) (s : Spot) (w : Effort) :
    (mustRepeat round n k s w).Follows k (rounds f n s) := by
  induction n generalizing s w with
  | zero => exact Attempt.follows_singleton k s w
  | succ n ih => exact (hround _ s w).flatMap ih

theorem mayRepeat_follows {round : Next → Next} {f : Spot → List Spot} (limits : Limits)
    (greedy : Bool) (hround : ∀ k s w, (round k s w).Follows k (f s)) (fuel : Nat)
    (left : Option Nat) (k : Next) (s : Spot) (w : Effort) :
    (mayRepeat limits round greedy fuel left k s w).Follows k
      (furtherRounds true greedy f fuel left s) := by
  induction fuel generalizing left s w with
  | zero => exact Attempt.follows_singleton k s w
  | succ fuel ih =>
    simp only [mayRepeat, furtherRounds]
    by_cases hleft : left = some 0
    · simp only [if_pos hleft]
      exact Attempt.follows_singleton k s w
    · simp only [if_neg hleft]
      refine prefer_follows limits greedy (fun w => (hround _ s w).flatMap fun e w => ?_)
        (fun w => Attempt.follows_singleton k s w) w
      by_cases idle : left = none ∧ e.pos = s.pos
      · rw [if_pos idle, afterRound, if_neg (by simp [idle]), if_pos rfl]
        exact Attempt.follows_nil k w.takenBack
      · rw [if_neg idle, afterRound, if_pos (by by_cases h : left = none <;> simp_all)]
        exact ih _ e w

/-- Backtracking takes the first way from which it can go on. -/
theorem tryFrom_follows (limits : Limits) (text : Array Char) (p : Pattern) (k : Next) (s : Spot)
    (w : Effort) : (tryFrom limits text p k s w).Follows k (ways true text p s) := by
  induction p generalizing k s w with
  | empty => exact Attempt.follows_singleton k s w
  | one set =>
    simp only [tryFrom, ways]
    cases text[s.pos]? with
    | none => exact Attempt.follows_nil k w.takenBack
    | some d =>
      by_cases hd : set.mem d = true
      · simp only [if_pos hd]
        exact Attempt.follows_singleton k _ w
      · simp only [if_neg hd]
        exact Attempt.follows_nil k w.takenBack
  | check a =>
    simp only [tryFrom, ways]
    by_cases ha : s.satisfies text a = true
    · simp only [if_pos ha]
      exact Attempt.follows_singleton k s w
    · simp only [if_neg ha]
      exact Attempt.follows_nil k w.takenBack
  | seq p q ihp ihq => exact (ihp _ s w).flatMap fun x w => ihq k x w
  | alt p q ihp ihq => exact prefer_follows limits true (ihp k s) (ihq k s) w
  | group index p ih => exact (ih _ _ w).map
  | repeated p min max greedy ih =>
    simp only [tryFrom, ways, roundFuel, if_true]
    exact (mustRepeat_follows (fun k s w => ih k s w) min _ s w).flatMap fun x w =>
      mayRepeat_follows limits greedy (fun k s w => ih k s w) _ _ k x w
  | again index =>
    simp only [tryFrom, ways]
    cases (s.group? index).bind fun g => s.past? text g.1 g.2 with
    | none => exact Attempt.follows_nil k w.takenBack
    | some e => exact Attempt.follows_singleton k e w
  | atomic p ih =>
    simp only [tryFrom, ways]
    rcases (ih (fun e _ => .found e) s w).head?_eq with ⟨why, h⟩ | ⟨e, h, hw⟩ | ⟨c, h, hw⟩
    · rw [h]
      trivial
    · obtain ⟨ws, hws⟩ := List.head?_eq_some_iff.1 hw
      rw [h, hws]
      exact Attempt.follows_singleton k e w
    · rw [h, hw]
      exact Attempt.follows_nil k c

end Stencil.Pattern
