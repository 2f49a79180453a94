import Stencil.Pattern.Size
import Stencil.Proofs.Pattern.Language
import Stencil.Proofs.Pattern.Steady

/-!
# The cost of backtracking

`Reaches` says that backtracking gets from one spot to another if it can go on from there: on the
way it takes back no more than so many choices and leaves no more than so many open. A greedy loop
over a set of characters leaves a choice open at each character beyond those that it has to take,
and takes back one where the characters of the set end (`reaches_repeated`); all else that leads
straight on does neither. If too many choices are open, the search is given up (`Attempt.Arrives`).
-/

namespace Stencil.Pattern

variable {text : Array Char} {p q : Pattern} {ps qs : List Pattern} {set : CharSet}
  {cost cost' room room' : Nat} {s x e : Spot} {w : List Char}

/-- An attempt finds a spot, or it is given up as so many choices may be open that this is too
many. -/
def Attempt.Arrives (limits : Limits) (most : Nat) (f : Spot) (a : Attempt) : Prop :=
  a = .found f ∨ (a = .givenUp .opened ∧ limits.opened ≤ most)

/-- Running on with something gets from one spot to another, takes back no more than so many
choices, and leaves no more than so many open, if it can go on from there whatever was done. -/
def ReachesBy (limits : Limits) (run : Next → Next) (cost room : Nat) (s e : Spot) : Prop :=
  ∀ (most : Nat) (c : Effort) (k : Next) (f : Spot),
    c.takenBack + cost ≤ limits.takenBack → c.opened + room ≤ most →
    (∀ d : Effort, d.takenBack ≤ c.takenBack + cost → d.opened ≤ c.opened + room →
      (k e d).Arrives limits most f) →
    (run k s c).Arrives limits most f

/-- Backtracking gets from one spot to another. -/
def Reaches (text : Array Char) (p : Pattern) (cost room : Nat) (s e : Spot) : Prop :=
  ∀ limits : Limits, ReachesBy limits (tryFrom limits text p) cost room s e

/-! ## One behind the other -/

theorem ReachesBy.comp {limits : Limits} {run run' : Next → Next}
    (h : ReachesBy limits run cost room s x) (h' : ReachesBy limits run' cost' room' x e) :
    ReachesBy limits (run ∘ run') (cost + cost') (room + room') s e := by
  intro most c k f hcost hroom hk
  refine h most c _ f (by omega) (by omega) fun d hd hopened => ?_
  exact h' most d k f (by omega) (by omega) fun d' hd' hopened' => hk d' (by omega) (by omega)

theorem tryFrom_concat_cons (limits : Limits) :
    tryFrom limits text (concat (p :: ps)) =
      tryFrom limits text p ∘ tryFrom limits text (concat ps) := by
  cases ps <;> rfl

theorem tryFrom_concat_append (limits : Limits) :
    tryFrom limits text (concat (ps ++ qs)) =
      tryFrom limits text (concat ps) ∘ tryFrom limits text (concat qs) := by
  induction ps with
  | nil => rfl
  | cons p ps ih =>
    rw [List.cons_append, tryFrom_concat_cons, ih, tryFrom_concat_cons, Function.comp_assoc]

/-- What takes less room also takes more. -/
theorem Reaches.of_le (h : Reaches text p cost room s e) (hroom : room ≤ room') :
    Reaches text p cost room' s e :=
  fun limits most c k f hcost hmost hk =>
    h limits most c k f hcost (by omega) fun d hd hopened => hk d hd (by omega)

theorem reaches_nil : Reaches text (concat []) 0 0 s s :=
  fun _ _ c _ _ _ _ hk => hk c (Nat.le_refl _) (Nat.le_refl _)

theorem Reaches.cons (hp : Reaches text p cost room s x)
    (hps : Reaches text (concat ps) cost' room' x e) :
    Reaches text (concat (p :: ps)) (cost + cost') (room + room') s e := fun limits => by
  rw [tryFrom_concat_cons]
  exact (hp limits).comp (hps limits)

theorem Reaches.append (hps : Reaches text (concat ps) cost room s x)
    (hqs : Reaches text (concat qs) cost' room' x e) :
    Reaches text (concat (ps ++ qs)) (cost + cost') (room + room') s e := fun limits => by
  rw [tryFrom_concat_append]
  exact (hps limits).comp (hqs limits)

/-! ## Single patterns -/

theorem tryFrom_one {limits : Limits} {n : Effort} {k : Next} {c : Char} (h : text[s.pos]? = some c)
    (hc : set.mem c = true) : tryFrom limits text (one set) k s n = k (s.advance 1) n := by
  simp only [tryFrom, h, hc, if_true]

theorem tryFrom_one_failed {limits : Limits} {n : Effort} {k : Next}
    (h : ∀ c, text[s.pos]? = some c → set.mem c = false) :
    tryFrom limits text (one set) k s n = .failed n.takenBack := by
  simp only [tryFrom]
  cases hc : text[s.pos]? with
  | none => rfl
  | some c => simp only [h c hc, Bool.false_eq_true, if_false]

/-- What goes straight on reaches where it goes on from. -/
theorem reaches_of_eq
    (h : ∀ (limits : Limits) (k : Next) (c : Effort), tryFrom limits text p k s c = k e c) :
    Reaches text p 0 0 s e := by
  intro limits _ c k f _ _ hk
  rw [h limits k c]
  exact hk c (Nat.le_refl _) (Nat.le_refl _)

theorem reaches_one {c : Char} (h : text[s.pos]? = some c) (hc : set.mem c = true) :
    Reaches text (one set) 0 0 s (s.advance 1) :=
  reaches_of_eq fun _ _ _ => tryFrom_one h hc

theorem reaches_check {a : Assertion} (h : s.satisfies text a = true) :
    Reaches text (check a) 0 0 s s :=
  reaches_of_eq fun _ _ _ => by simp only [tryFrom, h, if_true]

theorem Reaches.group (i : Nat) (h : Reaches text p cost room (s.mark (2 * i)) e) :
    Reaches text (group i p) cost room s (e.mark (2 * i + 1)) :=
  fun limits most c _ f hcost hroom hk => h limits most c _ f hcost hroom hk

theorem reaches_again {i a b : Nat} (hgroup : s.group? i = some (a, b))
    (h : s.past? text a b = some e) : Reaches text (again i) 0 0 s e :=
  reaches_of_eq fun _ _ _ => by simp only [tryFrom, hgroup, Option.bind_some, h]

theorem advance_advance (s : Spot) (m n : Nat) : (s.advance m).advance n = s.advance (m + n) := by
  simp only [Spot.advance, Nat.add_assoc]

/-- Literal text. -/
theorem reaches_chars {stop : Nat} (h : Spans text s.pos stop w) :
    Reaches text (concat (w.map char)) 0 0 s (s.advance w.length) := by
  induction w generalizing s with
  | nil => exact reaches_nil
  | cons c w ih =>
    obtain ⟨hc, hw⟩ := Spans.cons_iff.1 h
    have hrest := ih (s := s.advance 1) hw
    rw [advance_advance, Nat.add_comm] at hrest
    exact (reaches_one hc (by simp)).cons hrest

/-! ## Loops -/

section

variable {limits : Limits} {most : Nat} {n : Effort} {k : Next} {f : Spot} {stop : Nat}

theorem mustRepeat_one (h : Spans text s.pos stop w) (hw : ∀ c ∈ w, set.mem c = true) :
    mustRepeat (tryFrom limits text (one set)) w.length k s n = k (s.advance w.length) n := by
  induction w generalizing s with
  | nil => rfl
  | cons c w ih =>
    obtain ⟨hc, hspans⟩ := Spans.cons_iff.1 h
    have hrest := ih (s := s.advance 1) hspans fun d hd => hw d (List.mem_cons_of_mem _ hd)
    rw [advance_advance, Nat.add_comm] at hrest
    rw [List.length_cons, mustRepeat, tryFrom_one hc (hw c (List.mem_cons_self ..))]
    exact hrest

/-- Where the first of two ways arrives, the second is not tried. -/
theorem prefer_arrives {a b : Effort → Attempt} (hopened : n.opened ≤ most)
    (h : n.opened < limits.opened → (a n.branch).Arrives limits most f) :
    (prefer limits true a b n).Arrives limits most f := by
  rcases Nat.lt_or_ge n.opened limits.opened with hroom | hfull
  · rw [prefer_true hroom]
    rcases h hroom with hfound | ⟨hgiven, hmost⟩
    · rw [hfound]
      exact .inl rfl
    · rw [hgiven]
      exact .inr ⟨rfl, hmost⟩
  · rw [prefer_of_le hfull]
    exact .inr ⟨rfl, Nat.le_trans hfull hopened⟩

/-- Where the first of two ways fails at once, the second is tried with one choice taken back. -/
theorem prefer_failed_arrives {a b : Effort → Attempt} (hopened : n.opened ≤ most)
    (hfailed : a n.branch = .failed n.takenBack) (hcost : n.takenBack + 1 ≤ limits.takenBack)
    (h : (b ⟨n.takenBack + 1, n.opened⟩).Arrives limits most f) :
    (prefer limits true a b n).Arrives limits most f := by
  rcases Nat.lt_or_ge n.opened limits.opened with hroom | hfull
  · rw [prefer_true hroom, hfailed, Attempt.orElse, if_neg (by omega)]
    exact h
  · rw [prefer_of_le hfull]
    exact .inr ⟨rfl, Nat.le_trans hfull hopened⟩

/-- A greedy loop goes over all characters of its set, leaves a choice open at each, and takes back
one behind them. -/
theorem mayRepeat_one {fuel : Nat} {left : Option Nat} (h : Spans text s.pos stop w)
    (hw : ∀ c ∈ w, set.mem c = true) (hstop : ∀ c, text[stop]? = some c → set.mem c = false)
    (hfuel : w.length ≤ fuel) (hleft : ∀ n ∈ left, w.length ≤ n)
    (hcost : n.takenBack + 1 ≤ limits.takenBack) (hroom : n.opened + w.length ≤ most)
    (hk : ∀ d : Effort, d.takenBack ≤ n.takenBack + 1 → d.opened ≤ n.opened + w.length →
      (k (s.advance w.length) d).Arrives limits most f) :
    (mayRepeat limits (tryFrom limits text (one set)) true fuel left k s n).Arrives
      limits most f := by
  induction w generalizing s fuel left n with
  | nil =>
    obtain rfl : stop = s.pos := h.stop_eq
    have hhere := hk n (Nat.le_succ _) (Nat.le_refl _)
    cases fuel with
    | zero => exact hhere
    | succ fuel =>
      by_cases hzero : left = some 0
      · simp only [mayRepeat, if_pos hzero]
        exact hhere
      · simp only [mayRepeat, if_neg hzero]
        exact prefer_failed_arrives hroom (tryFrom_one_failed hstop) hcost
          (hk _ (Nat.le_refl _) (Nat.le_refl _))
  | cons c w ih =>
    obtain ⟨hc, hspans⟩ := Spans.cons_iff.1 h
    rw [List.length_cons] at hfuel hroom hk
    obtain ⟨fuel, rfl⟩ : ∃ m, fuel = m + 1 := ⟨fuel - 1, by omega⟩
    have hzero : left ≠ some 0 := by
      rintro rfl
      simpa using hleft 0 rfl
    have hleft' : ∀ n ∈ left.map (· - 1), w.length ≤ n := by
      intro n hn
      obtain ⟨m, hm, rfl⟩ := Option.map_eq_some_iff.1 hn
      have := hleft m hm
      simp only [List.length_cons] at this
      omega
    have hprogress : ¬ (left = none ∧ (s.advance 1).pos = s.pos) := fun h => by
      have : s.pos + 1 = s.pos := h.2
      omega
    simp only [mayRepeat, if_neg hzero]
    refine prefer_arrives (by omega) fun _ => ?_
    rw [tryFrom_one hc (hw c (List.mem_cons_self ..)), if_neg hprogress]
    refine ih (n := n.branch) hspans (fun d hd => hw d (List.mem_cons_of_mem _ hd))
      (by omega) hleft' hcost (by simp only [Effort.branch]; omega) fun d hd hopened => ?_
    rw [advance_advance, Nat.add_comm 1 w.length]
    simp only [Effort.branch] at hd hopened
    exact hk d hd (by omega)

/-- A greedy loop over more characters of its set than choices may be open is given up. -/
theorem mayRepeat_one_givenUp {fuel : Nat} (h : Spans text s.pos stop w)
    (hw : ∀ c ∈ w, set.mem c = true) (hfuel : w.length < fuel)
    (hlong : limits.opened ≤ n.opened + w.length) :
    mayRepeat limits (tryFrom limits text (one set)) true fuel none k s n = .givenUp .opened := by
  have hzero : (none : Option Nat) ≠ some 0 := nofun
  induction w generalizing s fuel n with
  | nil =>
    obtain ⟨fuel, rfl⟩ : ∃ m, fuel = m + 1 := ⟨fuel - 1, by omega⟩
    simp only [mayRepeat, if_neg hzero]
    exact prefer_of_le hlong true
  | cons c w ih =>
    obtain ⟨hc, hspans⟩ := Spans.cons_iff.1 h
    rw [List.length_cons] at hfuel hlong
    obtain ⟨fuel, rfl⟩ : ∃ m, fuel = m + 1 := ⟨fuel - 1, by omega⟩
    have hrest := ih (s := s.advance 1) (n := n.branch) hspans
      (fun d hd => hw d (List.mem_cons_of_mem _ hd)) (by omega : w.length < fuel)
      (by simp only [Effort.branch]; omega)
    have hprogress : ¬ (True ∧ (s.advance 1).pos = s.pos) := fun h => by
      have : s.pos + 1 = s.pos := h.2
      omega
    simp only [mayRepeat, if_neg hzero]
    rcases Nat.lt_or_ge n.opened limits.opened with hroom | hfull
    · rw [prefer_true hroom, tryFrom_one hc (hw c (List.mem_cons_self ..)), if_neg hprogress,
        Option.map_none, hrest]
      rfl
    · exact prefer_of_le hfull true

end

theorem tryFrom_repeated (limits : Limits) (p : Pattern) (min : Nat) (max : Option Nat)
    (greedy : Bool) (k : Next) :
    tryFrom limits text (repeated p min max greedy) k =
      mustRepeat (tryFrom limits text p) min
        (mayRepeat limits (tryFrom limits text p) greedy
          (match max with | some m => m - min + 1 | none => text.size + 2) (max.map (· - min)) k) :=
  rfl

/-- A greedy loop over a set, where what follows is no character of it. -/
theorem reaches_repeated {lo : Nat} {hi : Option Nat} {stop : Nat} (h : Spans text s.pos stop w)
    (hpos : s.pos ≤ text.size) (hw : ∀ c ∈ w, set.mem c = true)
    (hstop : ∀ c, text[stop]? = some c → set.mem c = false) (hlo : lo ≤ w.length)
    (hhi : ∀ n, hi = some n → w.length ≤ max lo n) :
    Reaches text (repeated (one set) lo hi true) 1 (w.length - lo) s (s.advance w.length) := by
  intro limits most c k f hcost hroom hk
  obtain ⟨u, v, rfl, rfl⟩ : ∃ u v, w = u ++ v ∧ lo = u.length :=
    ⟨w.take lo, w.drop lo, (List.take_append_drop ..).symm, by simp [hlo]⟩
  obtain ⟨hu, hv⟩ := h.of_append
  have hsize := hv.le_size (hu.le_size hpos)
  have hend := hv.stop_eq
  have hlength : (u ++ v).length - u.length = v.length := by simp
  rw [hlength] at hroom hk
  rw [tryFrom_repeated, mustRepeat_one hu fun c hc => hw c (List.mem_append_left _ hc)]
  refine mayRepeat_one (s := s.advance u.length) hv (fun c hc => hw c (List.mem_append_right _ hc))
    hstop ?_ (fun n hn => ?_) hcost hroom ?_
  · cases hi with
    | none => simp only; omega
    | some n =>
      have hle := hhi n rfl
      simp only [List.length_append] at hle
      simp only
      omega
  · obtain ⟨m, hm, rfl⟩ := Option.map_eq_some_iff.1 hn
    have hle := hhi m hm
    simp only [List.length_append] at hle
    omega
  · rw [advance_advance, ← List.length_append]
    exact hk

/-- So it is where the loop stands behind the rounds that have to be made. -/
theorem tryFrom_repeated_givenUp {limits : Limits} {n : Effort} {k : Next} {lo stop : Nat}
    (h : Spans text s.pos stop w) (hpos : s.pos ≤ text.size) (hw : ∀ c ∈ w, set.mem c = true)
    (hlo : lo ≤ w.length) (hlong : limits.opened ≤ n.opened + (w.length - lo)) :
    tryFrom limits text (repeated (one set) lo none true) k s n = .givenUp .opened := by
  obtain ⟨u, v, rfl, rfl⟩ : ∃ u v, w = u ++ v ∧ lo = u.length :=
    ⟨w.take lo, w.drop lo, (List.take_append_drop ..).symm, by simp [hlo]⟩
  obtain ⟨hu, hv⟩ := h.of_append
  have hsize := hv.le_size (hu.le_size hpos)
  have hend := hv.stop_eq
  rw [List.length_append, Nat.add_sub_cancel_left] at hlong
  rw [tryFrom_repeated, mustRepeat_one hu fun c hc => hw c (List.mem_append_left _ hc)]
  exact mayRepeat_one_givenUp (s := s.advance u.length) hv
    (fun c hc => hw c (List.mem_append_right _ hc)) (by simp only; omega) hlong

/-! ## Searching -/

/-- What backtracking reaches is at the end of the preferred way. -/
theorem Reaches.head?_ways (h : Reaches text p cost room s e) :
    (ways true text p s).head? = some e := by
  have hfollows := tryFrom_follows ⟨cost, room + 1⟩ text p (fun e _ => .found e) s ⟨0, 0⟩
  rcases h ⟨cost, room + 1⟩ room ⟨0, 0⟩ (fun e _ => .found e) e (by simp) (by simp)
    fun _ _ _ => .inl rfl with hfound | ⟨-, hle⟩
  · rw [hfound] at hfollows
    rcases hfollows.head?_eq with ⟨why, heq⟩ | ⟨x, heq, hx⟩ | ⟨c, heq, -⟩
    · cases heq
    · cases heq
      exact hx
    · cases heq
  · exact absurd hle (Nat.not_succ_le_self room)

/-- Backtracking finds a match that it reaches within the limit of choices taken back, or it is
given up because too many choices are open. -/
theorem Reaches.backtrack {limits : Limits} (h : Reaches text p cost room ⟨0, []⟩ e)
    (hcost : cost ≤ limits.takenBack) :
    backtrack limits text p = .found ⟨0, e⟩ ∨
      (backtrack limits text p = .givenUp .opened ∧ limits.opened ≤ 1 + room) := by
  have hfound := h limits (1 + room) ⟨0, 1⟩ (fun e _ => .found e) e (by simpa using hcost)
    (Nat.le_refl _) fun _ _ _ => .inl rfl
  rw [Pattern.backtrack, backtrackFrom]
  rcases hfound with hfound | ⟨hgiven, hmost⟩
  · rw [hfound]
    exact .inl rfl
  · rw [hgiven]
    exact .inr ⟨rfl, hmost⟩

/-- A search that is given up at the beginning is given up. -/
theorem backtrack_givenUp {limits : Limits} {why : Exhaustion}
    (h : tryFrom limits text p (fun e _ => .found e) ⟨0, []⟩ ⟨0, 1⟩ = .givenUp why) :
    backtrack limits text p = .givenUp why := by
  rw [Pattern.backtrack, backtrackFrom, h]

/-- The room that patterns take. -/
def sizeAll : List Pattern → Nat
  | [] => 0
  | p :: ps => p.size + sizeAll ps

theorem sizeAll_append (ps qs : List Pattern) : sizeAll (ps ++ qs) = sizeAll ps + sizeAll qs := by
  induction ps with
  | nil => simp [sizeAll]
  | cons p ps ih => simp [sizeAll, ih, Nat.add_assoc]

theorem sizeAll_le (ps : List Pattern) : sizeAll ps ≤ (concat ps).size := by
  induction ps with
  | nil => exact Nat.zero_le _
  | cons p ps ih =>
    cases ps with
    | nil => simp [concat, sizeAll]
    | cons q ps => exact Nat.add_le_add_left ih _

/-- An expression that is read is not too large. -/
theorem Composite.size_le {regex : String} {e : Expression} (h : Composite.read regex = .ok e) :
    e.pattern.size ≤ sizeLimit := by
  obtain ⟨r, -, he⟩ := bind_eq_ok.1 h
  exact (Expression.ofReader_eq_ok he).2.2

end Stencil.Pattern
