import Mathlib.Data.List.Basic
import Stencil.Proofs.Pattern.Renumbering

/-!
# Matching by lists keeps first ways

For a pattern that asks for no earlier text, `run` gives the first way to each position, in the
order of the ways (`run_eq`). What makes this work is that the ways of such a pattern from a spot
depend on the position of the spot alone (`positional_ways`), so a second way to a position leads
nowhere new.

The ends of a loop are collected by a search that remembers from which positions rounds were tried
already. A round that is made again starts further on, so what was tried at a position behind the
current one has been followed to all its ends (`Rounds.Complete`).
-/

namespace Stencil

namespace Pattern

/-! ## First spots -/

/-- The first spot of each position. -/
def firsts : List Spot → List Spot
  | [] => []
  | s :: ss => s :: (firsts ss).filter (·.pos ≠ s.pos)

theorem filter_firsts (f : Nat → Bool) (ss : List Spot) :
    (firsts ss).filter (f ·.pos) = firsts (ss.filter (f ·.pos)) := by
  induction ss with
  | nil => rfl
  | cons s ss ih =>
    by_cases h : f s.pos = true
    · simp only [firsts, List.filter_cons, h, if_true, ← ih, List.filter_filter]
      congr 1
      exact List.filter_congr fun x _ => Bool.and_comm ..
    · rw [Bool.not_eq_true] at h
      simp only [firsts, List.filter_cons, h, Bool.false_eq_true, if_false, ← ih,
        List.filter_filter]
      refine List.filter_congr fun x _ => ?_
      by_cases hx : x.pos = s.pos <;> simp [hx, h]

theorem firsts_append (ss ts : List Spot) :
    firsts (ss ++ ts) = firsts ss ++ (firsts ts).filter fun t => ¬ ∃ s ∈ ss, s.pos = t.pos := by
  induction ss with
  | nil => simp [firsts, List.filter_eq_self.2]
  | cons s ss ih =>
    simp only [List.cons_append, firsts, ih, List.filter_append, List.filter_filter]
    congr 2
    refine List.filter_congr fun t _ => ?_
    by_cases h : s.pos = t.pos
    · simp [h]
    · simp [h, Ne.symm h]

theorem pos_mem_firsts {ss : List Spot} {n : Nat} :
    (∃ s ∈ firsts ss, s.pos = n) ↔ ∃ s ∈ ss, s.pos = n := by
  induction ss with
  | nil => rfl
  | cons s ss ih =>
    by_cases h : s.pos = n
    · simp [firsts, h]
    · simp only [firsts, List.mem_cons, exists_eq_or_imp, h, false_or, ← ih, List.mem_filter]
      constructor
      · rintro ⟨t, ⟨ht, -⟩, rfl⟩
        exact ⟨t, ht, rfl⟩
      · rintro ⟨t, ht, rfl⟩
        exact ⟨t, ⟨ht, by simpa using Ne.symm h⟩, rfl⟩

theorem mem_of_mem_firsts {ss : List Spot} {s : Spot} (h : s ∈ firsts ss) : s ∈ ss := by
  induction ss with
  | nil => exact h
  | cons t ss ih =>
    rcases List.mem_cons.1 h with rfl | h
    · exact List.mem_cons_self
    · exact List.mem_cons_of_mem _ (ih ((List.mem_filter.1 h).1))

@[simp] theorem firsts_firsts (ss : List Spot) : firsts (firsts ss) = firsts ss := by
  induction ss with
  | nil => rfl
  | cons s ss ih =>
    rw [firsts, firsts, ← filter_firsts (· ≠ s.pos), ih, List.filter_filter]
    simp

theorem firsts_eq_self_iff {ss : List Spot} : firsts ss = ss ↔ ss.Pairwise (·.pos ≠ ·.pos) := by
  induction ss with
  | nil => simp [firsts]
  | cons s ss ih =>
    rw [firsts, List.pairwise_cons, List.cons.injEq, ← ih]
    constructor
    · rintro ⟨-, h⟩
      have apart : ∀ t ∈ ss, s.pos ≠ t.pos := by
        intro t ht
        rw [← h] at ht
        exact fun e => of_decide_eq_true (List.mem_filter.1 ht).2 e.symm
      refine ⟨apart, ?_⟩
      conv_rhs => rw [← h]
      refine (List.filter_eq_self.2 fun t ht => ?_).symm
      simpa using (apart t (mem_of_mem_firsts ht)).symm
    · rintro ⟨h, hs⟩
      rw [hs]
      exact ⟨rfl, List.filter_eq_self.2 fun t ht => by simpa using (h t ht).symm⟩

theorem head?_firsts (ss : List Spot) : (firsts ss).head? = ss.head? := by
  cases ss <;> rfl

theorem firsts_map_mark (slot : Nat) (ss : List Spot) :
    firsts (ss.map (·.mark slot)) = (firsts ss).map (·.mark slot) := by
  induction ss with
  | nil => rfl
  | cons s ss ih =>
    simp only [List.map_cons, firsts, ih, List.filter_map]
    rfl

theorem distinctFrom_eq (seen : Std.HashSet Nat) (ss : List Spot) :
    distinctFrom seen ss = (firsts ss).filter fun s => !seen.contains s.pos := by
  induction ss generalizing seen with
  | nil => rfl
  | cons s ss ih =>
    simp only [distinctFrom, firsts]
    by_cases h : seen.contains s.pos
    · rw [if_pos h, List.filter_cons_of_neg (by simp [h]), ih, List.filter_filter]
      refine List.filter_congr fun t _ => ?_
      by_cases ht : t.pos = s.pos <;> simp [ht, h]
    · rw [if_neg h, List.filter_cons_of_pos (by simp [h]), ih, List.filter_filter]
      congr 1
      refine List.filter_congr fun t _ => ?_
      by_cases ht : t.pos = s.pos
      · simp [ht]
      · simp [ht, Ne.symm ht]

theorem distinct_eq (ss : List Spot) : distinct ss = firsts ss := by
  match ss with
  | [] => rfl
  | [s] => rfl
  | s :: t :: ss =>
    rw [distinct, distinctFrom_eq, List.filter_eq_self.2 fun _ _ => by simp]
    · simp
    · simp

theorem firsts_flatMap_firsts {f : Spot → List Spot} (hf : Positional f) (ss : List Spot) :
    firsts ((firsts ss).flatMap f) = firsts (ss.flatMap f) := by
  induction ss with
  | nil => rfl
  | cons s ss ih =>
    rw [List.flatMap_cons, firsts_append, ← ih, firsts, List.flatMap_cons, firsts_append]
    congr 1
    -- what the filter drops on the left ends where `f s` does, which drops it on the right
    obtain ⟨keep, hkeep⟩ : ∃ keep : Nat → Bool, keep = fun n => decide ¬ ∃ e ∈ f s, e.pos = n :=
      ⟨_, rfl⟩
    have drop : ∀ ts : List Spot, (ts.filter fun t => decide ¬ ∃ e ∈ f s, e.pos = t.pos) =
        ts.filter (keep ·.pos) := fun ts => by rw [hkeep]
    rw [drop, drop, filter_firsts, filter_firsts]
    congr 1
    simp only [List.filter_flatMap]
    generalize firsts ss = ts
    induction ts with
    | nil => rfl
    | cons t ts iht =>
      by_cases ht : t.pos = s.pos
      · have : (f t).filter (keep ·.pos) = [] := by
          refine List.filter_eq_nil_iff.2 fun e he => ?_
          simpa [hkeep] using hf.exists_pos ht ⟨e, he, rfl⟩
        rw [List.filter_cons_of_neg (by simp [ht]), List.flatMap_cons, this, List.nil_append, iht]
      · rw [List.filter_cons_of_pos (by simp [ht]), List.flatMap_cons, List.flatMap_cons, iht]

theorem firsts_append_congr {ss ss' ts ts' : List Spot} (hs : firsts ss = firsts ss')
    (ht : firsts ts = firsts ts') : firsts (ss ++ ts) = firsts (ss' ++ ts') := by
  rw [firsts_append, firsts_append, hs, ht]
  congr 1
  refine List.filter_congr fun t _ => ?_
  rw [decide_eq_decide, ← pos_mem_firsts, hs, pos_mem_firsts]

theorem firsts_flatMap_congr {f g : Spot → List Spot} {ss : List Spot}
    (h : ∀ s ∈ ss, firsts (f s) = firsts (g s)) :
    firsts (ss.flatMap f) = firsts (ss.flatMap g) := by
  induction ss with
  | nil => rfl
  | cons s ss ih =>
    simp only [List.flatMap_cons]
    exact firsts_append_congr (h s (by simp)) (ih fun t ht => h t (by simp [ht]))

/-! ## Loops -/

/-- The further rounds of a loop with fuel enough for a text. -/
def allRounds (size : Nat) (greedy : Bool) (f : Spot → List Spot) : Option Nat → Spot → List Spot :=
  furtherRounds false greedy f (size + 1)

section Loop

variable {text : Array Char} {f : Spot → List Spot} {greedy : Bool}

theorem afterRound_false (left : Option Nat) (s : Spot) (g : Spot → List Spot) (e : Spot) :
    afterRound false left s g e = if e.pos = s.pos then [e] else g e := by
  by_cases h : e.pos = s.pos <;> simp [afterRound, h]

/-- Beyond what a text can take, fuel makes no difference. -/
theorem furtherRounds_fuel (hf : LeadsOn text f) {m n : Nat} (left : Option Nat) {s : Spot}
    (hs : s.pos ≤ text.size) (hm : text.size < s.pos + m) (hn : text.size < s.pos + n) :
    furtherRounds false greedy f m left s = furtherRounds false greedy f n left s := by
  induction m generalizing n left s with
  | zero => omega
  | succ m ih =>
    obtain ⟨n, rfl⟩ : ∃ k, n = k + 1 := ⟨n - 1, by omega⟩
    have onward : ∀ e ∈ f s,
        afterRound false left s (furtherRounds false greedy f m (left.map (· - 1))) e =
          afterRound false left s (furtherRounds false greedy f n (left.map (· - 1))) e := by
      intro e he
      have hse := hf hs e he
      simp only [afterRound_false]
      split
      · rfl
      · exact ih _ hse.2 (by omega) (by omega)
    simp only [furtherRounds]
    rw [List.flatMap_congr onward]

theorem allRounds_eq (hf : LeadsOn text f) {left : Option Nat} (hleft : left ≠ some 0) {s : Spot}
    (hs : s.pos ≤ text.size) :
    allRounds text.size greedy f left s =
      let onward :=
  (f s).flatMap (afterRound false left s (allRounds text.size greedy f (left.map (· - 1))))
      if greedy then onward ++ [s] else s :: onward := by
  have onward : ∀ e ∈ f s,
      afterRound false left s (furtherRounds false greedy f text.size (left.map (· - 1))) e =
        afterRound false left s (allRounds text.size greedy f (left.map (· - 1))) e := by
    intro e he
    have hse := hf hs e he
    rw [afterRound_false, afterRound_false]
    split
    · rfl
    · exact furtherRounds_fuel hf _ hse.2 (by omega) (by omega)
  rw [allRounds, furtherRounds, if_neg hleft]
  simp only
  rw [List.flatMap_congr onward]
  rfl

@[simp] theorem allRounds_zero (size : Nat) (s : Spot) :
    allRounds size greedy f (some 0) s = [s] := by simp [allRounds, furtherRounds]

namespace Rounds

/-- What was tried from positions at or behind a bound has been followed to all its ends. -/
def Complete (text : Array Char) (greedy : Bool) (f : Spot → List Spot)
    (limited : Bool) (bound : Nat) (r : Rounds) : Prop :=
  ∀ ⦃left : Option Nat⦄ ⦃s : Spot⦄, left.isSome = limited → bound ≤ s.pos → r.known left s = true →
    ∀ e ∈ allRounds text.size greedy f left s, ∃ x ∈ r.ends, x.pos = e.pos

/-- From `r` to `r'`, ends of the given spots have been added, by trying positions at or behind a
bound. -/
structure Adds (text : Array Char) (greedy : Bool) (f : Spot → List Spot)
    (limited : Bool) (bound : Nat) (r : Rounds) (es : List Spot) (r' : Rounds) : Prop where
  complete : r'.Complete text greedy f limited bound
  ends : firsts r'.ends.reverse = firsts (r.ends.reverse ++ es)
  tried : ∀ k, r'.tried.contains k = true → r.tried.contains k = true ∨ bound ≤ k.2

variable {limited : Bool} {bound : Nat} {r r' r'' : Rounds} {es es' : List Spot}

theorem Complete.mono {bound' : Nat} (h : r.Complete text greedy f limited bound)
    (hb : bound ≤ bound') :
    r.Complete text greedy f limited bound' := fun _ _ hl hs => h hl (Nat.le_trans hb hs)

/-- An end that was there stays there. -/
theorem mem_ends_of_firsts (h : firsts r'.ends.reverse = firsts (r.ends.reverse ++ es)) {n : Nat}
    (hn : (∃ x ∈ r.ends, x.pos = n) ∨ ∃ x ∈ es, x.pos = n) : ∃ x ∈ r'.ends, x.pos = n := by
  have : ∃ x ∈ r.ends.reverse ++ es, x.pos = n := by
    rcases hn with ⟨x, hx, hn⟩ | ⟨x, hx, hn⟩
    · exact ⟨x, by simp [hx], hn⟩
    · exact ⟨x, by simp [hx], hn⟩
  rw [← pos_mem_firsts, ← h, pos_mem_firsts] at this
  simpa using this

theorem Adds.trans (h : Adds text greedy f limited bound r es r')
    (h' : Adds text greedy f limited bound r' es' r'') :
    Adds text greedy f limited bound r (es ++ es') r'' where
  complete := h'.complete
  ends := by rw [h'.ends, ← List.append_assoc]; exact firsts_append_congr h.ends rfl
  tried k hk := (h'.tried k hk).elim (h.tried k) .inr

/-- What is added further on can be counted from an earlier bound, if all before is complete. -/
theorem Adds.mono {bound' : Nat} (hr : r.Complete text greedy f limited bound)
    (h : Adds text greedy f limited bound' r es r') (hb : bound ≤ bound') :
    Adds text greedy f limited bound r es r' where
  complete left s hl hs hk e he := by
    by_cases hs' : bound' ≤ s.pos
    · exact h.complete hl hs' hk e he
    · have hold : r.known left s = true := (h.tried _ hk).resolve_right hs'
      exact mem_ends_of_firsts h.ends (.inl (hr hl hs hold e he))
  ends := h.ends
  tried k hk := (h.tried k hk).imp_right (Nat.le_trans hb)

theorem Adds.finish (hr : r.Complete text greedy f limited bound) (s : Spot) :
    Adds text greedy f limited bound r [s] (r.finish s) where
  complete left x hl hx hk e he := by
    obtain ⟨y, hy, h⟩ := hr hl hx hk e he
    exact ⟨y, List.mem_cons_of_mem _ hy, h⟩
  ends := by simp [Rounds.finish]
  tried k hk := .inl hk

theorem Adds.foldl {step : Rounds → Spot → Rounds} {g : Spot → List Spot} {ss : List Spot}
    (hstep : ∀ r, ∀ s ∈ ss, r.Complete text greedy f limited bound →
      Adds text greedy f limited bound r (g s) (step r s))
    (hr : r.Complete text greedy f limited bound) :
    Adds text greedy f limited bound r (ss.flatMap g) (ss.foldl step r) := by
  induction ss generalizing r with
  | nil => exact ⟨hr, by simp, fun k hk => .inl hk⟩
  | cons s ss ih =>
    have first := hstep r s (by simp) hr
    exact first.trans (ih (fun r s hs => hstep r s (by simp [hs])) first.complete)

theorem tried_note {left : Option Nat} {s : Spot} {k : Nat × Nat}
    (h : (r.note left s).tried.contains k = true) :
    r.tried.contains k = true ∨ k = (left.getD 0, s.pos) := by
  simp only [Rounds.note, Std.HashSet.contains_insert, Bool.or_eq_true, beq_iff_eq] at h
  exact h.symm.imp_right Eq.symm

/-- What is noted does not count behind its position. -/
theorem Complete.note {s : Spot} (h : r.Complete text greedy f limited s.pos) (left : Option Nat) :
    (r.note left s).Complete text greedy f limited (s.pos + 1) := by
  intro l x hl hx hk
  refine h hl (by omega) ((tried_note hk).resolve_right fun heq => ?_)
  have hpos := congrArg Prod.snd heq
  simp only at hpos
  omega

end Rounds

theorem positional_allRounds (hf : Positional f) (size : Nat) (left : Option Nat) :
    Positional (allRounds size greedy f left) := hf.furtherRounds false greedy (size + 1) left

/-- Once the ends of the rounds from a spot are in, what was noted for it is complete as well. -/
theorem Rounds.Adds.of_note (hp : Positional f) {limited : Bool} {left : Option Nat}
    (hl : left.isSome = limited) {s : Spot} {r r' : Rounds}
    (hr : r.Complete text greedy f limited s.pos)
    (h : Adds text greedy f limited (s.pos + 1) (r.note left s)
      (allRounds text.size greedy f left s) r') :
    Adds text greedy f limited s.pos r (allRounds text.size greedy f left s) r' := by
  refine ⟨fun l x hlx hx hk e he => ?_, h.ends, fun k hk => ?_⟩
  · by_cases hsx : s.pos + 1 ≤ x.pos
    · exact h.complete hlx hsx hk e he
    have hxs : x.pos = s.pos := by omega
    rcases tried_note ((h.tried _ hk).resolve_right (by simp; omega)) with hold | hnew
    · exact mem_ends_of_firsts h.ends (.inl (hr hlx hx hold e he))
    · have hleft : l = left := by
        cases l <;> cases left <;> simp_all
      subst hleft
      exact mem_ends_of_firsts h.ends
        (.inr ((positional_allRounds hp _ _).exists_pos hxs ⟨e, he, rfl⟩))
  · rcases h.tried k hk with hk | hk
    · exact (tried_note hk).imp_right fun heq => by simp [heq]
    · exact .inr (by omega)

/-- The search of a loop adds the ends of all further rounds, in their order. -/
theorem optional_adds (hf : LeadsOn text f) (hp : Positional f) {round : List Spot → List Spot}
    (hround : ∀ s, s.pos ≤ text.size → round [s] = firsts (f s)) {limited : Bool} (fuel : Nat)
    {left : Option Nat} (hl : left.isSome = limited) {s : Spot} (hs : s.pos ≤ text.size)
    (hfuel : text.size < s.pos + fuel) {r : Rounds} (hr : r.Complete text greedy f limited s.pos) :
    Rounds.Adds text greedy f limited s.pos r (allRounds text.size greedy f left s)
      (optional round greedy fuel left s r) := by
  induction fuel generalizing left s r with
  | zero => omega
  | succ fuel ih =>
    by_cases hk : r.known left s = true
    · rw [optional, if_pos hk]
      refine ⟨hr, ?_, fun k hk => .inl hk⟩
      rw [firsts_append, List.filter_eq_nil_iff.2, List.append_nil]
      intro e he
      obtain ⟨x, hx, hxe⟩ := hr hl (Nat.le_refl _) hk e (mem_of_mem_firsts he)
      simpa using ⟨x, hx, hxe⟩
    rw [optional, if_neg hk]
    by_cases h0 : left = some 0
    · rw [if_pos h0]
      have adds := Rounds.Adds.finish (hr.note left) s
      subst h0
      exact .of_note hp hl hr (by simpa using adds)
    rw [if_neg h0]
    generalize hg : afterRound false left s (allRounds text.size greedy f (left.map (· - 1))) = g
    have positional : Positional g := hg ▸ (positional_allRounds hp _ _).afterRound false left rfl
    have further : ∀ {r : Rounds}, r.Complete text greedy f limited (s.pos + 1) →
        Rounds.Adds text greedy f limited (s.pos + 1) r ((firsts (f s)).flatMap g)
          ((round [s]).foldl (fun r e =>
            if e.pos = s.pos then r.finish e
            else optional round greedy fuel (left.map (· - 1)) e r) r) := by
      intro r hr
      rw [hround s hs]
      refine Rounds.Adds.foldl (fun r e he hr => ?_) hr
      have hse := hf hs e (mem_of_mem_firsts he)
      rw [← hg, afterRound_false]
      by_cases h : e.pos = s.pos
      · simp only [if_pos h]
        exact Rounds.Adds.finish hr e
      · simp only [if_neg h]
        exact (ih (by simpa using hl) hse.2 (by omega) (hr.mono (by omega))).mono hr (by omega)
    have sameFirsts : firsts ((firsts (f s)).flatMap g) = firsts ((f s).flatMap g) :=
      firsts_flatMap_firsts positional (f s)
    have unfolded := @allRounds_eq _ _ greedy hf _ h0 _ hs
    rw [hg] at unfolded
    have noted := hr.note left
    cases greedy with
    | true =>
      have adds := (further noted).trans (Rounds.Adds.finish (further noted).complete s)
      refine .of_note hp hl hr ⟨adds.complete, adds.ends.trans ?_, adds.tried⟩
      rw [unfolded]
      exact firsts_append_congr rfl (firsts_append_congr sameFirsts rfl)
    | false =>
      have first := Rounds.Adds.finish noted s
      have adds := first.trans (further first.complete)
      refine .of_note hp hl hr ⟨adds.complete, adds.ends.trans ?_, adds.tried⟩
      rw [unfolded]
      have ends : firsts ([s] ++ (firsts (f s)).flatMap g) = firsts ([s] ++ (f s).flatMap g) :=
        firsts_append_congr rfl sameFirsts
      exact firsts_append_congr rfl ends

end Loop

/-! ## Patterns -/

/-- Spots of a text, no two of them of one position. -/
structure Distinct (text : Array Char) (ss : List Spot) : Prop where
  firsts_eq : firsts ss = ss
  le_size : ∀ s ∈ ss, s.pos ≤ text.size

namespace Distinct

variable {text : Array Char} {ss : List Spot}

theorem singleton {s : Spot} (h : s.pos ≤ text.size) : Distinct text [s] :=
  ⟨rfl, fun _ hx => List.mem_singleton.1 hx ▸ h⟩

theorem firsts_flatMap {f : Spot → List Spot} (h : Distinct text ss) (hf : LeadsOn text f) :
    Distinct text (firsts (ss.flatMap f)) := by
  refine ⟨firsts_firsts _, fun x hx => ?_⟩
  obtain ⟨s, hs, hx⟩ := List.mem_flatMap.1 (mem_of_mem_firsts hx)
  exact (hf (h.le_size s hs) x hx).2

theorem map_mark (h : Distinct text ss) (slot : Nat) : Distinct text (ss.map (·.mark slot)) := by
  refine ⟨?_, fun x hx => ?_⟩
  · rw [firsts_map_mark, h.firsts_eq]
  · obtain ⟨s, hs, rfl⟩ := List.mem_map.1 hx
    exact h.le_size s hs

end Distinct

theorem mandatory_eq {text : Array Char} {f : Spot → List Spot} (hf : LeadsOn text f)
    (hp : Positional f) {round : List Spot → List Spot}
    (hround : ∀ ss, Distinct text ss → round ss = firsts (ss.flatMap f)) (n : Nat) {ss : List Spot}
    (hs : Distinct text ss) : mandatory round n ss = firsts (ss.flatMap (rounds f n)) := by
  induction n generalizing ss with
  | zero => simp only [mandatory, rounds, List.flatMap_singleton', hs.firsts_eq]
  | succ n ih =>
    rw [mandatory]
    split
    · next h =>
      rw [List.isEmpty_iff.1 h]
      rfl
    · rw [hround ss hs, ih (hs.firsts_flatMap hf), firsts_flatMap_firsts (hp.rounds n),
        List.flatMap_assoc]
      rfl

/-- The spot behind a character of a set. -/
def over? (text : Array Char) (set : CharSet) (s : Spot) : Option Spot :=
  match text[s.pos]? with
  | some c => if set.mem c then some (s.advance 1) else none
  | none => none

theorem ways_one {text : Array Char} {set : CharSet} (s : Spot) :
    ways false text (one set) s = (over? text set s).toList := by
  rw [ways, over?]
  cases text[s.pos]? with
  | none => rfl
  | some c => by_cases hc : set.mem c = true <;> simp [hc]

theorem pos_of_over? {text : Array Char} {set : CharSet} {s x : Spot}
    (h : over? text set s = some x) : x.pos = s.pos + 1 := by
  unfold over? at h
  split at h
  · split at h
    · cases h
      rfl
    · cases h
  · cases h

theorem flatMap_ways_check {text : Array Char} {a : Assertion} (ss : List Spot) :
    ss.flatMap (ways false text (check a)) = ss.filter (·.satisfies text a) := by
  induction ss with
  | nil => rfl
  | cons s ss ih =>
    rw [List.flatMap_cons, ih, ways]
    by_cases h : s.satisfies text a = true <;> simp [h]

/-- A loop does so if each of its rounds does. -/
theorem run_repeated (text : Array Char) {p : Pattern} (hp : p.asksAgain = false)
    {min : Nat} {max : Option Nat} {greedy : Bool}
    (ih : ∀ ss, Distinct text ss → run text p ss = firsts (ss.flatMap (ways false text p)))
    {ss : List Spot} (hs : Distinct text ss) :
    run text (repeated p min max greedy) ss =
      firsts (ss.flatMap (ways false text (repeated p min max greedy))) := by
  have lead := leadsOn_ways false text p
  have pos := positional_ways false text (p := p) hp
  have start := mandatory_eq lead pos ih min hs
  have distinctStart : Distinct text (mandatory (run text p) min ss) := by
    rw [start]
    exact hs.firsts_flatMap (lead.rounds min)
  have split : firsts (ss.flatMap (ways false text (repeated p min max greedy))) =
      firsts ((mandatory (run text p) min ss).flatMap
        (allRounds text.size greedy (ways false text p) (max.map (· - min)))) := by
    rw [start, firsts_flatMap_firsts (positional_allRounds pos _ _), List.flatMap_assoc]
    rfl
  rw [split, run]
  by_cases h : max = some min
  · rw [if_pos h]
    have last : allRounds text.size greedy (ways false text p) (some 0) = fun s => [s] :=
      funext fun s => allRounds_zero text.size s
    rw [h, Option.map_some, Nat.sub_self, last, List.flatMap_singleton', distinctStart.firsts_eq]
  · rw [if_neg h, distinct_eq]
    have single : ∀ s, s.pos ≤ text.size → run text p [s] = firsts (ways false text p s) := by
      intro s hs
      rw [ih [s] (Distinct.singleton hs), List.flatMap_singleton]
    have none : Rounds.Complete text greedy (ways false text p) (max.map (· - min)).isSome
        0 ⟨∅, []⟩ := by
      intro left s _ _ hk
      simp [Rounds.known] at hk
    have each : ∀ r, ∀ s ∈ mandatory (run text p) min ss,
        r.Complete text greedy (ways false text p) (max.map (· - min)).isSome 0 →
        Rounds.Adds text greedy (ways false text p) (max.map (· - min)).isSome 0 r
          (allRounds text.size greedy (ways false text p) (max.map (· - min)) s)
          (optional (run text p) greedy (text.size + 1) (max.map (· - min)) s r) := by
      intro r s hs' hr
      have adds := optional_adds lead pos single (text.size + 1) rfl (distinctStart.le_size s hs')
        (by omega) (hr.mono (Nat.zero_le _))
      exact adds.mono hr (Nat.zero_le _)
    simpa using (Rounds.Adds.foldl each none).ends

/-- Matching by lists gives the first way to each position. -/
theorem run_eq (text : Array Char) {p : Pattern} (hp : p.asksAgain = false) {ss : List Spot}
    (hs : Distinct text ss) : run text p ss = firsts (ss.flatMap (ways false text p)) := by
  induction p generalizing ss with
  | empty => simp only [run, ways, List.flatMap_singleton', hs.firsts_eq]
  | one set =>
    have apart : (ss.filterMap (over? text set)).Pairwise (·.pos ≠ ·.pos) := by
      refine (firsts_eq_self_iff.1 hs.firsts_eq).filterMap _ fun s t hst x hx y hy => ?_
      rw [pos_of_over? hx, pos_of_over? hy]
      omega
    rw [List.flatMap_congr fun s _ => ways_one s, ← List.filterMap_eq_flatMap_toList,
      firsts_eq_self_iff.2 apart]
    rfl
  | check a =>
    rw [run, flatMap_ways_check,
      firsts_eq_self_iff.2 ((firsts_eq_self_iff.1 hs.firsts_eq).filter _)]
  | seq p q ihp ihq =>
    simp only [asksAgain, Bool.or_eq_false_iff] at hp
    rw [run, ihp hp.1 hs, ihq hp.2 (hs.firsts_flatMap (leadsOn_ways ..)),
      firsts_flatMap_firsts (positional_ways _ _ hp.2), List.flatMap_assoc]
    rfl
  | alt p q ihp ihq =>
    simp only [asksAgain, Bool.or_eq_false_iff] at hp
    rw [run, distinct_eq]
    refine firsts_flatMap_congr fun s h => ?_
    have single := Distinct.singleton (hs.le_size s h)
    rw [ihp hp.1 single, ihq hp.2 single, ways]
    exact firsts_append_congr (by simp) (by simp)
  | group index p ih =>
    rw [run, ih hp (hs.map_mark _), ← firsts_map_mark, List.map_flatMap, List.flatMap_map]
    rfl
  | repeated p min max greedy ih =>
    exact run_repeated (p := p) text hp (fun ss hs => ih hp hs) hs
  | again index => cases hp
  | atomic p ih =>
    rw [run, distinct_eq]
    refine firsts_flatMap_congr fun s h => ?_
    rw [ih hp (Distinct.singleton (hs.le_size s h)), List.flatMap_singleton, ways]
    cases ways false text p s <;> rfl

end Pattern

end Stencil
