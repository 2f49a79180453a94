import Stencil.Proofs.Pattern.Anchored
import Stencil.Proofs.Pattern.Shortened

/-!
# Searching the beginning of a text

What a search finds in a text it also finds in the beginning of the text that ends there
(`searchComposite_extract`). Backtracking goes the same way in both, and has taken back no more
choices in the shortened text (`tryFrom_extract`), so that it is not given up there where it was not
given up before. The end of the text may be asked for behind the pattern (`Ended`), for the way that
was found gets there.
-/

namespace Stencil.Pattern

variable {text : Array Char} {limits : Limits} {n : Nat}

/-- One effort is no greater than another. -/
instance : LE Effort := ⟨fun c d => c.takenBack ≤ d.takenBack ∧ c.opened ≤ d.opened⟩

/-! ## Attempts in the shortened text -/

namespace Attempt

/-- What an attempt from behind a position can come to: it finds nothing up to there, and the
choices that were taken back before stay taken back. -/
def Beyond (n count : Nat) : Attempt → Prop
  | found f => n < f.pos
  | failed c => count ≤ c
  | givenUp _ => True

/-- What an attempt in the shortened text comes to, by what it comes to in the whole text: it finds
what ends where the shortened text ends, and fails with no more choices taken back. -/
def Shortens (n : Nat) : Attempt → Attempt → Prop
  | found f, a' => f.pos = n → a' = .found f
  | failed c, a' => ∃ c' ≤ c, a' = .failed c'
  | givenUp _, _ => True

variable {a a' : Attempt} {b b' : Nat → Attempt} {limit c c' : Nat}

theorem Beyond.mono (h : a.Beyond n c) (hc : c' ≤ c) : a.Beyond n c' := by
  cases a with
  | found f => exact h
  | failed count => exact Nat.le_trans hc h
  | givenUp => trivial

theorem Beyond.orElse (ha : a.Beyond n c) (hb : ∀ c1, c ≤ c1 → (b c1).Beyond n c) :
    (a.orElse limit b).Beyond n c := by
  cases a with
  | found f => exact ha
  | givenUp => trivial
  | failed c1 =>
    rw [Attempt.orElse]
    split
    · trivial
    · exact hb (c1 + 1) (Nat.le_succ_of_le ha)

/-- In the shortened text there is no going on from behind its end. -/
theorem Beyond.shortens (h : a.Beyond n c) (hc : c' ≤ c) : a.Shortens n (.failed c') := by
  cases a with
  | found f =>
    intro hpos
    exact absurd hpos (Nat.ne_of_gt h)
  | failed count => exact ⟨c', Nat.le_trans hc h, rfl⟩
  | givenUp => trivial

theorem shortens_failed (hc : c' ≤ c) : (failed c).Shortens n (.failed c') := ⟨c', hc, rfl⟩

theorem Shortens.orElse (ha : a.Shortens n a')
    (hb : ∀ ⦃c c'⦄, c' ≤ c → (b c).Shortens n (b' c')) :
    (a.orElse limit b).Shortens n (a'.orElse limit b') := by
  cases a with
  | found f =>
    intro hpos
    rw [ha hpos]
    rfl
  | givenUp => trivial
  | failed c =>
    obtain ⟨c', hc, rfl⟩ := ha
    rw [Attempt.orElse, Attempt.orElse]
    split
    · trivial
    · rw [if_neg (by omega)]
      exact hb (Nat.succ_le_succ hc)

variable {b₁ b₁' b₂ b₂' : Effort → Attempt} {greedy : Bool} {d d' : Effort}

theorem Beyond.prefer
    (h₁ : ∀ d1 : Effort, d.takenBack ≤ d1.takenBack → (b₁ d1).Beyond n d.takenBack)
    (h₂ : ∀ d1 : Effort, d.takenBack ≤ d1.takenBack → (b₂ d1).Beyond n d.takenBack) :
    (prefer limits greedy b₁ b₂ d).Beyond n d.takenBack := by
  rcases Nat.lt_or_ge d.opened limits.opened with hroom | hfull
  · cases greedy with
    | true =>
      rw [prefer_true hroom]
      exact (h₁ d.branch (Nat.le_refl _)).orElse fun c1 hc1 => h₂ ⟨c1, d.opened⟩ hc1
    | false =>
      rw [prefer_false hroom]
      exact (h₂ d.branch (Nat.le_refl _)).orElse fun c1 hc1 => h₁ ⟨c1, d.opened⟩ hc1
  · rw [prefer_of_le hfull]
    trivial

/-- Where there is room for a choice in the whole text, there is in the shortened one. -/
theorem Shortens.prefer (h₁ : ∀ ⦃d d' : Effort⦄, d' ≤ d → (b₁ d).Shortens n (b₁' d'))
    (h₂ : ∀ ⦃d d' : Effort⦄, d' ≤ d → (b₂ d).Shortens n (b₂' d')) (hd : d' ≤ d) :
    (prefer limits greedy b₁ b₂ d).Shortens n (prefer limits greedy b₁' b₂' d') := by
  have hbranch : d'.branch ≤ d.branch := ⟨hd.1, Nat.succ_le_succ hd.2⟩
  rcases Nat.lt_or_ge d.opened limits.opened with hroom | hfull
  · have hroom' := Nat.lt_of_le_of_lt hd.2 hroom
    cases greedy with
    | true =>
      rw [prefer_true hroom, prefer_true hroom']
      exact (h₁ hbranch).orElse fun c c' hc => h₂ ⟨hc, hd.2⟩
    | false =>
      rw [prefer_false hroom, prefer_false hroom']
      exact (h₂ hbranch).orElse fun c c' hc => h₁ ⟨hc, hd.2⟩
  · rw [prefer_of_le hfull]
    trivial

end Attempt

namespace Next

/-- Going on from behind a position finds nothing up to there. -/
def Beyond (n : Nat) (k : Next) : Prop :=
  ∀ ⦃s : Spot⦄ (c : Effort), n < s.pos → (k s c).Beyond n c.takenBack

/-- The second goes on in the shortened text as the first in the whole text, from the spots at or
behind a position. -/
structure Shortens (n from_ : Nat) (k k' : Next) : Prop where
  beyond : k.Beyond n
  within : ∀ ⦃s : Spot⦄, from_ ≤ s.pos → s.pos ≤ n → s.Tidy →
    ∀ ⦃c c' : Effort⦄, c' ≤ c → (k s c).Shortens n (k' s c')

variable {k k' : Next} {a b : Nat}

theorem Shortens.mono (h : Shortens n a k k') (hb : a ≤ b) : Shortens n b k k' :=
  ⟨h.beyond, fun _ hs => h.within (Nat.le_trans hb hs)⟩

/-- Wherever it gets, an attempt goes on in the shortened text or is behind its end. -/
theorem Shortens.apply (h : Shortens n a k k') {s : Spot} (hs : a ≤ s.pos) (htidy : s.Tidy)
    {c c' : Effort} (hc : c' ≤ c) :
    (k s c).Shortens n (if s.pos ≤ n then k' s c' else .failed c'.takenBack) := by
  split
  · next hn => exact h.within hs hn htidy hc
  · next hn => exact (h.beyond c (Nat.lt_of_not_le hn)).shortens hc.1

theorem shortens_found : Shortens n 0 (fun e _ => .found e) fun e _ => .found e :=
  ⟨fun _ _ hs => hs, fun _ _ _ _ _ _ _ _ => rfl⟩

end Next

/-! ## From behind a position -/

section Beyond

variable {round : Next → Next} {k : Next}

theorem mustRepeat_beyond (hround : ∀ k : Next, k.Beyond n → (round k).Beyond n)
    (m : Nat) (hk : k.Beyond n) : (mustRepeat round m k).Beyond n := by
  induction m with
  | zero => exact hk
  | succ m ih => exact hround _ ih

theorem mayRepeat_beyond (hround : ∀ k : Next, k.Beyond n → (round k).Beyond n)
    {greedy : Bool} (fuel : Nat) (left : Option Nat) (hk : k.Beyond n) :
    (mayRepeat limits round greedy fuel left k).Beyond n := by
  induction fuel generalizing left with
  | zero => exact hk
  | succ fuel ih =>
    intro s c hs
    simp only [mayRepeat]
    split
    · exact hk c hs
    · refine .prefer (fun c1 hc1 => (hround _ (fun e c he => ?_) c1 hs).mono hc1) fun c1 hc1 =>
        (hk c1 hs).mono hc1
      split
      · exact Nat.le_refl c.takenBack
      · exact ih _ c he

/-- No pattern leads back. -/
theorem tryFrom_beyond (p : Pattern) (hk : k.Beyond n) : (tryFrom limits text p k).Beyond n := by
  induction p generalizing k with
  | empty => exact hk
  | one set =>
    intro s c hs
    simp only [tryFrom]
    split
    · split
      · exact hk (s := s.advance 1) c (Nat.lt_succ_of_lt hs)
      · exact Nat.le_refl c.takenBack
    · exact Nat.le_refl c.takenBack
  | check a =>
    intro s c hs
    simp only [tryFrom]
    split
    · exact hk c hs
    · exact Nat.le_refl c.takenBack
  | seq p q ihp ihq => exact ihp (ihq hk)
  | alt p q ihp ihq =>
    intro s c hs
    exact .prefer (fun c1 hc1 => (ihp hk c1 hs).mono hc1) fun c1 hc1 => (ihq hk c1 hs).mono hc1
  | group index p ih =>
    intro s c hs
    exact ih (fun e c he => hk (s := e.mark (2 * index + 1)) c he) (s := s.mark (2 * index)) c hs
  | repeated p min max greedy ih =>
    exact mustRepeat_beyond (fun _ hk => ih hk) min (mayRepeat_beyond (fun _ hk => ih hk) _ _ hk)
  | again index =>
    intro s c hs
    simp only [tryFrom]
    split
    · next e he =>
      obtain ⟨g, -, he⟩ := Option.bind_eq_some_iff.1 he
      refine hk c ?_
      rw [(eq_of_mem_past? he).1]
      exact Nat.lt_add_right _ hs
    · exact Nat.le_refl c.takenBack
  | atomic p ih =>
    intro s c hs
    have hfirst := ih (k := fun e _ => .found e) (fun _ _ hs => hs) c hs
    simp only [tryFrom]
    split
    · next e he =>
      rw [he] at hfirst
      exact hk c hfirst
    · exact hfirst

end Beyond

/-! ## Patterns in the shortened text -/

section Within

variable {round round' : Next → Next} {k k' : Next} {a : Nat}

theorem mustRepeat_shortens
    (hround : ∀ k k', Next.Shortens n a k k' → Next.Shortens n a (round k) (round' k')) (m : Nat)
    (hk : Next.Shortens n a k k') :
    Next.Shortens n a (mustRepeat round m k) (mustRepeat round' m k') := by
  induction m with
  | zero => exact hk
  | succ m ih => exact hround _ _ ih

/-- A loop makes the same rounds in the shortened text. Without a limit, its fuel is that for its
text. -/
theorem mayRepeat_within (hbeyond : ∀ k : Next, k.Beyond n → (round k).Beyond n)
    (hround : ∀ a k k', Next.Shortens n a k k' → Next.Shortens n a (round k) (round' k'))
    {greedy : Bool} (hk : Next.Shortens n a k k') {fuel fuel' : Nat} {left : Option Nat} {s : Spot}
    (ha : a ≤ s.pos) (hs : s.pos ≤ n) (htidy : s.Tidy)
    (hfuel : left = none → n < s.pos + fuel ∧ n < s.pos + fuel')
    (hlimited : left ≠ none → fuel = fuel') {c c' : Effort} (hc : c' ≤ c) :
    (mayRepeat limits round greedy fuel left k s c).Shortens n
      (mayRepeat limits round' greedy fuel' left k' s c') := by
  induction fuel generalizing fuel' left s c c' with
  | zero =>
    cases left with
    | none => have := hfuel rfl; omega
    | some m =>
      obtain rfl := hlimited (by simp)
      exact hk.within ha hs htidy hc
  | succ fuel ih =>
    obtain ⟨fuel', rfl⟩ : ∃ m, fuel' = m + 1 := by
      refine ⟨fuel' - 1, ?_⟩
      cases left with
      | none => have := hfuel rfl; omega
      | some m => have := hlimited (by simp); omega
    simp only [mayRepeat]
    by_cases hleft : left = some 0
    · rw [if_pos hleft, if_pos hleft]
      exact hk.within ha hs htidy hc
    rw [if_neg hleft, if_neg hleft]
    have hnext : Next.Shortens n s.pos
        (fun e c => if left = none ∧ e.pos = s.pos then .failed c.takenBack
          else mayRepeat limits round greedy fuel (left.map (· - 1)) k e c)
        (fun e c => if left = none ∧ e.pos = s.pos then .failed c.takenBack
          else mayRepeat limits round' greedy fuel' (left.map (· - 1)) k' e c) := by
      constructor
      · intro e c he
        simp only
        split
        · exact Nat.le_refl c.takenBack
        · exact mayRepeat_beyond hbeyond _ _ hk.beyond c he
      · intro e hse he htidy c c' hc
        by_cases hidle : left = none ∧ e.pos = s.pos
        · rw [if_pos hidle, if_pos hidle]
          exact Attempt.shortens_failed hc.1
        · rw [if_neg hidle, if_neg hidle]
          refine ih (by omega) he htidy (fun hnone => ?_) (fun hsome => ?_) hc
          · have hnone : left = none := by simpa using hnone
            have := hfuel hnone
            have : e.pos ≠ s.pos := fun h => hidle ⟨hnone, h⟩
            omega
          · have := hlimited (by simpa using hsome)
            omega
    exact .prefer (fun c c' hc => (hround _ _ _ hnext).within (Nat.le_refl _) hs htidy hc)
      (fun c c' hc => hk.within ha hs htidy hc) hc

/-- Backtracking in the shortened text goes the way that it goes in the whole text. -/
theorem tryFrom_extract {p : Pattern} (hp : p.isLocal = true) (hn : n ≤ text.size)
    (hk : Next.Shortens n a k k') :
    Next.Shortens n a (tryFrom limits text p k) (tryFrom limits (text.extract 0 n) p k') := by
  refine ⟨tryFrom_beyond p hk.beyond, ?_⟩
  induction p generalizing a k k' with
  | empty => exact hk.within
  | one set =>
    intro s ha hs htidy c c' hc
    simp only [tryFrom, Spot.getElem?_extract_zero]
    have hnext := hk.apply (s := s.advance 1) (Nat.le_succ_of_le ha) (htidy.advance 1) hc
    by_cases hlt : s.pos < n
    · rw [if_pos (show (s.advance 1).pos ≤ n from hlt)] at hnext
      rw [if_pos hlt]
      cases text[s.pos]? with
      | none => exact Attempt.shortens_failed hc.1
      | some d =>
        by_cases hd : set.mem d = true
        · simpa only [if_pos hd] using hnext
        · simpa only [if_neg hd] using Attempt.shortens_failed hc.1
    · rw [if_neg (show ¬ (s.advance 1).pos ≤ n from hlt)] at hnext
      rw [if_neg hlt]
      cases text[s.pos]? with
      | none => exact Attempt.shortens_failed hc.1
      | some d =>
        by_cases hd : set.mem d = true
        · simpa only [if_pos hd] using hnext
        · simpa only [if_neg hd] using Attempt.shortens_failed hc.1
  | check b =>
    intro s ha hs htidy c c' hc
    simp only [tryFrom, Spot.satisfies_extract hp hs]
    split
    · exact hk.within ha hs htidy hc
    · exact Attempt.shortens_failed hc.1
  | seq p q ihp ihq =>
    obtain ⟨hp, hq⟩ := Bool.and_eq_true_iff.1 hp
    exact ihp hp ⟨tryFrom_beyond q hk.beyond, ihq hq hk⟩
  | alt p q ihp ihq =>
    obtain ⟨hp, hq⟩ := Bool.and_eq_true_iff.1 hp
    intro s ha hs htidy c c' hc
    exact .prefer (fun c c' hc => ihp hp hk ha hs htidy hc)
      (fun c c' hc => ihq hq hk ha hs htidy hc) hc
  | group index p ih =>
    intro s ha hs htidy c c' hc
    refine ih hp ⟨fun e c he => ?_, fun e ha he htidy c c' hc => ?_⟩ (s := s.mark (2 * index)) ha hs
      (htidy.mark _) hc
    · exact hk.beyond (s := e.mark (2 * index + 1)) c he
    · exact hk.within (s := e.mark (2 * index + 1)) ha he (htidy.mark _) hc
  | repeated p min max greedy ih =>
    have hround : ∀ a k k', Next.Shortens n a k k' →
        Next.Shortens n a (tryFrom limits text p k) (tryFrom limits (text.extract 0 n) p k') :=
      fun a k k' hk => ⟨tryFrom_beyond p hk.beyond, ih hp hk⟩
    refine (mustRepeat_shortens (hround a) min ⟨?_, fun s ha hs htidy c c' hc => ?_⟩).within
    · exact mayRepeat_beyond (fun k hk => tryFrom_beyond p hk) _ _ hk.beyond
    · refine mayRepeat_within (fun k hk => tryFrom_beyond p hk) hround hk ha
        hs htidy (fun hnone => ?_) (fun hsome => ?_) hc
      · cases max with
        | none => simp only [Spot.size_extract_zero hn]; omega
        | some m => cases hnone
      · cases max with
        | none => exact absurd rfl hsome
        | some m => rfl
  | again index =>
    intro s ha hs htidy c c' hc
    simp only [tryFrom]
    cases hgroup : s.group? index with
    | none => exact Attempt.shortens_failed hc.1
    | some g =>
      simp only [Option.bind_some,
        Spot.past?_extract hn (Nat.le_trans (htidy.group?_le hgroup).2 hs)]
      cases he : s.past? text g.1 g.2 with
      | none => exact Attempt.shortens_failed hc.1
      | some e =>
        obtain ⟨rfl, -⟩ := eq_of_mem_past? he
        have hnext :=
          hk.apply (s := s.advance (g.2 - g.1)) (Nat.le_add_right_of_le ha) (htidy.advance _) hc
        simp only [Option.filter_some, decide_eq_true_eq]
        split at hnext
        · next hle => simpa only [if_pos hle] using hnext
        · next hle => simpa only [if_neg hle] using hnext
  | atomic p => cases hp

end Within

/-! ## The end of a text behind a pattern -/

/-- The second pattern is the first one, or the first one that asks for the end of the text behind
the last of its alternatives. -/
inductive Ended : Pattern → Pattern → Prop
  | same (p : Pattern) : Ended p p
  | only {a : Assertion} (ha : a.isEnd = true) : Ended empty (check a)
  | behind {a : Assertion} (ha : a.isEnd = true) (p : Pattern) : Ended p (seq p (check a))
  | seq (p : Pattern) {q q' : Pattern} (h : Ended q q') : Ended (seq p q) (seq p q')
  | alt (p : Pattern) {q q' : Pattern} (h : Ended q q') : Ended (alt p q) (alt p q')

theorem satisfies_of_isEnd {a : Assertion} (ha : a.isEnd = true) {s : Spot}
    (hs : s.pos = text.size) : s.satisfies text a = true := by
  have hbehind : s.behind text = none := Array.getElem?_eq_none (Nat.le_of_eq hs.symm)
  rw [Spot.satisfies, hbehind]
  exact Assertion.holds_of_isEnd ha _

/-- The first spot of a list is also the first one of another, if it is at a position. -/
def KeepsFirst (n : Nat) (ss ss' : List Spot) : Prop :=
  (ss = [] → ss' = []) ∧ ∀ s, ss.head? = some s → s.pos = n → ss'.head? = some s

namespace KeepsFirst

variable {ss ss' ss'' ts ts' : List Spot}

theorem refl (ss : List Spot) : KeepsFirst n ss ss := ⟨id, fun _ hs _ => hs⟩

theorem trans (h : KeepsFirst n ss ss') (h' : KeepsFirst n ss' ss'') : KeepsFirst n ss ss'' :=
  ⟨fun hnil => h'.1 (h.1 hnil), fun s hs hpos => h'.2 s (h.2 s hs hpos) hpos⟩

theorem append (h : KeepsFirst n ss ss') (ht : KeepsFirst n ts ts') :
    KeepsFirst n (ss ++ ts) (ss' ++ ts') := by
  cases ss with
  | nil =>
    rw [h.1 rfl]
    exact ht
  | cons s ss =>
    refine ⟨fun hnil => by simp at hnil, fun x hx hpos => ?_⟩
    rw [List.head?_append, h.2 x hx hpos]
    rfl

theorem flatMap {f f' : Spot → List Spot} (h : ∀ s, KeepsFirst n (f s) (f' s)) (ss : List Spot) :
    KeepsFirst n (ss.flatMap f) (ss.flatMap f') := by
  induction ss with
  | nil => exact refl []
  | cons s ss ih => exact (h s).append ih

theorem upTo (ss : List Spot) : KeepsFirst n ss (upTo n ss) := by
  refine ⟨fun hnil => by rw [hnil]; rfl, fun s hs hpos => ?_⟩
  obtain ⟨ts, rfl⟩ := List.head?_eq_some_iff.1 hs
  rw [Pattern.upTo, List.filter_cons_of_pos (by simpa using Nat.le_of_eq hpos)]
  rfl

end KeepsFirst

namespace Ended

variable {p p' : Pattern}

theorem needsBacktracking_eq (h : Ended p p') : p'.needsBacktracking = p.needsBacktracking := by
  have hend : ∀ {a : Assertion}, a.isEnd = true → a.concernsWords = false := by
    intro a ha
    cases a <;> first | rfl | cases ha
  induction h with
  | same p => rfl
  | only ha => exact hend ha
  | behind ha p => simp [needsBacktracking, hend ha]
  | seq p h ih => simp only [needsBacktracking, ih]
  | alt p h ih => simp only [needsBacktracking, ih]

/-- A way to the end of the text stays the first. -/
theorem keepsFirst (h : Ended p p') (strict : Bool) (s : Spot) :
    KeepsFirst text.size (ways strict text p s) (ways strict text p' s) := by
  have hend : ∀ {a : Assertion}, a.isEnd = true → ∀ s,
      KeepsFirst text.size [s] (ways strict text (check a) s) := by
    intro a ha s
    refine ⟨fun hnil => (nomatch hnil), fun x hx hpos => ?_⟩
    obtain rfl := Option.some.inj hx
    rw [ways, if_pos (satisfies_of_isEnd ha hpos)]
    rfl
  induction h generalizing s with
  | same p => exact .refl _
  | only ha => exact hend ha s
  | behind ha p =>
    have hways : ways strict text p s = (ways strict text p s).flatMap fun x => [x] :=
      (List.flatMap_singleton' _).symm
    rw [hways]
    exact .flatMap (hend ha) _
  | seq p h ih => exact .flatMap ih _
  | alt p h ih => exact .append (.refl _) (ih s)

/-- Backtracking in the shortened text up to its end goes the way that it goes in the whole text. -/
theorem tryFrom_extract (h : Ended p p') (hp : p.isLocal = true) (hn : n ≤ text.size) :
    Next.Shortens n 0 (tryFrom limits text p fun e _ => .found e)
      (tryFrom limits (text.extract 0 n) p' fun e _ => .found e) := by
  have hend : ∀ {a : Assertion}, a.isEnd = true →
      Next.Shortens n 0 (fun e _ => .found e) (tryFrom limits (text.extract 0 n) (check a)
        fun e _ => .found e) := by
    intro a ha
    refine ⟨Next.shortens_found.beyond, fun s _ _ _ c c' _ hpos => ?_⟩
    have hsize : s.pos = (text.extract 0 n).size := hpos.trans (Spot.size_extract_zero hn).symm
    simp only [tryFrom, if_pos (satisfies_of_isEnd ha hsize)]
  induction h with
  | same p => exact Pattern.tryFrom_extract hp hn Next.shortens_found
  | only ha => exact hend ha
  | behind ha p => exact Pattern.tryFrom_extract hp hn (hend ha)
  | seq p h ih =>
    obtain ⟨hp, hq⟩ := Bool.and_eq_true_iff.1 hp
    exact Pattern.tryFrom_extract hp hn (ih hq)
  | alt p h ih =>
    obtain ⟨hp, hq⟩ := Bool.and_eq_true_iff.1 hp
    have hfirst := @Pattern.tryFrom_extract text limits n _ _ 0 _ hp hn Next.shortens_found
    refine ⟨tryFrom_beyond _ Next.shortens_found.beyond, fun s hs hsn htidy c c' hc => ?_⟩
    exact .prefer (fun c c' hc => hfirst.within hs hsn htidy hc)
      (fun c c' hc => (ih hq).within hs hsn htidy hc) hc

end Ended

/-! ## Searching -/

section Search

variable {p p' : Pattern} {f : Found} {start count count' c c' : Nat}

theorem backtrackFrom_found (hcount : start + count ≤ text.size + 1)
    (h : backtrackFrom limits text p start count c = .found f) :
    start ≤ f.start ∧ f.start ≤ text.size ∧ f.stop ∈ ways true text p ⟨f.start, []⟩ := by
  induction count generalizing start c with
  | zero => cases h
  | succ count ih =>
    have hfollows := tryFrom_follows limits text p (fun e _ => .found e) ⟨start, []⟩ ⟨c, 1⟩
    rw [backtrackFrom] at h
    split at h
    · next s hs =>
      cases h
      rw [hs] at hfollows
      obtain ⟨pre, x, post, _, hways, -, hx⟩ := hfollows
      cases hx
      exact ⟨Nat.le_refl _, by simp only; omega, by simp [hways]⟩
    · cases h
    · split at h
      · cases h
      · split at h
        · cases h
        · obtain ⟨hle, hfound⟩ := ih (by omega) h
          exact ⟨Nat.le_of_succ_le hle, hfound⟩

/-- Matching by lists finds the same in the text up to there. -/
theorem searchFrom_extract (hlocal : p.isLocal = true) (hended : Ended p p')
    (hp : p.asksAgain = false) (hp' : p'.asksAgain = false) (hn : f.stop.pos ≤ text.size)
    (hcount : start + count ≤ text.size + 1) (hcount' : start + count' = f.stop.pos + 1)
    (h : searchFrom text p start count = some f) :
    searchFrom (text.extract 0 f.stop.pos) p' start count' = some f := by
  have hsize := Spot.size_extract_zero hn
  induction count generalizing start count' with
  | zero => cases h
  | succ count ih =>
    obtain ⟨hle, hstart, hfound⟩ := searchFrom_found hp hcount h
    have hlead := (leadsOn_ways false text p (s := ⟨f.start, []⟩) hstart _ hfound).1
    simp only at hlead
    obtain ⟨count', rfl⟩ : ∃ m, count' = m + 1 := ⟨count' - 1, by omega⟩
    have hways := (shortens_ways hlocal hn).eq (s := ⟨start, []⟩) (by simp only; omega)
      (.start start)
    have hfirst : KeepsFirst f.stop.pos (ways false text p ⟨start, []⟩)
        (ways false (text.extract 0 f.stop.pos) p' ⟨start, []⟩) := by
      have hkeeps : KeepsFirst (text.extract 0 f.stop.pos).size
          (ways false (text.extract 0 f.stop.pos) p ⟨start, []⟩)
          (ways false (text.extract 0 f.stop.pos) p' ⟨start, []⟩) := hended.keepsFirst false _
      rw [hsize, hways] at hkeeps
      exact (KeepsFirst.upTo _).trans hkeeps
    rw [searchFrom_succ hp (by omega)] at h
    rw [searchFrom_succ hp' (by omega)]
    split at h
    · next s hs =>
      cases h
      rw [hfirst.2 s hs rfl]
    · next hnone =>
      rw [hfirst.1 (List.head?_eq_none_iff.1 hnone)]
      exact ih (by omega) (by omega) h

/-- Backtracking finds the same in the text up to there. -/
theorem backtrackFrom_extract (hlocal : p.isLocal = true) (hended : Ended p p')
    (hn : f.stop.pos ≤ text.size) (hcount : start + count ≤ text.size + 1)
    (hcount' : start + count' = f.stop.pos + 1) (hc : c' ≤ c)
    (h : backtrackFrom limits text p start count c = .found f) :
    backtrackFrom limits (text.extract 0 f.stop.pos) p' start count' c' = .found f := by
  induction count generalizing start count' c c' with
  | zero => cases h
  | succ count ih =>
    obtain ⟨hle, hstart, hfound⟩ := backtrackFrom_found hcount h
    have hlead := (leadsOn_ways true text p (s := ⟨f.start, []⟩) hstart _ hfound).1
    simp only at hlead
    obtain ⟨count', rfl⟩ : ∃ m, count' = m + 1 := ⟨count' - 1, by omega⟩
    have hnext : Next.Shortens f.stop.pos 0 (tryFrom limits text p fun e _ => .found e)
        (tryFrom limits (text.extract 0 f.stop.pos) p' fun e _ => .found e) :=
        hended.tryFrom_extract hlocal hn
    have htry :=
      hnext.within (s := ⟨start, []⟩) (Nat.zero_le _) (by simp only; omega) (.start start)
        (show (⟨c', 1⟩ : Effort) ≤ ⟨c, 1⟩ from ⟨hc, Nat.le_refl 1⟩)
    rw [backtrackFrom] at h ⊢
    split at h
    · next s hs =>
      cases h
      rw [hs] at htry
      rw [htry rfl]
    · cases h
    · next c1 hc1 =>
      rw [hc1] at htry
      obtain ⟨c1', hle', hc1'⟩ := htry
      rw [hc1']
      split at h
      · cases h
      split at h
      · cases h
      have hrest := (backtrackFrom_found (by omega) h).1
      simp only
      rw [if_neg (by omega), if_neg (by omega)]
      exact ih (by omega) (by omega) (by omega) h

end Search

variable {e e' : Expression} {f : Found}

/-- What is found is a way of the pattern. -/
theorem searchComposite_found (h : e.searchComposite text = .found f) :
    f.start ≤ text.size ∧ ∃ strict, f.stop ∈ ways strict text e.pattern ⟨f.start, []⟩ := by
  unfold Expression.searchComposite at h
  split at h
  · obtain ⟨-, hstart, hfound⟩ := backtrackFrom_found (by omega) h
    exact ⟨hstart, true, hfound⟩
  · next hback =>
    split at h
    · next g hsearch =>
      cases h
      have hasks := asksAgain_of_needsBacktracking (by simpa using hback)
      obtain ⟨-, hstart, hfound⟩ := searchFrom_found hasks (by omega) hsearch
      exact ⟨hstart, false, hfound⟩
    · cases h

theorem searchComposite_le (h : e.searchComposite text = .found f) : f.stop.pos ≤ text.size := by
  obtain ⟨hstart, strict, hfound⟩ := searchComposite_found h
  exact (leadsOn_ways strict text e.pattern (s := ⟨f.start, []⟩) hstart _ hfound).2

/-- What a search finds in a text, it finds in the text up to there, and also if the text has to end
there. -/
theorem searchComposite_extract (hlocal : e.pattern.isLocal = true)
    (hended : Ended e.pattern e'.pattern) (h : e.searchComposite text = .found f) :
    e'.searchComposite (text.extract 0 f.stop.pos) = .found f := by
  have hn := searchComposite_le h
  have hsize := Spot.size_extract_zero hn
  unfold Expression.searchComposite at h ⊢
  rw [hended.needsBacktracking_eq]
  split at h
  · next hback =>
    rw [if_pos hback, backtrack, hsize]
    exact backtrackFrom_extract hlocal hended hn (by omega) (by omega) (Nat.le_refl 0) h
  · next hback =>
    rw [if_neg hback]
    have hback : e.pattern.needsBacktracking = false := by simpa using hback
    split at h
    · next g hsearch =>
      cases h
      have hfound : searchFrom (text.extract 0 f.stop.pos) e'.pattern 0 (f.stop.pos + 1) = some f :=
        searchFrom_extract hlocal hended (asksAgain_of_needsBacktracking hback)
          (asksAgain_of_needsBacktracking (hended.needsBacktracking_eq.trans hback)) hn
            (by omega) (by omega) hsearch
      rw [search, hsize, hfound]
    · cases h

end Stencil.Pattern
