import Stencil.Proofs.Pattern.Anchored
import Stencil.Proofs.Pattern.InsidePlain
import Stencil.Token.Basic

/-!
# What a token matches

The expression of a token is read between anchors. If it is read alone as a pattern of characters,
the token matches the words of that pattern (`Token.matches?_iff`).
-/

namespace Stencil

open Pattern Pattern.Reader

namespace Pattern.Reader

theorem step_plain {r : Reader} (hflags : r.flags.ignoreSpace = false) {c : Char} {cs : List Char}
    (hrest : r.rest = c :: cs) : step r = r.readSign c cs := by
  simp only [step, hrest, Flags.trim_of_not hflags]

/-- The reader that has read the anchor at the beginning. -/
def anchored (cs : List Char) : Reader := (start []).push (.check .textStart) cs

/-- The reader in the group between the anchors, which has no number. -/
def enclosed (cs : List Char) : Reader :=
  { anchored [] with
    contents := .empty, opened := [⟨(anchored []).contents, {}, none⟩], rest := cs }

/-- Between the anchors, an expression is read in a group of its own. -/
theorem run_enclosed {regex : String} {e : Expression}
    (h : Expression.read (Token.anchor regex) = .ok e) :
    ∃ r', run step (regex.toList.length + 1 + 4) (enclosed (regex.toList ++ [')', '$'])) = .ok r' ∧
      Expression.ofReader r' = .ok e := by
  obtain ⟨r', hr, he⟩ := bind_eq_ok.1 h
  have htext : (Token.anchor regex).toList =
      '^' :: '(' :: '?' :: ':' :: (regex.toList ++ [')', '$']) := by
    simp [Token.anchor]
  rw [htext] at hr
  have hcaret : step (start ('^' :: '(' :: '?' :: ':' :: (regex.toList ++ [')', '$']))) =
      .ok (anchored ('(' :: '?' :: ':' :: (regex.toList ++ [')', '$']))) := rfl
  have hopen : step (anchored ('(' :: '?' :: ':' :: (regex.toList ++ [')', '$']))) =
      .ok (enclosed (regex.toList ++ [')', '$'])) := by
    rw [step_plain rfl rfl]
    rfl
  have hfuel : ('^' :: '(' :: '?' :: ':' :: (regex.toList ++ [')', '$'])).length + 1 =
      regex.toList.length + 1 + 4 + 1 + 1 := by simp
  rw [hfuel, run_step (List.cons_ne_nil _ _), hcaret] at hr
  replace hr : run step (regex.toList.length + 1 + 4 + 1)
      (anchored ('(' :: '?' :: ':' :: (regex.toList ++ [')', '$']))) = .ok r' := hr
  rw [run_step (List.cons_ne_nil _ _), hopen] at hr
  exact ⟨r', hr, he⟩

theorem inside_enclosed (cs : List Char) :
    Inside [⟨(anchored []).contents, {}, none⟩] 0 [] [')', '$'] (start cs)
      (enclosed (cs ++ [')', '$'])) :=
  ⟨rfl, .empty, ⟨[], rfl, .nil⟩, Nat.le_refl _, rfl, rfl, rfl⟩

/-- An expression that is read alone and between anchors is read in every group: no comment takes
the parenthesis. -/
theorem ReadsAlone.readsInside {regex : String} {p : Pattern} {e : Expression}
    (hread : ReadsAlone regex p) (h : Expression.read (Token.anchor regex) = .ok e) :
    ReadsInside regex p := by
  obtain ⟨r, hr, hrest, hopened, hnames, rfl⟩ := hread
  obtain hrun | ⟨-, hcomment⟩ := run_alike hr hnames hopened
  · intro base bound names more k R R' h hR
    obtain ⟨m, R1, hm, h1, hR⟩ := hrun base bound names more k R R' h hR
    exact ⟨m, R1, hm, h1.filled hrest hopened, hR⟩
  · obtain ⟨r', hr', he⟩ := run_enclosed h
    obtain ⟨os, hos⟩ := hcomment _ _ _ _ _ _ (inside_enclosed regex.toList) hr'
    simp [Expression.ofReader, hos] at he

/-- What is read between anchors. -/
theorem read_anchored {regex : String} {p : Pattern} {e : Expression} (hread : ReadsInside regex p)
    (h : Expression.read (Token.anchor regex) = .ok e) :
    ∃ q, p.Renumbered (0 < ·) q ∧ e = ⟨.concat [.check .textStart, q, .check .textEnd], []⟩ := by
  obtain ⟨r', hr, he⟩ := run_enclosed h
  obtain ⟨m, r1, hm, h1, hr⟩ := hread _ _ _ _ _ _ _ (inside_enclosed regex.toList) hr
  let closed : Reader := { r1 with
    contents := (anchored []).contents.push r1.contents.close, opened :=
      [], flags := {}, rest := ['$'] }
  have hclose : step r1 = .ok closed := by
    rw [step_parenthesis h1.rest_eq]
    simp only [closeGroup, h1.opened]
    rfl
  obtain ⟨m, rfl⟩ : ∃ k, m = k + 1 + 1 := ⟨m - 2, by omega⟩
  rw [run_step (by simp [h1.rest_eq]), hclose] at hr
  replace hr : run step (m + 1) closed = .ok r' := hr
  have hdollar : step closed = .ok (closed.push (.check .textEnd) []) := rfl
  rw [run_step (List.cons_ne_nil _ _), hdollar] at hr
  replace hr : run step m (closed.push (.check .textEnd) []) = .ok r' := hr
  rw [run_end rfl] at hr
  cases hr
  obtain ⟨-, rfl, -⟩ := Expression.ofReader_eq_ok he
  refine ⟨r1.contents.close, h1.contents, ?_⟩
  simp only [Reader.push, closed, h1.names_eq]
  rfl

end Pattern.Reader

namespace Token

theorem parse_eq_ok_iff {u : Token} {w : String} {v : Value} :
    u.parse w = .ok v ↔ u.matches? w = true ∧ u.readValue w = .ok v := by
  unfold parse
  split <;> simp [*]

/-- What is formatted is what the rule renders, if it is read as the same value. -/
theorem format_eq_ok_iff {u : Token} {v : Value} {w : String} :
    u.format v = .ok w ↔ u.rule.render v = .ok w ∧ u.parse w = .ok v := by
  unfold format
  cases hrender : u.rule.render v with
  | error reason => simp
  | ok x =>
    simp only [Except.ok.injEq]
    constructor
    · intro h
      split at h
      · next y hparse =>
        split at h
        · next heq =>
          cases h
          exact ⟨rfl, heq ▸ hparse⟩
        · cases h
      · cases h
    · rintro ⟨rfl, hparse⟩
      simp [hparse]

theorem create_eq {name : String} {kind : Kind} {regex : String} {rule : RenderRule} {u : Token}
    (h : create name kind regex rule = .ok u) :
    isIdentifier name = true ∧ Expression.read (anchor regex) = .ok u.anchored ∧
    u.name = name ∧ u.kind = kind ∧
      u.regex = regex ∧ u.rule = rule := by
  unfold create at h
  split at h
  · cases h
  · next hname =>
    split at h
    · cases h
    · next hread =>
      cases h
      exact ⟨by simpa using hname, hread, rfl, rfl, rfl, rfl⟩

/-- The expression of a token was read from its text. -/
def Valid (u : Token) : Prop := Expression.read (anchor u.regex) = .ok u.anchored

/-- A token matches the words of the pattern that it is read as in groups. -/
theorem matches?_iff_of_readsInside {u : Token} (hu : u.Valid) {p : Pattern}
    (hread : ReadsInside u.regex p) (hp : p.isRegular = true) (w : String) :
    u.matches? w = true ↔ w.toList ∈ p.language := by
  obtain ⟨q, hq, he⟩ := Reader.read_anchored hread hu
  have hqr : q.isRegular = true := hq.isRegular_eq.trans hp
  rw [← hq.language_eq, matches?, he, search_whole_iff (isPlain_of_isRegular hqr),
    matchesAll_iff_language hqr]

/-- A token matches the words of the pattern that it is read as alone. -/
theorem matches?_iff {u : Token} (hu : u.Valid) {p : Pattern}
    (hread : Reader.alone? u.regex = some p) (hp : p.isRegular = true) (w : String) :
    u.matches? w = true ↔ w.toList ∈ p.language :=
  u.matches?_iff_of_readsInside hu (readsInside_of_alone? hread) hp w

end Token

end Stencil
