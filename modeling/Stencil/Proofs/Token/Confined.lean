import Stencil.Proofs.Pattern.PlainReading
import Stencil.Proofs.Pattern.Unenclosed
import Stencil.Proofs.Token.Matching

/-!
# Expressions that stay between their anchors

The expression of a token is put between anchors and a group around it. It stays there if and only
if it closes no group that it has not opened (`Token.confined_iff`): then it is an expression of its
own, and the token reads exactly the texts the whole of which it matches. An expression that closes
the group of the anchors gets out of them.
-/

namespace Stencil

open Pattern Pattern.Reader

/-- What is read between anchors is read alone, or closes a group that it has not opened. -/
theorem Pattern.Expression.read_of_read_anchor {regex : String} {e : Expression}
    (h : Expression.read (Token.anchor regex) = .ok e) :
    Expression.read regex = .error .unopenedGroup ∨
      ∃ a, Expression.read regex = .ok a ∧
        e = ⟨.concat [.check .textStart, a.pattern, .check .textEnd], a.names⟩ := by
  obtain ⟨R, hR, he⟩ := run_enclosed h
  obtain ⟨hopened, rfl, hsize⟩ := ofReader_eq_ok he
  have hrest : R.rest = [] := run_rest (by simp [enclosed]) hR
  let o : OpenGroup := ⟨(anchored []).contents, {}, none⟩
  have hwithin : enclosed (regex.toList ++ [')', '$']) = (start regex.toList).within o := rfl
  rw [hwithin] at hR
  have hlength : (start regex.toList).rest.length ≤ regex.toList.length + 1 := Nat.le_succ _
  rcases run_within hlength hR hrest hopened with herror | ⟨r, hr, hropened, rfl⟩
  · refine .inl ?_
    rw [Expression.read, readChars, herror]
    rfl
  · -- Alone the pattern takes less room than between anchors.
    have hle : r.contents.close.size ≤ sizeLimit := by
      have hanchored : 32 + (r.contents.close.size + 32) ≤ sizeLimit := hsize
      omega
    refine .inr ⟨⟨r.contents.close, r.names⟩, bind_eq_ok.2 ⟨r, hr, ?_⟩, rfl⟩
    simp only [ofReader, hropened]
    exact if_neg (Nat.not_lt.2 hle)

namespace Token

variable {name regex : String} {kind : Kind} {rule : RenderRule} {t : Token}

theorem parse_ne_mismatch_iff {s : String} :
    t.parse s ≠ .error (.mismatch t.name s) ↔ t.matches? s = true := by
  unfold parse
  split
  · next hmatches =>
    refine iff_of_true (fun h => ?_) hmatches
    unfold readValue at h
    split at h <;> cases h
  · next hmatches => exact iff_of_false (fun h => h rfl) hmatches

/-- **Confinement.** The expression of a token is well-formed on its own and the token reads just
the texts that the whole of it matches from end to end, if and only if the expression closes no
group that it has not opened. -/
theorem confined_iff (h : create name kind regex rule = .ok t) :
    (∃ e, Expression.read regex = .ok e ∧
      ∀ s : String, t.parse s ≠ .error (.mismatch t.name s) ↔
        e.pattern.MatchesAll s.toList.toArray) ↔
    Expression.read regex ≠ .error .unopenedGroup := by
  constructor
  · rintro ⟨e, he, -⟩ herror
    rw [he] at herror
    cases herror
  · intro hclosed
    obtain ⟨-, hanchor, -⟩ := create_eq h
    obtain ⟨e, he, hanchored⟩ := (Expression.read_of_read_anchor hanchor).resolve_left hclosed
    refine ⟨e, he, fun s => ?_⟩
    rw [parse_ne_mismatch_iff, matches?, hanchored]
    exact search_whole_iff (Expression.isPlain_of_read he)

/-- One of two words, the second between boundaries; its expression has alternatives outside all
groups. -/
def boundedWord : Token where
  name := "w"
  kind := .custom
  regex := "a|\\b(c+?)\\b"
  anchored := ⟨.concat [.check .textStart, .alt (.char 'a') (.concat [.check (.wordBoundary true),
    .group 1 (.repeated (.char 'c') 1 none false), .check (.wordBoundary true)]),
      .check .textEnd], []⟩
  rule := .typed none
  description := ""
  default := none

theorem confined_iff_boundedWord :
    create "w" .custom boundedWord.regex (.typed none) = .ok boundedWord ∧
      Expression.read boundedWord.regex ≠ .error .unopenedGroup ∧
      (∃ e, Expression.read boundedWord.regex = .ok e ∧
        ∀ s : String, boundedWord.parse s ≠ .error (.mismatch "w" s) ↔
          e.pattern.MatchesAll s.toList.toArray) ∧
      boundedWord.parse "cc" ≠ .error (.mismatch "w" "cc") ∧
      boundedWord.parse "ac" = .error (.mismatch "w" "ac") := by
  have hcreate : create "w" .custom boundedWord.regex (.typed none) = .ok boundedWord := rfl
  have hclosed : Expression.read boundedWord.regex ≠ .error .unopenedGroup := by decide
  have hconfined := (confined_iff hcreate).2 hclosed
  refine ⟨hcreate, hclosed, hconfined, ?_⟩
  obtain ⟨e, he, hreads⟩ := hconfined
  have hpattern : e.pattern = .alt (.char 'a') (.concat [.check (.wordBoundary true),
    .group 1 (.repeated (.char 'c') 1 none false), .check (.wordBoundary true)]) := by
    cases he
    rfl
  constructor
  · refine (hreads "cc").2 ?_
    rw [hpattern]
    exact .inr ⟨0, ⟨rfl, rfl⟩, 2, ⟨1, by simp, 1, ⟨rfl, 'c', rfl, rfl⟩, 2, ⟨rfl, 'c', rfl, rfl⟩,
      rfl⟩, rfl, rfl⟩
  · by_contra hmatches
    have hall := (hreads "ac").1 hmatches
    rw [hpattern] at hall
    rcases hall with ⟨h, -⟩ | ⟨k, ⟨rfl, -⟩, l, ⟨n, -, hrounds⟩, -⟩
    · cases h
    · rw [Nat.add_comm] at hrounds
      obtain ⟨m, ⟨-, c, hc, hmem⟩, -⟩ := hrounds
      cases hc
      revert hmem
      decide

/-- An expression that closes the group around it and opens another one. -/
def unfenced : Token where
  name := "x"
  kind := .custom
  regex := "a)|(?:b"
  anchored := ⟨.alt (.concat [.check .textStart, .char 'a']) (.concat [.char 'b', .check .textEnd]),
    []⟩
  rule := .typed none
  description := ""
  default := none

/-- An expression gets out of its anchors: it is none on its own, and a text is read of which it
matches the beginning alone. -/
theorem create_unfenced : create "x" .custom "a)|(?:b" (.typed none) = .ok unfenced ∧
    Expression.read "a)|(?:b" = .error .unopenedGroup ∧ unfenced.parse "ac" = .ok (.text "ac") :=
  ⟨rfl, rfl, rfl⟩

end Token

end Stencil
