import Stencil.Proofs.Pattern.SteadyComposite
import Stencil.Proofs.Pattern.Inside

/-!
# Reading gets on

Whatever a function reads from the beginning of a composite expression, it leaves an end of it. A
step takes at least one sign (`step_length`), so that the fuel of a reader is enough to read to the
end (`run_rest`).
-/

namespace Stencil.Pattern.Composite

open Reader

variable {f : Flags} {r r' : Reader} {cs rest : List Char}

/-! ## Blanks and comments -/

theorem comment_suffix (h : trim.comment cs = .ok rest) : rest <:+ cs := by
  fun_induction trim.comment cs with
  | case1 => cases h
  | case2 cs =>
    cases h
    exact List.suffix_cons _ _
  | case3 d cs ih => exact (ih h).trans ⟨['\\', d], rfl⟩
  | case4 c cs hclose hescape ih => exact (ih h).trans (List.suffix_cons _ _)

theorem trim_suffix {n : Nat} (h : trim f n cs = .ok rest) : rest <:+ cs := by
  induction n generalizing cs with
  | zero =>
    cases h
    exact List.suffix_rfl
  | succ n ih =>
    cases cs with
    | nil =>
      cases h
      exact List.suffix_rfl
    | cons c cs =>
      by_cases hcomment : ∃ ds, c :: cs = '(' :: '?' :: '#' :: ds
      · obtain ⟨ds, hds⟩ := hcomment
        rw [hds, trim_comment_begin] at h
        obtain ⟨ds', hds', h⟩ := bind_eq_ok.1 h
        rw [hds]
        exact ((ih h).trans (comment_suffix hds')).trans ⟨['(', '?', '#'], rfl⟩
      have hother : ∀ ds, c :: cs ≠ '(' :: '?' :: '#' :: ds := fun ds hds => hcomment ⟨ds, hds⟩
      by_cases hc : c = '#'
      · subst hc
        rw [trim_hash] at h
        split at h
        · exact (((ih h).trans (List.drop_suffix 1 _)).trans (List.dropWhile_suffix _)).trans
            (List.suffix_cons _ _)
        · cases h
          exact List.suffix_rfl
      · rw [trim_other n hother hc] at h
        split at h
        · exact (ih h).trans (List.suffix_cons _ _)
        · cases h
          exact List.suffix_rfl

theorem skip_suffix (h : skip f cs = .ok rest) : rest <:+ cs := trim_suffix h

/-! ## Escape sequences and brackets -/

theorem readHexDigits_suffix (hf : f.ignoreSpace = false) {count value n : Nat}
    (h : readHexDigits f count value cs = .ok (n, rest)) : rest <:+ cs := by
  induction count generalizing value cs with
  | zero =>
    cases h
    exact List.suffix_rfl
  | succ count ih =>
    cases cs with
    | nil => cases h
    | cons c cs =>
      simp only [readHexDigits, Flags.trim_of_not hf] at h
      split at h
      · exact (ih h).trans (List.suffix_cons _ _)
      · cases h

theorem readHex_suffix {count : Nat} {c : Char} (h : readHex count cs = .ok (c, rest)) :
    rest <:+ cs := by
  simp only [readHex] at h
  split at h
  · obtain ⟨⟨n, ds⟩, hn, h⟩ := bind_eq_ok.1 h
    obtain ⟨d, -, h⟩ := bind_eq_ok.1 h
    cases h
    exact readHexDigits_suffix rfl hn
  · split at h
    · next inner _ =>
      split at h
      · cases h
      · obtain ⟨⟨n, ds⟩, hn, h⟩ := bind_eq_ok.1 h
        obtain ⟨d, -, h⟩ := bind_eq_ok.1 h
        cases h
        have hbrace : '\x7d' :: ds <:+ inner :=
          dropWhile_of_readHexBrace hn ▸ List.dropWhile_suffix _
        exact ((List.suffix_cons _ _).trans hbrace).trans (List.suffix_cons _ _)
    · cases h

theorem readProperty_suffix (hf : f.ignoreSpace = false) {negated : Bool} {a : Atom}
    (h : readProperty f negated cs = .ok (a, rest)) : rest <:+ cs := by
  have htake : ∀ {written ds}, takeProperty f cs = .ok (written, ds) → ds <:+ cs := by
    intro written ds h
    simp only [takeProperty, Flags.trim_of_not hf] at h
    split at h
    · cases h
    · next inner _ =>
      split at h
      · next c ds' hd =>
        cases h
        have hbrace : c :: ds <:+ inner := hd ▸ List.dropWhile_suffix _
        exact ((List.suffix_cons _ _).trans hbrace).trans (List.suffix_cons _ _)
      · cases h
    · split at h
      · cases h
      · cases h
        exact List.suffix_cons _ _
  by_cases hw : f.wide = true
  · simp only [readProperty, hw, Bool.not_true, Bool.false_eq_true, if_false] at h
    obtain ⟨⟨written, ds⟩, hd, h⟩ := bind_eq_ok.1 h
    simp only at h
    split at h
    · cases h
      exact htake hd
    · cases h
  · simp [readProperty, hw] at h
    cases h

theorem readEscape_suffix {inBracket : Bool} {e : Escaped}
    (h : readEscape f inBracket cs = .ok (e, rest)) : rest <:+ cs := by
  cases cs with
  | nil => cases h
  | cons c cs =>
    refine List.IsSuffix.trans ?_ (List.suffix_cons c cs)
    cases readEscape_cons_eq_ok.1 h with
    | property _ ha => exact readProperty_suffix rfl ha
    | hex _ hd => exact readHex_suffix hd
    | letter => exact List.suffix_rfl

theorem takeBracket_suffix {n depth : Nat} {taken taken' : List Char}
    (h : takeBracket f n depth taken cs = .ok (taken', rest)) : rest <:+ cs := by
  induction n generalizing depth taken cs with
  | zero => cases h
  | succ n ih =>
    cases cs with
    | nil => cases h
    | cons c cs =>
      have hcons := List.suffix_cons c cs
      simp only [takeBracket] at h
      split at h
      · split at h
        · cases h
        · next he => exact ((ih h).trans (readEscape_suffix he)).trans hcons
      split at h
      · exact (ih h).trans hcons
      split at h
      · split at h
        · cases h
          exact hcons
        · exact (ih h).trans hcons
      · exact (ih h).trans hcons

theorem takeFront_suffix (cs : List Char) : (takeFront cs).2 <:+ cs := by
  fun_cases takeFront cs with
  | case1 cs => exact ⟨['^', ']'], rfl⟩
  | case2 cs => exact List.suffix_cons _ _
  | case3 cs => exact List.suffix_cons _ _
  | case4 => exact List.suffix_rfl

theorem readBracket_suffix {s : CharSet} (h : readBracket f cs = .ok (s, rest)) : rest <:+ cs := by
  simp only [readBracket] at h
  obtain ⟨⟨taken, ds⟩, hd, h⟩ := bind_eq_ok.1 h
  obtain ⟨⟨s', es⟩, -, h⟩ := bind_eq_ok.1 h
  cases es with
  | nil =>
    cases h
    exact (takeBracket_suffix hd).trans (takeFront_suffix cs)
  | cons e es => cases h

/-! ## Repetitions -/

theorem readCount?_suffix {min : Nat} {max : Option Nat}
    (h : readCount? f cs = some (min, max, rest)) : rest <:+ cs := by
  have hmin : ∀ {cs ds n}, readMin? f cs = some (n, ds) → ds <:+ cs := by
    intro cs ds n h
    simp only [readMin?, Option.bind_eq_bind, Option.bind_eq_some_iff] at h
    obtain ⟨es, hes, h⟩ := h
    have hskip := skip_suffix (Trailing.skip_of_toOption hes)
    split at h
    · cases h
      exact hskip
    · obtain ⟨n, -, heq⟩ := Option.map_eq_some_iff.1 h
      cases heq
      exact (List.dropWhile_suffix _).trans hskip
  have hmax : ∀ {cs ds m}, readMax? f cs = some (m, ds) → ds <:+ cs := by
    intro cs ds m h
    simp only [readMax?, Option.bind_eq_bind, Option.bind_eq_some_iff] at h
    obtain ⟨es, hes, gs, hgs, h⟩ := h
    have hskip := skip_suffix (Trailing.skip_of_toOption hes)
    have hdrop : (if (number? es).isSome then es.dropWhile Char.isDigit else es) <:+ es := by
      split
      · exact List.dropWhile_suffix _
      · exact List.suffix_rfl
    have hskip' := skip_suffix (Trailing.skip_of_toOption hgs)
    split at h
    · cases h
      exact (((List.suffix_cons _ _).trans hskip').trans hdrop).trans hskip
    · cases h
  simp only [readCount?, Option.bind_eq_bind, Option.bind_eq_some_iff] at h
  obtain ⟨⟨n, ds⟩, hds, es, hes, h⟩ := h
  have hskip := (skip_suffix (Trailing.skip_of_toOption hes)).trans (hmin hds)
  split at h
  · cases h
    exact (List.suffix_cons _ _).trans hskip
  · obtain ⟨⟨m, gs⟩, hr, heq⟩ := Option.map_eq_some_iff.1 h
    cases heq
    exact ((hmax hr).trans (List.suffix_cons _ _)).trans hskip
  · cases h

theorem repeatLast_suffix {min : Nat} {max : Option Nat} (h : repeatLast r min max cs = .ok r') :
    r'.rest <:+ cs := by
  have hlazy : ∀ cs : List Char, (takeLazy cs).2 <:+ cs := by
    intro cs
    fun_cases takeLazy cs with
    | case1 cs => exact List.suffix_cons _ _
    | case2 => exact List.suffix_rfl
  have hhold : ∀ (p : Pattern) (cs : List Char), (takeHold p cs).2 <:+ cs := by
    intro p cs
    fun_cases takeHold p cs with
    | case1 cs => exact List.suffix_cons _ _
    | case2 => exact List.suffix_rfl
  unfold repeatLast at h
  split at h
  · split at h
    · cases h
    · obtain ⟨ds, hds, h⟩ := bind_eq_ok.1 h
      cases h
      exact ((hhold _ _).trans (hlazy ds)).trans (skip_suffix hds)
  · cases h

/-! ## Groups -/

theorem readFlags_suffix {any on lastMinus : Bool} {g : Flags} {stop : Char}
    (h : readFlags f any on lastMinus cs = .ok (g, stop, rest)) : rest <:+ cs := by
  induction cs generalizing f any on lastMinus with
  | nil => cases h
  | cons c cs ih =>
    have hcons := List.suffix_cons c cs
    simp only [readFlags] at h
    repeat' split at h
    all_goals first | (cases h; done) | (cases h; exact hcons) | exact (ih h).trans hcons

theorem openNamed_suffix (h : openNamed r cs = .ok r') : r'.rest <:+ cs := by
  unfold openNamed at h
  split at h
  · next hd =>
    rw [openCapture_eq h]
    exact (List.suffix_cons _ _).trans (hd ▸ List.dropWhile_suffix _)
  · cases h

theorem readReference_suffix (h : readReference r cs = .ok r') : r'.rest <:+ cs := by
  unfold readReference at h
  split at h
  · next hd =>
    simp only at h
    split at h
    · cases h
      exact (List.suffix_cons _ _).trans (hd ▸ List.dropWhile_suffix _)
    · cases h
  · cases h

theorem readGroup_suffix (h : readGroup r cs = .ok r') : r'.rest <:+ cs := by
  unfold readGroup at h
  split at h
  · cases h
  obtain ⟨ds, hds, h⟩ := bind_eq_ok.1 h
  refine List.IsSuffix.trans ?_ (skip_suffix hds)
  split at h
  · exact (openNamed_suffix h).trans ⟨['?', 'P', '<'], rfl⟩
  · exact (readReference_suffix h).trans ⟨['?', 'P', '='], rfl⟩
  · exact (openNamed_suffix h).trans ⟨['?', '<'], rfl⟩
  · obtain ⟨⟨g, stop, rest⟩, hflags, h⟩ := bind_eq_ok.1 h
    have hrest := (readFlags_suffix hflags).trans (List.suffix_cons '?' _)
    simp only at h
    split at h
    · rw [openGroup_eq h]
      exact hrest
    · cases h
      exact hrest
  · rw [openCapture_eq h]

theorem closeGroup_rest (h : closeGroup r cs = .ok r') : r'.rest = cs := by
  unfold closeGroup at h
  split at h
  · cases h
  · split at h <;> cases h <;> rfl

/-! ## Steps -/

theorem readSign_suffix {c : Char} (h : readSign r c cs = .ok r') : r'.rest <:+ cs := by
  simp only [readSign] at h
  split at h
  · exact readGroup_suffix h
  · exact closeGroup_rest h ▸ List.suffix_rfl
  · cases h
    exact List.suffix_rfl
  · obtain ⟨⟨s, ds⟩, hs, h⟩ := bind_eq_ok.1 h
    cases h
    exact readBracket_suffix hs
  · exact repeatLast_suffix h
  · exact repeatLast_suffix h
  · exact repeatLast_suffix h
  · split at h
    · next hcount =>
      split at hcount
      · exact (repeatLast_suffix h).trans (readCount?_suffix hcount)
      · cases hcount
    · cases h
      exact List.suffix_rfl
  · obtain ⟨⟨e, ds⟩, he, h⟩ := bind_eq_ok.1 h
    cases h
    cases e.atom <;> exact readEscape_suffix he
  · obtain ⟨p, -, h⟩ := bind_eq_ok.1 h
    cases h
    exact List.suffix_rfl
  all_goals
    cases h
    exact List.suffix_rfl

/-- A step takes a sign. -/
theorem step_length (hrest : r.rest ≠ []) (h : step r = .ok r') :
    r'.rest.length < r.rest.length := by
  obtain ⟨ds, hds, h⟩ := bind_eq_ok.1 h
  have hskip := (skip_suffix hds).length_le
  cases ds with
  | nil =>
    cases h
    exact List.length_pos_iff.2 hrest
  | cons c cs => exact Nat.lt_of_le_of_lt (readSign_suffix h).length_le hskip

/-- With fuel for each sign, a reader gets to the end. -/
theorem run_rest {n : Nat} (hn : r.rest.length ≤ n) (h : Reader.run step n r = .ok r') :
    r'.rest = [] := by
  induction n generalizing r with
  | zero =>
    cases h
    exact List.length_eq_zero_iff.1 (Nat.le_zero.1 hn)
  | succ n ih =>
    by_cases hrest : r.rest = []
    · rw [run_end hrest] at h
      cases h
      exact hrest
    · rw [run_step hrest] at h
      obtain ⟨r1, hr1, h⟩ := bind_eq_ok.1 h
      have := step_length hrest hr1
      exact ih (by omega) h

end Stencil.Pattern.Composite
