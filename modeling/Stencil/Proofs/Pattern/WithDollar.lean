import Stencil.Proofs.Pattern.Progress
import Stencil.Proofs.Pattern.ShortenedSearch

/-!
# Reading with a dollar sign behind

An expression with a dollar sign behind is read like the expression alone up to there
(`run_dollar`). The sign then asks for the end of the text behind the last alternative, unless a
comment goes on over it: in either way the pattern is that of the expression alone with its end
(`ended_of_read`). Whether a brace begins a count does not change, for a dollar sign closes none
(`readCount?_dollar`).
-/

namespace Stencil.Pattern

/-! ## Patterns -/

namespace Ended

variable {a : Assertion} {p p' : Pattern}

theorem concat (ha : a.isEnd = true) (ps : List Pattern) :
    Ended (.concat ps) (.concat (ps ++ [.check a])) := by
  induction ps with
  | nil => exact .only ha
  | cons p ps ih =>
    cases ps with
    | nil => exact .behind ha p
    | cons q ps => exact .seq p ih

theorem choice (h : Ended p p') (ps : List Pattern) :
    Ended (.choice (ps ++ [p])) (.choice (ps ++ [p'])) := by
  induction ps with
  | nil => exact h
  | cons q ps ih =>
    cases ps with
    | nil => exact .alt q ih
    | cons q' ps => exact .alt q ih

end Ended

/-- The end of a text is added to the last alternative. -/
theorem Contents.ended_push {a : Assertion} (ha : a.isEnd = true) (c : Contents) :
    Ended c.close (c.push (.check a)).close := by
  have hbranch : Ended c.branch (c.push (.check a)).branch := by
    have hitems : (c.push (.check a)).branch =
        .concat ((c.items.filterMap Item.pattern?).reverse ++ [.check a]) := by
      simp [branch, push, Item.pattern?]
    rw [hitems]
    exact .concat ha _
  simp only [close, List.reverse_cons]
  exact .choice hbranch _

/-- The reader with a dollar sign behind what it has to read. -/
def Reader.withDollar (r : Reader) : Reader := { r with rest := r.rest ++ ['$'] }

namespace Composite

open Reader

variable {f : Flags} {r r' : Reader} {x x' : Except Fault Reader} {cs rest : List Char}

theorem stops_dollar : Stops ['$'] := .dollar []

/-! ## Blanks, comments and counts -/

theorem comment_dollar (cs : List Char) :
    trim.comment (cs ++ ['$']) = (trim.comment cs).map (· ++ ['$']) := by
  fun_induction trim.comment cs with
  | case1 => rfl
  | case2 cs => rfl
  | case3 d cs ih =>
    rw [List.cons_append, List.cons_append, trim.comment]
    exact ih
  | case4 c cs hclose hescape ih =>
    by_cases hc : c = '\\'
    · -- A backslash at the end escapes nothing, and behind it nothing closes the comment.
      have hnil : cs = [] := by
        cases cs with
        | nil => rfl
        | cons d ds => exact (hescape d ds hc rfl).elim
      rw [hc, hnil]
      rfl
    · rw [List.cons_append, trim.comment]
      · exact ih
      · exact hclose
      · exact fun _ _ h _ => hc h

theorem trim_dollar {n m : Nat} {cs : List Char} (hn : cs.length < n) (hm : cs.length < m) :
    trim f m (cs ++ ['$']) = (trim f n cs).map (· ++ ['$']) ∨
      (trim f n cs = .ok [] ∧ trim f m (cs ++ ['$']) = .ok []) := by
  induction n generalizing m cs with
  | zero => omega
  | succ n ih =>
    obtain ⟨m, rfl⟩ : ∃ k, m = k + 1 := ⟨m - 1, by omega⟩
    cases cs with
    | nil => exact .inl (trim_stop stops_dollar m)
    | cons c cs =>
      simp only [List.length_cons] at hn hm
      by_cases hcomment : ∃ ds, c :: cs = '(' :: '?' :: '#' :: ds
      · obtain ⟨ds, hds⟩ := hcomment
        have hlen := congrArg List.length hds
        simp only [List.length_cons] at hlen
        rw [hds]
        simp only [List.cons_append, trim_comment_begin, comment_dollar]
        cases hds' : trim.comment ds with
        | error e => exact .inl rfl
        | ok es =>
          have hle := (comment_suffix hds').length_le
          exact ih (by omega) (by omega)
      have hother : ∀ ds, c :: cs ≠ '(' :: '?' :: '#' :: ds := fun ds hds => hcomment ⟨ds, hds⟩
      rw [List.cons_append]
      by_cases hc : c = '#'
      · subst hc
        rw [trim_hash, trim_hash]
        by_cases hf : f.ignoreSpace = true
        · rw [if_pos hf, if_pos hf]
          cases hline : cs.dropWhile (· ≠ '\n') with
          | nil =>
            -- The comment goes on to the end, and over the sign.
            have hall : (cs ++ ['$']).dropWhile (· ≠ '\n') = [] := by
              rw [List.dropWhile_append, hline]
              rfl
            rw [hall]
            refine .inr ⟨?_, ?_⟩
            · cases n <;> rfl
            · cases m <;> rfl
          | cons d ds =>
            rw [(takeWhile_append_of_dropWhile hline ['$']).2]
            have hle := (List.dropWhile_suffix (· ≠ '\n') (l := cs)).length_le
            rw [hline, List.length_cons] at hle
            have hlen : ds.length < n ∧ ds.length < m := by omega
            exact ih hlen.1 hlen.2
        · rw [if_neg hf, if_neg hf]
          exact .inl rfl
      · rw [trim_other n hother hc, trim_other m (not_comment_append stops_dollar hother) hc]
        split
        · exact ih (by omega) (by omega)
        · exact .inl rfl

/-- Skipping stops before the sign, unless a comment goes on over it. -/
theorem skip_dollar (f : Flags) (cs : List Char) :
    skip f (cs ++ ['$']) = (skip f cs).map (· ++ ['$']) ∨
    (skip f cs = .ok [] ∧ skip f (cs ++ ['$']) = .ok []) :=
  trim_dollar (Nat.lt_succ_self _) (by rw [List.length_append]; omega)

/-- What is read behind a skip leaves the sign behind, where it does so without the skip and reads
nothing off the end of the expression. -/
theorem skip_bind_dollar {β : Type} {g : List Char → Option β} {leave : β → β}
    (f : Flags) (cs : List Char) (hnil : g [] = none)
    (h : ∀ ds, g (ds ++ ['$']) = (g ds).map leave) :
    (skip f (cs ++ ['$'])).toOption.bind g = ((skip f cs).toOption.bind g).map leave := by
  rcases skip_dollar f cs with hskip | ⟨hskip, hskip'⟩
  · rw [hskip]
    cases skip f cs with
    | error e => rfl
    | ok ds => exact h ds
  · rw [hskip, hskip']
    simp only [Except.toOption, Option.bind_some, hnil, Option.map_none]

theorem readMin?_dollar (f : Flags) (cs : List Char) :
    readMin? f (cs ++ ['$']) = (readMin? f cs).map fun b => (b.1, b.2 ++ ['$']) := by
  refine skip_bind_dollar f cs rfl fun ds => ?_
  have hhead : (ds ++ ['$']).head? = some ',' ↔ ds.head? = some ',' := by cases ds <;> simp
  simp only [hhead, number?_append stops_dollar, dropDigits_append stops_dollar]
  split
  · rfl
  · rw [Option.map_map]
    rfl

theorem readMax?_dollar (f : Flags) (cs : List Char) :
    readMax? f (cs ++ ['$']) = (readMax? f cs).map fun b => (b.1, b.2 ++ ['$']) := by
  refine skip_bind_dollar f cs rfl fun ds => ?_
  have hdrop : (if (number? ds).isSome then (ds ++ ['$']).dropWhile Char.isDigit else ds ++ ['$']) =
      (if (number? ds).isSome then ds.dropWhile Char.isDigit else ds) ++ ['$'] := by
    rw [dropDigits_append stops_dollar]
    split <;> rfl
  simp only [number?_append stops_dollar, hdrop]
  refine skip_bind_dollar f _ rfl fun es => ?_
  cases es with
  | nil => rfl
  | cons c es =>
    by_cases hbrace : c = '\x7d'
    · subst hbrace
      rfl
    · simp [hbrace]

/-- A dollar sign closes no count. -/
theorem readCount?_dollar (f : Flags) (cs : List Char) :
    readCount? f (cs ++ ['$']) = (readCount? f cs).map fun b => (b.1, b.2.1, b.2.2 ++ ['$']) := by
  unfold readCount?
  rw [readMin?_dollar]
  cases readMin? f cs with
  | none => rfl
  | some b =>
    refine skip_bind_dollar f b.2 rfl fun ds => ?_
    cases ds with
    | nil => rfl
    | cons c ds =>
      by_cases hbrace : c = '\x7d'
      · subst hbrace
        rfl
      by_cases hcomma : c = ','
      · subst hcomma
        simp [readMax?_dollar, Function.comp_def]
      · simp [hbrace, hcomma]

/-! ## Reading on -/

/-- What reading on comes to with a dollar sign behind: the sign is left behind, unless a comment
has gone on over it to the end. -/
def GoesOn (x x' : Except Fault Reader) : Prop :=
  ∀ r, x = .ok r → x' = .ok r.withDollar ∨ (r.rest = [] ∧ x' = .ok r)

theorem repeatLast_dollar (r : Reader) (min : Nat) (max : Option Nat) (cs : List Char) :
    GoesOn (repeatLast r min max cs) (repeatLast r min max (cs ++ ['$'])) := by
  intro r' h
  unfold repeatLast at h ⊢
  split at h
  · next p items hitems =>
    split at h
    · cases h
    · next hrepeat =>
      rw [if_neg hrepeat]
      obtain ⟨ds, hds, h⟩ := bind_eq_ok.1 h
      cases h
      rcases skip_dollar r.flags cs with hskip | ⟨hskip, hskip'⟩
      · rw [hds] at hskip
        refine .inl (bind_eq_ok.2 ⟨_, hskip, ?_⟩)
        simp only [takeLazy_append stops_dollar, takeHold_append stops_dollar]
        rfl
      · rw [hskip] at hds
        cases hds
        exact .inr ⟨rfl, bind_eq_ok.2 ⟨_, hskip', rfl⟩⟩
  · cases h

theorem openCapture_dollar (h : r.openCapture cs = .ok r') :
    r.openCapture (cs ++ ['$']) = .ok r'.withDollar := by
  simp only [openCapture, openGroup] at h ⊢
  split at h
  · cases h
  · next hdepth =>
    cases h
    rw [if_neg hdepth]
    rfl

theorem openNamed_dollar (h : openNamed r cs = .ok r') :
    openNamed r (cs ++ ['$']) = .ok r'.withDollar := by
  unfold openNamed at h ⊢
  split at h
  · next c name rest hname hd =>
    obtain ⟨htake, hdrop⟩ := takeWhile_append_of_dropWhile hd ['$']
    rw [htake, hdrop, hname]
    exact openCapture_dollar h
  · cases h

theorem readReference_dollar (h : readReference r cs = .ok r') :
    readReference r (cs ++ ['$']) = .ok r'.withDollar := by
  unfold readReference at h ⊢
  split at h
  · next c name rest hname hd =>
    obtain ⟨htake, hdrop⟩ := takeWhile_append_of_dropWhile hd ['$']
    rw [htake, hdrop, hname]
    simp only at h
    split at h
    · next i hi =>
      cases h
      simp only [List.cons_append, hi]
      rfl
    · cases h
  · cases h

theorem readSetting_dollar (h : readSetting r cs = .ok r') :
    readSetting r (cs ++ ['$']) = .ok r'.withDollar := by
  obtain ⟨⟨g, stop, tail⟩, hflags, h⟩ := bind_eq_ok.1 h
  refine bind_eq_ok.2 ⟨_, readFlags_append hflags, ?_⟩
  simp only [openGroup] at h ⊢
  split at h
  · next hstop =>
    rw [if_pos hstop]
    split at h
    · cases h
    · next hdepth =>
      cases h
      rw [if_neg hdepth]
      rfl
  · next hstop =>
    cases h
    rw [if_neg hstop]
    rfl

theorem readHead_dollar (h : readHead r cs = .ok r') :
    readHead r (cs ++ ['$']) = .ok r'.withDollar := by
  have hcases : ∀ {g : Reader → List Char → Except Fault Reader} {rest : List Char},
      (∀ {r'}, g r rest = .ok r' → g r (rest ++ ['$']) = .ok r'.withDollar) →
      (∀ more r, more = [] ∨ Stops more → readHead r (cs ++ more) = g r (rest ++ more)) →
      readHead r (cs ++ ['$']) = .ok r'.withDollar := by
    intro g rest hg heq
    have hhead : readHead r cs = g r rest := by simpa using heq [] r (.inl rfl)
    rw [heq _ r (.inr stops_dollar)]
    exact hg (hhead ▸ h)
  cases head_cases cs with
  | named rest heq => exact hcases openNamed_dollar heq
  | reference rest heq => exact hcases readReference_dollar heq
  | setting rest heq => exact hcases readSetting_dollar heq
  | capture heq => exact hcases (g := openCapture) openCapture_dollar heq

theorem readGroup_dollar (r : Reader) (cs : List Char) :
    GoesOn (readGroup r cs) (readGroup r (cs ++ ['$'])) := by
  intro r' h
  rw [readGroup_eq] at h ⊢
  split at h
  · cases h
  next hdepth =>
  rw [if_neg hdepth]
  obtain ⟨ds, hds, h⟩ := bind_eq_ok.1 h
  rcases skip_dollar r.flags cs with hskip | ⟨hskip, hskip'⟩
  · rw [hds] at hskip
    exact .inl (bind_eq_ok.2 ⟨_, hskip, readHead_dollar h⟩)
  · rw [hskip] at hds
    cases hds
    obtain rfl := openCapture_eq h
    exact .inr ⟨rfl, bind_eq_ok.2 ⟨_, hskip', h⟩⟩

theorem closeGroup_dollar (h : closeGroup r cs = .ok r') :
    closeGroup r (cs ++ ['$']) = .ok r'.withDollar := by
  unfold closeGroup at h ⊢
  split at h
  · cases h
  · split at h <;> cases h <;> rfl

theorem goesOn_left {x' : Except Fault Reader} (h : ∀ r', x = .ok r' → x' = .ok r'.withDollar) :
    GoesOn x x' :=
  fun r' hr => .inl (h r' hr)

theorem pushAtom_dollar (r : Reader) (a : Atom) (cs : List Char) :
    r.pushAtom a (cs ++ ['$']) = (r.pushAtom a cs).withDollar := by
  cases a <;> rfl

theorem readSign_dollar (r : Reader) (c : Char) (cs : List Char) :
    GoesOn (readSign r c cs) (readSign r c (cs ++ ['$'])) := by
  unfold readSign
  split
  · exact readGroup_dollar r cs
  · exact goesOn_left fun r' => closeGroup_dollar
  · refine goesOn_left fun r' h => ?_
    cases h
    rfl
  · refine goesOn_left fun r' h => ?_
    obtain ⟨⟨s, ds⟩, hs, h⟩ := bind_eq_ok.1 h
    cases h
    exact bind_eq_ok.2 ⟨_, readBracket_append stops_dollar hs, rfl⟩
  · exact repeatLast_dollar r 0 (some 1) cs
  · exact repeatLast_dollar r 0 none cs
  · exact repeatLast_dollar r 1 none cs
  · have hcount : (if expectsCount r then readCount? r.flags (cs ++ ['$']) else none) =
        (if expectsCount r then readCount? r.flags cs else none).map fun b =>
        (b.1, b.2.1, b.2.2 ++ ['$']) := by
      rw [readCount?_dollar]
      split <;> rfl
    rw [hcount]
    cases if expectsCount r then readCount? r.flags cs else none with
    | none =>
      refine goesOn_left fun r' h => ?_
      cases h
      rfl
    | some b => exact repeatLast_dollar r b.1 b.2.1 b.2.2
  · refine goesOn_left fun r' h => ?_
    obtain ⟨⟨e, ds⟩, he, h⟩ := bind_eq_ok.1 h
    cases h
    refine bind_eq_ok.2 ⟨_, readEscape_append stops_dollar false he, ?_⟩
    exact congrArg Except.ok (pushAtom_dollar r e.atom ds)
  · refine goesOn_left fun r' h => ?_
    obtain ⟨p, hp, h⟩ := bind_eq_ok.1 h
    cases h
    exact bind_eq_ok.2 ⟨p, hp, rfl⟩
  all_goals
    refine goesOn_left fun r' h => ?_
    cases h
    rfl

/-- A step with a dollar sign behind leaves it behind, or is the last one: a comment may go on over
the sign, and what is skipped up to it is skipped before it is read. -/
theorem step_dollar (h : step r = .ok r') :
    step r.withDollar = .ok r'.withDollar ∨
      (r'.rest = [] ∧
        (step r.withDollar = .ok r' ∨ step r.withDollar = .ok (r'.push r'.dollar []))) := by
  obtain ⟨ds, hds, h⟩ := bind_eq_ok.1 h
  rcases skip_dollar r.flags r.rest with hskip | ⟨hskip, hskip'⟩
  · rw [hds] at hskip
    cases ds with
    | nil =>
      cases h
      exact .inr ⟨rfl, .inr (bind_eq_ok.2 ⟨['$'], hskip, rfl⟩)⟩
    | cons c cs =>
      refine (readSign_dollar r c cs r' h).imp (fun hgoes => ?_) fun ⟨hrest, hgoes⟩ =>
        ⟨hrest, .inl ?_⟩
      · exact bind_eq_ok.2 ⟨_, hskip, hgoes⟩
      · exact bind_eq_ok.2 ⟨_, hskip, hgoes⟩
  · rw [hskip] at hds
    cases hds
    cases h
    exact .inr ⟨rfl, .inl (bind_eq_ok.2 ⟨_, hskip', rfl⟩)⟩

/-- Reading to the end with a dollar sign behind comes to the same, with the end of the text asked
for or not. -/
theorem run_dollar {n m : Nat} (hm : n < m) (h : Reader.run step n r = .ok r')
    (hrest : r'.rest = []) :
    Reader.run step m r.withDollar = .ok r' ∨
    Reader.run step m r.withDollar = .ok (r'.push r'.dollar []) := by
  have hne : ∀ r : Reader, r.withDollar.rest ≠ [] := fun r => by simp [withDollar]
  have hend : ∀ {m : Nat} {r : Reader}, 0 < m → r.rest = [] →
      Reader.run step m r.withDollar = .ok (r.push r.dollar []) := by
    intro m r hm hr
    obtain ⟨m, rfl⟩ := Nat.exists_eq_succ_of_ne_zero (Nat.ne_of_gt hm)
    have hskip : skip r.flags r.withDollar.rest = .ok ['$'] := by
      rw [withDollar, hr]
      exact trim_stop stops_dollar _
    have hstep : step r.withDollar = .ok (r.push r.dollar []) := bind_eq_ok.2 ⟨_, hskip, rfl⟩
    rw [run_step (hne r), hstep]
    exact run_end rfl
  induction n generalizing m r with
  | zero =>
    cases h
    exact .inr (hend hm hrest)
  | succ n ih =>
    by_cases hr : r.rest = []
    · rw [run_end hr] at h
      cases h
      exact .inr (hend (Nat.zero_lt_of_lt hm) hr)
    obtain ⟨m, rfl⟩ : ∃ k, m = k + 1 := ⟨m - 1, by omega⟩
    rw [run_step hr] at h
    rw [run_step (hne r)]
    obtain ⟨r1, hr1, h⟩ := bind_eq_ok.1 h
    rcases step_dollar hr1 with hstep | ⟨hrest1, hstep | hstep⟩
    · rw [hstep]
      exact ih (by omega) h
    all_goals
      rw [run_end hrest1] at h
      cases h
      rw [hstep]
    · exact .inl (run_end hrest1)
    · exact .inr (run_end rfl)

theorem isEnd_dollar (r : Reader) : ∃ a, r.dollar = .check a ∧ a.isEnd = true := by
  unfold dollar
  split
  · exact ⟨_, rfl, rfl⟩
  · exact ⟨_, rfl, rfl⟩

/-- The expression with a dollar sign behind has the groups of the expression alone, and its pattern
with the end of the text. -/
theorem ended_of_read {e e' : Expression} (h : readChars cs = .ok e)
    (h' : readChars (cs ++ ['$']) = .ok e') : e'.names = e.names ∧ Ended e.pattern e'.pattern := by
  obtain ⟨r, hr, he⟩ := bind_eq_ok.1 h
  obtain ⟨r', hr', he'⟩ := bind_eq_ok.1 h'
  obtain ⟨-, rfl, -⟩ := Expression.ofReader_eq_ok he
  obtain ⟨-, rfl, -⟩ := Expression.ofReader_eq_ok he'
  have hrest : r.rest = [] := run_rest (Nat.le_succ _) hr
  have hlen : cs.length + 1 < (cs ++ ['$']).length + 1 := by simp
  have hrun := run_dollar hlen hr hrest
  rw [show (Reader.start cs).withDollar = .start (cs ++ ['$']) from rfl, hr'] at hrun
  rcases hrun with hrun | hrun
  · cases hrun
    exact ⟨rfl, .same _⟩
  · cases hrun
    obtain ⟨a, ha, hend⟩ := isEnd_dollar r
    refine ⟨rfl, ?_⟩
    simp only [push, ha]
    exact Contents.ended_push hend _

end Composite

end Stencil.Pattern
