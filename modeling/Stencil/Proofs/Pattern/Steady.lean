import Stencil.Pattern.Composite
import Mathlib.Data.List.TakeWhile

/-!
# Reading with more behind

The expression of a token is read alone and, as part of the expression of a template, with a closing
parenthesis and more behind it. `Steady` says of a function that takes something from the beginning
of a text that it takes the same in both. The functions that read the parts of an expression are all
steady (`readBracket_append`, `steady_readEscape` and the others), as long as what they leave is not
all skipped as blanks and comments. At the very end of an expression it may be: then blanks do no
harm, and a comment that goes on takes the parenthesis with it (`Closing`).
-/

namespace Stencil

/-- A computation that goes on with the result of another one succeeds if both do. -/
theorem bind_eq_ok {ε α β : Type} {x : Except ε α} {f : α → Except ε β} {b : β} :
    (x >>= f) = .ok b ↔ ∃ a, x = .ok a ∧ f a = .ok b := by
  cases x with
  | error e => simp [bind, Except.bind]
  | ok a => simp [bind, Except.bind]

namespace Pattern

/-- At the end of an expression no group is open, and what has been read is not too large. -/
theorem Expression.ofReader_eq_ok {r : Reader} {e : Expression} (h : ofReader r = .ok e) :
    r.opened = [] ∧ e = ⟨r.contents.close, r.names⟩ ∧ e.pattern.size ≤ sizeLimit := by
  unfold ofReader at h
  split at h
  · cases h
  · next hopened =>
    simp only at h
    split at h
    · cases h
    · next hsize =>
      cases h
      exact ⟨by simpa using hopened, rfl, Nat.le_of_not_lt hsize⟩

/-- What a function takes from the beginning of a text it also takes with more behind. -/
def Steady {α : Type} (f : Flags) (more : List Char)
    (g : List Char → Except Fault (α × List Char)) : Prop :=
  ∀ ⦃cs a rest⦄, g cs = .ok (a, rest) → (f.ignoreSpace = true → rest ≠ []) →
    g (cs ++ more) = .ok (a, rest ++ more)

/-- What a function takes from the beginning of a text it also takes with a closing parenthesis
behind, unless what it leaves was skipped as a comment, which then goes on over the parenthesis. -/
def Closing {α : Type} (f : Flags) (g : List Char → Except Fault (α × List Char)) : Prop :=
  ∀ ⦃cs a rest⦄, g cs = .ok (a, rest) →
    (∀ more, g (cs ++ ')' :: more) = .ok (a, rest ++ ')' :: more)) ∨
      (f.ignoreSpace = true ∧ rest = [] ∧ g (cs ++ [')', '$']) = .ok (a, []))

/-- Text behind a part of an expression that begins with a sign that no such part takes: a
parenthesis that closes its group, or a dollar sign. -/
inductive Stops : List Char → Prop
  | parenthesis (cs : List Char) : Stops (')' :: cs)
  | dollar (cs : List Char) : Stops ('$' :: cs)

theorem Stops.ne_nil {more : List Char} (h : Stops more) : more ≠ [] := by
  cases h <;> exact List.cons_ne_nil _ _

theorem Closing.steady {α : Type} {f : Flags} {more : List Char}
    {g : List Char → Except Fault (α × List Char)} (h : Closing f g)
    (hmore : ∃ cs, more = ')' :: cs) : Steady f more g := by
  intro cs a rest hg hrest
  obtain ⟨more, rfl⟩ := hmore
  obtain hall | ⟨hf, hnil, -⟩ := h hg
  · exact hall more
  · exact absurd hnil (hrest hf)

/-! ## Blanks and comments -/

mutual

theorem skipBlanks_append (more : List Char) :
    ∀ cs : List Char, skipBlanks cs ≠ [] → skipBlanks (cs ++ more) = skipBlanks cs ++ more
  | [], h => absurd rfl h
  | c :: cs, h => by
    rw [skipBlanks] at h
    rw [List.cons_append, skipBlanks, skipBlanks]
    split
    · next hc =>
      rw [if_pos hc] at h
      exact skipBlanks_append more cs h
    · next hc =>
      rw [if_neg hc] at h
      split
      · next hc' =>
        rw [if_pos hc'] at h
        exact skipComment_append more cs h
      · rfl

theorem skipComment_append (more : List Char) :
    ∀ cs : List Char, skipComment cs ≠ [] → skipComment (cs ++ more) = skipComment cs ++ more
  | [], h => absurd rfl h
  | c :: cs, h => by
    rw [skipComment] at h
    rw [List.cons_append, skipComment, skipComment]
    split
    · next hc =>
      rw [if_pos hc] at h
      exact skipBlanks_append more cs h
    · next hc =>
      rw [if_neg hc] at h
      exact skipComment_append more cs h

end

mutual

/-- What is skipped at the end of a text ends there with a parenthesis behind, or goes on as a
comment. -/
theorem skipBlanks_closing : ∀ cs : List Char,
    (∀ more, skipBlanks (cs ++ ')' :: more) = skipBlanks cs ++ ')' :: more) ∨
      (skipBlanks cs = [] ∧ skipBlanks (cs ++ [')', '$']) = [])
  | [] => .inl fun _ => by
    have hspace : ¬ Unicode.isSpace ')' = true := by decide
    simp [skipBlanks, hspace]
  | c :: cs => by
    simp only [List.cons_append, skipBlanks]
    split
    · exact skipBlanks_closing cs
    · split
      · exact skipComment_closing cs
      · exact .inl fun _ => rfl

theorem skipComment_closing : ∀ cs : List Char,
    (∀ more, skipComment (cs ++ ')' :: more) = skipComment cs ++ ')' :: more) ∨
      (skipComment cs = [] ∧ skipComment (cs ++ [')', '$']) = [])
  | [] => .inr ⟨by rw [skipComment], by simp [skipComment]⟩
  | c :: cs => by
    simp only [List.cons_append, skipComment]
    split
    · exact skipBlanks_closing cs
    · exact skipComment_closing cs

end

namespace Flags

variable {f : Flags} {cs more : List Char}

theorem trim_closing (f : Flags) (cs : List Char) :
    (∀ more, f.trim (cs ++ ')' :: more) = f.trim cs ++ ')' :: more) ∨
      (f.ignoreSpace = true ∧ f.trim cs = [] ∧ f.trim (cs ++ [')', '$']) = []) := by
  unfold trim
  by_cases hf : f.ignoreSpace = true
  · simp only [hf, if_true, true_and]
    exact skipBlanks_closing cs
  · simp only [if_neg hf]
    exact .inl fun _ => trivial

theorem trim_append (h : f.ignoreSpace = true → f.trim cs ≠ []) :
    f.trim (cs ++ more) = f.trim cs ++ more := by
  by_cases hf : f.ignoreSpace = true
  · have hne := h hf
    simp only [trim, if_pos hf] at hne ⊢
    exact skipBlanks_append more cs hne
  · simp only [trim, if_neg hf]

@[simp] theorem trim_nil (f : Flags) : f.trim [] = [] := by
  simp [trim, skipBlanks]

theorem trim_parenthesis (f : Flags) (cs : List Char) : f.trim (')' :: cs) = ')' :: cs := by
  have hspace : ¬ Unicode.isSpace ')' = true := by decide
  simp [trim, skipBlanks, hspace]

theorem trim_of_not (hf : f.ignoreSpace = false) (cs : List Char) : f.trim cs = cs := by
  simp [trim, hf]

end Flags

section Runs

variable {p : Char → Bool} {cs : List Char}

/-- A run that ends before the end of a text ends there with more behind. -/
theorem takeWhile_append_of_dropWhile {c : Char} {rest : List Char} (h : cs.dropWhile p = c :: rest)
    (more : List Char) :
    (cs ++ more).takeWhile p = cs.takeWhile p ∧ (cs ++ more).dropWhile p = c :: rest ++ more := by
  have hne : (cs.takeWhile p).length ≠ cs.length := by
    intro hlen
    have := congrArg List.length (List.takeWhile_append_dropWhile (p := p) (l := cs))
    simp [h] at this
    omega
  constructor
  · rw [List.takeWhile_append, if_neg hne]
  · rw [List.dropWhile_append, h]
    rfl

end Runs

section Ahead

variable {cs more rest : List Char}

/-- A beginning that holds no parenthesis is one of the text in front. -/
theorem exists_of_append_eq (pre : List Char) (hpre : ')' ∉ pre)
    (h : cs ++ ')' :: more = pre ++ rest) : ∃ ds, cs = pre ++ ds ∧ rest = ds ++ ')' :: more := by
  rcases List.append_eq_append_iff.1 h with ⟨as, has, hmore⟩ | ⟨bs, hbs, hrest⟩
  · cases as with
    | nil => exact ⟨[], by rw [has, List.append_nil, List.append_nil], hmore.symm⟩
    | cons a as =>
      obtain ⟨rfl, -⟩ := List.cons.inj hmore
      exact absurd (has ▸ List.mem_append_right _ (List.mem_cons_self ..)) hpre
  · exact ⟨bs, hbs, hrest⟩

end Ahead

/-! ## Escape sequences -/

section

variable {f : Flags} {more : List Char}

theorem closing_readHexDigits (count value : Nat) : Closing f (readHexDigits f count value) := by
  induction count generalizing value with
  | zero =>
    intro cs a rest h
    cases h
    exact .inl fun _ => rfl
  | succ count ih =>
    intro cs a rest h
    cases cs with
    | nil => cases h
    | cons c cs =>
      simp only [readHexDigits, List.cons_append] at h ⊢
      cases hv : hexValue? c with
      | none => simp [hv] at h
      | some v =>
        simp only [hv] at h ⊢
        obtain htrim | ⟨hf, hnil, hend⟩ := f.trim_closing cs
        · simp only [htrim]
          refine (ih _ h).imp_right fun ⟨hf, hrest, hdigits⟩ => ⟨hf, hrest, ?_⟩
          exact hdigits
        · -- The comment follows the last digit.
          rw [hnil] at h
          rw [hend]
          cases count with
          | zero =>
            cases h
            exact .inr ⟨hf, rfl, rfl⟩
          | succ count => cases h

theorem readHexBrace_append {seen : Bool} {value n : Nat} {cs rest : List Char}
    (h : readHexBrace f seen value cs = .ok (n, rest)) :
    readHexBrace f seen value (cs ++ more) = .ok (n, rest ++ more) := by
  induction cs generalizing seen value with
  | nil => cases h
  | cons c cs ih =>
    simp only [readHexBrace, List.cons_append] at h ⊢
    by_cases hc : c = '}'
    · simp only [if_pos hc] at h ⊢
      cases seen with
      | true =>
        cases h
        rfl
      | false => cases h
    · simp only [if_neg hc] at h ⊢
      by_cases hs : (f.ignoreSpace && Unicode.isSpace c) = true
      · simp only [if_pos hs] at h ⊢
        exact ih h
      · simp only [if_neg hs] at h ⊢
        cases hv : hexValue? c with
        | none => simp [hv] at h
        | some v =>
          simp only [hv] at h ⊢
          exact ih h

theorem readHex_eq_ok {count : Nat} {cs rest : List Char} {a : Char} :
    readHex f count cs = .ok (a, rest) ↔ ∃ n, ofCodePoint n = .ok a ∧
      ((∃ ds, f.trim cs = '{' :: ds ∧ readHexBrace f false 0 ds = .ok (n, rest)) ∨
        ((∀ ds, f.trim cs ≠ '{' :: ds) ∧ readHexDigits f count 0 (f.trim cs) = .ok (n, rest))) := by
  have hofCodePoint : ∀ {x : Except Fault (Nat × List Char)},
      (x >>= fun y => ofCodePoint y.1 >>= fun c => pure (c, y.2)) = .ok (a, rest) ↔
        ∃ n, ofCodePoint n = .ok a ∧ x = .ok (n, rest) := by
    intro x
    simp only [bind_eq_ok, pure, Except.pure, Except.ok.injEq, Prod.mk.injEq]
    constructor
    · rintro ⟨⟨n, ds⟩, hx, d, hd, rfl, rfl⟩
      exact ⟨n, hd, hx⟩
    · rintro ⟨n, hn, hx⟩
      exact ⟨(n, rest), hx, a, hn, rfl, rfl⟩
  unfold readHex
  split
  · next ds hbrace => exact hofCodePoint.trans (by simp [hbrace])
  · next hbrace =>
    have hne : ∀ ds, f.trim cs ≠ '{' :: ds := hbrace
    exact hofCodePoint.trans (by simp [hne])

theorem closing_readHex {count : Nat} (hcount : 0 < count) : Closing f (readHex f count) := by
  intro cs a rest h
  obtain ⟨count, rfl⟩ := Nat.exists_eq_succ_of_ne_zero (Nat.ne_of_gt hcount)
  have hne : f.ignoreSpace = true → f.trim cs ≠ [] := by
    intro _ hnil
    rw [readHex, hnil] at h
    simp [readHexDigits, bind_eq_ok] at h
  have htrim : ∀ more, f.trim (cs ++ more) = f.trim cs ++ more := fun more => Flags.trim_append hne
  obtain ⟨n, ha, ⟨ds, hds, hn⟩ | ⟨hbrace, hn⟩⟩ := readHex_eq_ok.1 h
  · refine .inl fun more => readHex_eq_ok.2 ⟨n, ha, .inl ⟨_, ?_, readHexBrace_append hn⟩⟩
    rw [htrim, hds, List.cons_append]
  · have hdigits : ∀ more rest, readHexDigits f (count + 1) 0 (f.trim cs ++ more) = .ok (n, rest) →
        readHex f (count + 1) (cs ++ more) = .ok (a, rest) := by
      intro more rest hdigits
      refine readHex_eq_ok.2 ⟨n, ha, .inr ⟨fun ds heq => ?_, by rw [htrim, hdigits]⟩⟩
      rw [htrim] at heq
      cases hds : f.trim cs with
      | nil =>
        rw [hds] at hn
        cases hn
      | cons e es =>
        rw [hds] at heq
        obtain ⟨rfl, -⟩ := List.cons.inj heq
        exact hbrace es hds
    exact (closing_readHexDigits _ _ hn).imp (fun hall more => hdigits _ _ (hall more))
      (And.imp_right (And.imp_right (hdigits _ _)))

theorem takeProperty_append {cs a rest : List Char} (h : takeProperty f cs = .ok (a, rest)) :
    takeProperty f (cs ++ more) = .ok (a, rest ++ more) := by
  have hne : f.ignoreSpace = true → f.trim cs ≠ [] := by
    intro _ hnil
    simp [takeProperty, hnil] at h
  simp only [takeProperty, Flags.trim_append hne] at h ⊢
  generalize f.trim cs = ds at h ⊢
  split at h
  · cases h
  · next ds =>
    split at h
    · next c rest' hd =>
      cases h
      simp only [List.cons_append, takeWhile_append_of_dropWhile hd more]
    · cases h
  · next c ds hbrace =>
    split at h
    · cases h
    · next hc =>
      cases h
      simp [hc]

theorem readProperty_append {negated : Bool} {cs rest : List Char} {a : Atom}
    (h : readProperty f negated cs = .ok (a, rest)) :
    readProperty f negated (cs ++ more) = .ok (a, rest ++ more) := by
  by_cases hw : f.wide = true
  · simp only [readProperty, hw, Bool.not_true, Bool.false_eq_true, if_false] at h ⊢
    obtain ⟨⟨written, ds⟩, hd, h⟩ := bind_eq_ok.1 h
    cases hp : namedProperty? written with
    | none => simp only [hp] at h; cases h
    | some r =>
      simp only [hp] at h
      cases h
      rw [takeProperty_append hd]
      simp only [bind, Except.bind, hp]
      rfl
  · simp [readProperty, hw] at h
    cases h

theorem readBoundary_append (hmore : ∃ cs, more = ')' :: cs) {cs rest : List Char} {a : Atom}
    (h : readBoundary f cs = .ok (a, rest)) :
    readBoundary f (cs ++ more) = .ok (a, rest ++ more) := by
  obtain ⟨more, rfl⟩ := hmore
  unfold readBoundary at h ⊢
  split at h
  · next inner =>
    have hne : f.ignoreSpace = true → f.trim inner ≠ [] := by
      intro _ hnil
      simp [hnil] at h
    simp only [List.cons_append, Flags.trim_append hne] at h ⊢
    generalize f.trim inner = ds at h ⊢
    cases ds with
    | nil => cases h
    | cons c ds =>
      simp only [List.cons_append] at h ⊢
      split at h
      · next hc =>
        cases h
        simp [hc]
      · next hc =>
        rw [if_neg hc]
        split at h
        · next rest' hd =>
          have := takeWhile_append_of_dropWhile hd (')' :: more)
          simp only [← List.cons_append, this]
          cases hw :
            wordBoundary? f (List.takeWhile (fun c => c.isAlpha || c == '-') (c :: ds)) with
          | none => simp [hw] at h
          | some b =>
            simp only [hw] at h ⊢
            cases h
            rfl
        · cases h
  · next hbrace =>
    cases h
    cases cs with
    | nil => rfl
    | cons c cs =>
      have : c ≠ '{' := fun hc => hbrace cs (by rw [hc])
      simp [this]

/-- How an escape sequence is read behind its letter: as a hexadecimal number, as the name of a
property or of a word boundary, or not at all, where the letter stands for something alone. -/
inductive ReadsEscape (f : Flags) : Char → List Char → Atom → List Char → Prop
  | hex {c d : Char} {cs ds : List Char} : c ∈ ['x', 'u', 'U'] →
    readHex f (if c = 'x' then 2 else if c = 'u' then 4 else 8) cs = .ok (d, ds) →
    ReadsEscape f c cs (.literal d) (f.trim ds)
  | property {c : Char} {cs rest : List Char} {a : Atom} : c = 'p' ∨ c = 'P' →
    readProperty f (c = 'P') cs = .ok (a, rest) → ReadsEscape f c cs a rest
  | boundary {cs rest : List Char} {a : Atom} : readBoundary f cs = .ok (a, rest) →
      ReadsEscape f 'b' cs a rest
  | letter {c : Char} {a : Atom} (cs : List Char) : (∀ ds, readEscape f (c :: ds) = .ok (a, ds)) →
    ReadsEscape f c cs a cs

theorem Flags.trimIf_eq (f : Flags) (cs : List Char) :
    (if f.ignoreSpace = true then f.trim cs else cs) = f.trim cs := by
  unfold Flags.trim
  split <;> rfl

theorem readEscape_cons_eq_ok {c : Char} {cs rest : List Char} {a : Atom} :
    readEscape f (c :: cs) = .ok (a, rest) ↔ ReadsEscape f c cs a rest := by
  constructor
  · intro h
    have halone : (∀ ds, readEscape f (c :: ds) = .ok (a, ds)) → rest = cs →
        ReadsEscape f c cs a rest := by
      rintro hall rfl
      exact .letter _ hall
    simp only [readEscape] at h halone
    split at h
    · cases h
    next hdigit =>
    split at h
    · next hx =>
      obtain ⟨⟨d, ds⟩, hd, h⟩ := bind_eq_ok.1 h
      cases h
      rw [f.trimIf_eq]
      exact .hex hx hd
    next hx =>
    split at h
    · next hp => exact .property hp h
    next hp =>
    simp only [if_neg hdigit, if_neg hx, if_neg hp] at halone
    split at h
    · next hd =>
      cases h
      exact halone (fun ds => if_pos hd) rfl
    next hd =>
    split at h
    · next hD =>
      split at h
      · next hw =>
        cases h
        exact halone (fun ds => by rw [if_neg hd, if_pos hD, if_pos hw]) rfl
      · cases h
    next hD =>
    split at h
    · next hb =>
      subst hb
      exact .boundary h
    next hb =>
    simp only [if_neg hd, if_neg hD, if_neg hb] at halone
    split at h
    all_goals try (cases h; exact halone (fun _ => rfl) rfl)
    split at h
    · next hc =>
      cases h
      exact halone (fun ds => by split <;> simp_all) rfl
    · cases h
  · intro h
    cases h with
    | hex hx hd =>
      have hdigit : ¬ c.isDigit = true := by
        rcases List.mem_cons.1 hx with rfl | hx
        · decide
        · rcases List.mem_cons.1 hx with rfl | hx
          · decide
          · obtain rfl := List.mem_singleton.1 hx
            decide
      simp only [readEscape, if_neg hdigit, if_pos hx, f.trimIf_eq]
      exact bind_eq_ok.2 ⟨_, hd, rfl⟩
    | property hp ha =>
      rcases hp with rfl | rfl
      · exact ha
      · exact ha
    | boundary ha => exact ha
    | letter _ hall => exact hall _

theorem closing_readEscape : Closing f (readEscape f) := by
  intro cs a rest h
  cases cs with
  | nil => cases h
  | cons c cs =>
    simp only [List.cons_append, readEscape_cons_eq_ok] at h ⊢
    cases h with
    | @hex _ d _ ds hx hd =>
      have hpos : 0 < if c = 'x' then 2 else if c = 'u' then 4 else 8 := by
        split <;> (try split) <;> omega
      obtain hhex | ⟨hf, rfl, hend⟩ := closing_readHex hpos hd
      · refine (f.trim_closing ds).imp (fun hall more => ?_)
          (And.imp_right (And.imp_right fun hend => ?_))
        · rw [← hall more]
          exact .hex hx (hhex more)
        · have hread := ReadsEscape.hex hx (hhex ['$'])
          rwa [hend] at hread
      · have hread := ReadsEscape.hex hx hend
        rw [f.trim_nil] at hread
        exact .inr ⟨hf, f.trim_nil, hread⟩
    | property hp ha => exact .inl fun more => .property hp (readProperty_append ha)
    | boundary ha => exact .inl fun more => .boundary (readBoundary_append ⟨more, rfl⟩ ha)
    | letter _ hall => exact .inl fun more => .letter _ hall

theorem steady_readEscape (hmore : ∃ cs, more = ')' :: cs) : Steady f more (readEscape f) :=
  closing_readEscape.steady hmore

end

/-! ## Bracketed sets -/

section

variable {f : Flags} {more : List Char}

theorem readHyphens_append {cs : List Char} {b : Bracket} (h : (readHyphens f b cs).2 ≠ []) :
    readHyphens f b (cs ++ more) = ((readHyphens f b cs).1, (readHyphens f b cs).2 ++ more) := by
  induction cs generalizing b with
  | nil => exact absurd rfl h
  | cons c cs ih =>
    by_cases hc : c = '-'
    · subst hc
      simp only [readHyphens, List.cons_append] at h ⊢
      by_cases hf : f.ignoreSpace = true
      · simp only [if_pos hf] at h ⊢
        rw [Flags.trim_append fun _ => h]
      · simp only [if_neg hf] at h ⊢
        exact ih h
    · simp [readHyphens, hc]

theorem takeCaret_append {cs : List Char} (h : (takeCaret f cs).2 ≠ []) :
    takeCaret f (cs ++ more) = ((takeCaret f cs).1, (takeCaret f cs).2 ++ more) := by
  have hne : f.trim cs ≠ [] := by
    intro hnil
    simp [takeCaret, hnil] at h
  simp only [takeCaret, Flags.trim_append fun _ => hne] at h ⊢
  obtain ⟨c, ds, hd⟩ := List.exists_cons_of_ne_nil hne
  rw [hd] at h ⊢
  by_cases hc : c = '^'
  · subst hc
    simp only [List.cons_append] at h ⊢
    rw [Flags.trim_append fun _ => h]
  · simp [hc]

theorem openBracket_append {cs rest : List Char} {b : Bracket}
    (h : openBracket f cs = .ok (b, rest)) (hrest : rest ≠ []) :
    openBracket f (cs ++ more) = .ok (b, rest ++ more) := by
  have hcaret : (takeCaret f cs).2 ≠ [] := by
    intro hnil
    simp only [openBracket, hnil, readHyphens] at h
    split at h
    · cases h
    · cases h
      exact hrest rfl
  simp only [openBracket, takeCaret_append hcaret] at h ⊢
  generalize takeCaret f cs = r at h ⊢
  split at h
  · cases h
  next hw =>
  rw [if_neg hw]
  have hhyphens : (readHyphens f ⟨r.1, none, []⟩ r.2).2 ≠ [] := by
    intro hnil
    split at h
    · next heq =>
      rw [heq] at hnil
      cases hnil
    · rw [Except.ok.injEq] at h
      rw [h] at hnil
      exact hrest hnil
  rw [readHyphens_append hhyphens]
  generalize readHyphens f ⟨r.1, none, []⟩ r.2 = t at h hhyphens ⊢
  obtain ⟨b', ds⟩ := t
  obtain ⟨c, ds, rfl⟩ := List.exists_cons_of_ne_nil hhyphens
  by_cases hc : c = ']'
  · subst hc
    simp only [List.cons_append] at h ⊢
    by_cases hb : b'.items.isEmpty = true
    · rw [if_pos hb] at h ⊢
      cases h
      rw [Flags.trim_append fun _ => hrest]
    · rw [if_neg hb] at h ⊢
      cases h
      rfl
  · simp [hc] at h ⊢
    obtain ⟨rfl, rfl⟩ := h
    simp

theorem asciiSet?_eq_some {w : List Char} {s : CharSet} (h : asciiSet? (.ofList w) = some s) :
    ')' ∉ w := by
  have key : ∀ name : String, asciiSet? name = some s → ')' ∉ name.toList := by
    intro name h
    unfold asciiSet? at h
    split at h <;> first | decide | cases h
  simpa using key _ h

/-- No name of an ASCII set goes on beyond a parenthesis. -/
theorem readAsciiName?_append (hmore : ∃ cs, more = ')' :: cs) (cs : List Char) :
    readAsciiName? (cs ++ more) = (readAsciiName? cs).map fun r => (r.1, r.2 ++ more) := by
  obtain ⟨more, rfl⟩ := hmore
  simp only [readAsciiName?]
  cases hd : cs.dropWhile (· ≠ ':') with
  | nil =>
    -- The name would have to hold the parenthesis.
    have hall := List.dropWhile_eq_nil_iff.1 hd
    have htake : ∃ w, (cs ++ ')' :: more).takeWhile (· ≠ ':') = cs ++ ')' :: w := by
      refine ⟨more.takeWhile (· ≠ ':'), ?_⟩
      rw [List.takeWhile_append_of_pos hall]
      simp
    obtain ⟨w, hw⟩ := htake
    have hnone : asciiSet? (.ofList (cs ++ ')' :: w)) = none := by
      cases h : asciiSet? (.ofList (cs ++ ')' :: w)) with
      | none => rfl
      | some s => exact absurd (asciiSet?_eq_some h) (by simp)
    rw [hw, hnone]
    split <;> rfl
  | cons c ds =>
    obtain ⟨htake, hdrop⟩ := takeWhile_append_of_dropWhile hd (')' :: more)
    rw [htake, hdrop]
    match ds with
    | [] => simp
    | d :: ds =>
      by_cases h : c = ':' ∧ d = ']'
      · obtain ⟨rfl, rfl⟩ := h
        simp [Function.comp_def]
      · simp only [List.cons_append]
        split
        · simp_all
        · split
          · simp_all
          · rfl

theorem readAsciiSet?_append (hmore : ∃ cs, more = ')' :: cs) (cs : List Char) :
    readAsciiSet? f (cs ++ more) = (readAsciiSet? f cs).map fun r => (r.1, r.2 ++ more) := by
  obtain ⟨more', hmore'⟩ := hmore
  have hname := readAsciiName?_append ⟨more', hmore'⟩
  match cs with
  | [] => simp [readAsciiSet?, hmore']
  | [c] =>
    by_cases hc : c = ':'
    · subst hc
      have hnone : readAsciiName? more = none := hname []
      have halone : readAsciiName? [] = none := rfl
      rw [hmore'] at hnone ⊢
      simp [readAsciiSet?, hnone, halone]
    · simp [readAsciiSet?, hc]
  | c :: d :: cs =>
    by_cases hc : c = ':'
    · subst hc
      by_cases hd : d = '^'
      · subst hd
        simp [readAsciiSet?, hname, Function.comp_def]
      · have := hname (d :: cs)
        simp only [List.cons_append] at this
        simp [readAsciiSet?, hd, this, Function.comp_def]
    · simp [readAsciiSet?, hc]

theorem steady_readMember (hmore : ∃ cs, more = ')' :: cs) : Steady f more (readMember f) := by
  intro cs a rest h hrest
  match cs with
  | [] => cases h
  | '\\' :: cs => exact steady_readEscape hmore h hrest
  | c :: cs =>
    by_cases hc : c = '\\'
    · subst hc
      exact steady_readEscape hmore h hrest
    · simp only [readMember, List.cons_append] at h ⊢
      cases h
      rfl

/-- What a member of a bracket and, behind a hyphen, the end of a range are read as. -/
inductive ReadsRange (f : Flags) (cs : List Char) : CharSet → List Char → Prop
  | single {first : Atom} {ds es : List Char} {c : Char} {s : CharSet} :
      readMember f cs = .ok (first, ds) →
    f.trim ds = c :: es → c ≠ '-' → first.toSet = .ok s → ReadsRange f cs s (c :: es)
  /-- The hyphen does not belong to a range. -/
  | hyphen {first : Atom} {ds es tail : List Char} {c : Char} {s : CharSet} :
      readMember f cs = .ok (first, ds) →
    f.trim ds = '-' :: es → f.trim es = c :: tail → c = ']' ∨ c = '-' → first.toSet = .ok s →
    ReadsRange f cs s ('-' :: c :: tail)
  | range {a b c : Char} {ds es tail rest : List Char} : readMember f cs = .ok (.literal a, ds) →
    f.trim ds = '-' :: es → f.trim es = c :: tail → ¬ (c = ']' ∨ c = '-') →
    readMember f (c :: tail) = .ok (.literal b, rest) → a ≤ b → ReadsRange f cs (.range a b) rest

theorem readRange_eq_ok {cs rest : List Char} {s : CharSet} :
    readRange f cs = .ok (s, rest) ↔ ReadsRange f cs s rest := by
  constructor
  · intro h
    obtain ⟨⟨first, ds⟩, hfirst, h⟩ := bind_eq_ok.1 h
    simp only at h
    split at h
    · cases h
    · next es hes =>
      split at h
      · cases h
      · next c tail hc =>
        split at h
        · next hend =>
          obtain ⟨s', hs', h⟩ := bind_eq_ok.1 h
          cases h
          exact .hyphen hfirst hes hc hend hs'
        · next hend =>
          obtain ⟨⟨last, ds'⟩, hlast, h⟩ := bind_eq_ok.1 h
          simp only at h
          split at h
          · split at h
            · next hle =>
              cases h
              exact .range hfirst hes hc hend hlast hle
            · cases h
          · cases h
    · next hnil hhyphen =>
      obtain ⟨s', hs', h⟩ := bind_eq_ok.1 h
      cases h
      obtain ⟨c, es, hes⟩ := List.exists_cons_of_ne_nil hnil
      rw [hes]
      exact .single hfirst hes (fun hc => hhyphen es (hc ▸ hes)) hs'
  · intro h
    cases h with
    | @single first ds es c s hfirst hes hc hs =>
      refine bind_eq_ok.2 ⟨_, hfirst, ?_⟩
      simp only [hes]
      split
      · next heq => cases heq
      · next heq => exact absurd (List.cons.inj heq).1 hc
      · exact bind_eq_ok.2 ⟨_, hs, rfl⟩
    | hyphen hfirst hes hc hend hs =>
      refine bind_eq_ok.2 ⟨_, hfirst, ?_⟩
      simp only [hes, hc, if_pos hend]
      exact bind_eq_ok.2 ⟨_, hs, rfl⟩
    | range hfirst hes hc hend hlast hle =>
      refine bind_eq_ok.2 ⟨_, hfirst, ?_⟩
      simp only [hes, hc, if_neg hend]
      refine bind_eq_ok.2 ⟨_, hlast, ?_⟩
      simp only [if_pos hle]
      rfl

theorem steady_readRange (hmore : ∃ cs, more = ')' :: cs) {cs rest : List Char} {s : CharSet}
    (h : readRange f cs = .ok (s, rest)) (hrest : rest ≠ []) :
    readRange f (cs ++ more) = .ok (s, rest ++ more) := by
  have member : ∀ {cs rest : List Char} {a : Atom}, readMember f cs = .ok (a, rest) → rest ≠ [] →
      readMember f (cs ++ more) = .ok (a, rest ++ more) := fun h hne =>
      steady_readMember hmore h fun _ => hne
  have skipped : ∀ {ds es : List Char} {c : Char}, f.trim ds = c :: es →
      f.trim (ds ++ more) = c :: (es ++ more) ∧ ds ≠ [] := by
    intro ds es c hds
    refine ⟨?_, ?_⟩
    · rw [Flags.trim_append fun _ => hds ▸ List.cons_ne_nil c es, hds, List.cons_append]
    · rintro rfl
      rw [f.trim_nil] at hds
      cases hds
  rw [readRange_eq_ok] at h ⊢
  cases h with
  | single hfirst hes hc hs =>
    obtain ⟨htrim, hne⟩ := skipped hes
    exact .single (member hfirst hne) htrim hc hs
  | hyphen hfirst hes hc hend hs =>
    obtain ⟨htrim, hne⟩ := skipped hes
    exact .hyphen (member hfirst hne) htrim (skipped hc).1 hend hs
  | range hfirst hes hc hend hlast hle =>
    obtain ⟨htrim, hne⟩ := skipped hes
    exact .range (member hfirst hne) htrim (skipped hc).1 hend (member hlast hrest) hle

/-- The character that stands twice for an operation. -/
def SetOperation.sign : SetOperation → Char
  | .intersection => '&'
  | .difference => '-'
  | .symmetricDifference => '~'

/-- A sign stands here that is no member of a bracket. -/
inductive BracketSign : List Char → Prop
  | opens (cs : List Char) : BracketSign ('[' :: cs)
  | closes (cs : List Char) : BracketSign (']' :: cs)
  | operation (op : SetOperation) (cs : List Char) : BracketSign (op.sign :: op.sign :: cs)

theorem BracketSign.append {cs : List Char} (h : BracketSign cs) (more : List Char) :
    BracketSign (cs ++ more) := by
  cases h with
  | opens => exact .opens _
  | closes => exact .closes _
  | operation op => exact .operation op _

theorem BracketSign.of_append (hmore : ∃ cs, more = ')' :: cs) {cs : List Char}
    (h : BracketSign (cs ++ more)) : BracketSign cs := by
  obtain ⟨more, rfl⟩ := hmore
  generalize heq : cs ++ ')' :: more = ds at h
  cases h with
  | opens =>
    obtain ⟨cs, rfl, -⟩ := exists_of_append_eq ['['] (by decide) heq
    exact .opens cs
  | closes =>
    obtain ⟨cs, rfl, -⟩ := exists_of_append_eq [']'] (by decide) heq
    exact .closes cs
  | operation op =>
    obtain ⟨cs, rfl, -⟩ := exists_of_append_eq [op.sign, op.sign] (by cases op <;> decide) heq
    exact .operation op cs

/-- How reading goes on in a bracket that stands in others, where no blanks stand. -/
inductive GoesOn (f : Flags) (b : Bracket) :
    List Bracket → List Char → Bracket → List Bracket → List Char → Prop
  | named {outer : List Bracket} {cs rest : List Char} {s : CharSet} :
      readAsciiSet? f cs = some (s, rest) →
    GoesOn f b outer ('[' :: cs) (b.push s) outer rest
  | opens {outer : List Bracket} {cs rest : List Char} {inner : Bracket} :
      readAsciiSet? f cs = none →
    openBracket f cs = .ok (inner, rest) → GoesOn f b outer ('[' :: cs) inner (b :: outer) rest
  | closes (o : Bracket) (outer : List Bracket) (cs : List Char) :
    GoesOn f b (o :: outer) (']' :: cs) (o.push (b.close f)) outer cs
  | operation (op : SetOperation) (outer : List Bracket) (cs : List Char) :
    GoesOn f b outer (op.sign :: op.sign :: cs) (b.operate f op) outer cs
  | member {outer : List Bracket} {cs rest : List Char} {s : CharSet} : ¬ BracketSign cs →
    readRange f cs = .ok (s, rest) → GoesOn f b outer cs (b.push s) outer rest

theorem readBracketItems_nil {fuel : Nat} {b : Bracket} {outer : List Bracket} :
    readBracketItems f fuel b outer [] = .error .unclosedBracket := by
  cases fuel with
  | zero => rfl
  | succ fuel => simp [readBracketItems]

/-- A bracket that stands in no other one is closed, or reading goes on. -/
theorem readBracketItems_eq_ok {fuel : Nat} {b : Bracket} {outer : List Bracket}
    {cs rest : List Char} {s : CharSet} :
    readBracketItems f (fuel + 1) b outer cs = .ok (s, rest) ↔
      (outer = [] ∧ f.trim cs = ']' :: rest ∧ b.close f = s) ∨
        ∃ b' outer' ds, GoesOn f b outer (f.trim cs) b' outer' ds ∧
          readBracketItems f fuel b' outer' ds = .ok (s, rest) := by
  constructor
  · intro h
    simp only [readBracketItems] at h
    generalize f.trim cs = ds at h ⊢
    split at h
    · cases h
    · next es =>
      cases hset : readAsciiSet? f es with
      | some r =>
        simp only [hset] at h
        exact .inr ⟨_, _, _, .named hset, h⟩
      | none =>
        simp only [hset] at h
        obtain ⟨r, hinner, h⟩ := bind_eq_ok.1 h
        exact .inr ⟨_, _, _, .opens hset hinner, h⟩
    · cases outer with
      | nil =>
        cases h
        exact .inl ⟨rfl, rfl, rfl⟩
      | cons o outer => exact .inr ⟨_, _, _, .closes o outer _, h⟩
    · exact .inr ⟨_, _, _, .operation .intersection outer _, h⟩
    · exact .inr ⟨_, _, _, .operation .difference outer _, h⟩
    · exact .inr ⟨_, _, _, .operation .symmetricDifference outer _, h⟩
    · next hopens hcloses hand hsub htilde =>
      obtain ⟨r, hs, h⟩ := bind_eq_ok.1 h
      refine .inr ⟨_, _, _, .member ?_ hs, h⟩
      rintro (_ | _ | ⟨op, es⟩)
      · exact hopens _ rfl
      · exact hcloses _ rfl
      · cases op with
        | intersection => exact hand es rfl
        | difference => exact hsub es rfl
        | symmetricDifference => exact htilde es rfl
  · rintro (⟨rfl, htrim, rfl⟩ | ⟨b', outer', ds, hgoes, h⟩)
    · simp only [readBracketItems, htrim]
    simp only [readBracketItems]
    generalize f.trim cs = es at hgoes ⊢
    cases hgoes with
    | named hset => simpa only [hset] using h
    | opens hset hinner =>
      simp only [hset]
      exact bind_eq_ok.2 ⟨_, hinner, h⟩
    | closes o outer => exact h
    | operation op => cases op <;> exact h
    | @member _ _ _ s' hsign hs =>
      have hitem : (readRange f es >>= fun r => readBracketItems f fuel (b.push r.1) outer r.2) =
          .ok (s, rest) :=
        bind_eq_ok.2 ⟨_, hs, h⟩
      split
      · cases hs
      · exact absurd (.opens _) hsign
      · exact absurd (.closes _) hsign
      · exact absurd (.operation .intersection _) hsign
      · exact absurd (.operation .difference _) hsign
      · exact absurd (.operation .symmetricDifference _) hsign
      · exact hitem

theorem GoesOn.ne_nil {b b' : Bracket} {outer outer' : List Bracket} {cs ds : List Char}
    (h : GoesOn f b outer cs b' outer' ds) : cs ≠ [] := by
  rintro rfl
  cases h with
  | member _ hs => cases hs

/-- Reading goes on the same with more behind. -/
theorem GoesOn.append (hmore : ∃ cs, more = ')' :: cs) {b b' : Bracket}
    {outer outer' : List Bracket} {cs ds : List Char} (h : GoesOn f b outer cs b' outer' ds)
    (hds : ds ≠ []) : GoesOn f b outer (cs ++ more) b' outer' (ds ++ more) := by
  cases h with
  | named hset =>
    exact .named ((readAsciiSet?_append hmore _).trans (by rw [hset, Option.map_some]))
  | opens hset hinner =>
    exact .opens ((readAsciiSet?_append hmore _).trans (by rw [hset, Option.map_none]))
      (openBracket_append hinner hds)
  | closes o => exact .closes o _ _
  | operation op => exact .operation op _ _
  | member hsign hs =>
    exact .member (fun h => hsign (h.of_append hmore)) (steady_readRange hmore hs hds)

/-- Reading goes on in a bracket until all brackets are closed, whatever comes behind. -/
theorem readBracketItems_append (hmore : ∃ cs, more = ')' :: cs)
    {fuel fuel' : Nat} (hfuel : fuel ≤ fuel') {b : Bracket} {outer : List Bracket}
    {cs rest : List Char} {s : CharSet} (h : readBracketItems f fuel b outer cs = .ok (s, rest)) :
    readBracketItems f fuel' b outer (cs ++ more) = .ok (s, rest ++ more) := by
  induction fuel generalizing fuel' b outer cs with
  | zero => cases h
  | succ fuel ih =>
    obtain ⟨fuel', rfl⟩ := Nat.exists_eq_succ_of_ne_zero (n := fuel') (by omega)
    rw [readBracketItems_eq_ok] at h ⊢
    rcases h with ⟨houter, htrim, hs⟩ | ⟨b', outer', ds, hgoes, h⟩
    · refine .inl ⟨houter, ?_, hs⟩
      rw [Flags.trim_append fun _ => htrim ▸ List.cons_ne_nil _ _, htrim, List.cons_append]
    · have hds : ds ≠ [] := by
        rintro rfl
        rw [readBracketItems_nil] at h
        cases h
      refine .inr ⟨b', outer', ds ++ more, ?_, ih (by omega) h⟩
      rw [Flags.trim_append fun _ => hgoes.ne_nil]
      exact hgoes.append hmore hds

theorem readBracket_append (hmore : ∃ cs, more = ')' :: cs) {cs rest : List Char} {s : CharSet}
    (h : readBracket f cs = .ok (s, rest)) :
    readBracket f (cs ++ more) = .ok (s, rest ++ more) := by
  simp only [readBracket] at h ⊢
  obtain ⟨⟨b, ds⟩, hb, h⟩ := bind_eq_ok.1 h
  have hds : ds ≠ [] := by
    rintro rfl
    rw [readBracketItems_nil] at h
    cases h
  refine bind_eq_ok.2 ⟨_, openBracket_append hb hds, readBracketItems_append hmore ?_ h⟩
  simp

end

namespace Reader

variable {more : List Char}

theorem takeLazy_append (hmore : Stops more) (cs : List Char) :
    takeLazy (cs ++ more) = ((takeLazy cs).1, (takeLazy cs).2 ++ more) := by
  fun_cases takeLazy cs with
  | case1 cs => rfl
  | case2 _ h =>
    cases cs with
    | nil => cases hmore <;> rfl
    | cons c cs =>
      have : c ≠ '?' := fun hc => h cs (by rw [hc])
      simp [takeLazy, this]

end Reader

end Pattern

end Stencil
