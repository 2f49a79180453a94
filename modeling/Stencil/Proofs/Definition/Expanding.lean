import Stencil.Definition.Variable
import Mathlib.Data.List.TakeWhile

/-!
# Expanding variables

A text refers to a variable by a dollar sign and the longest run of name characters behind it, or by
a run in braces (`Refers`). `Substitutes` is a single pass over a text from left to right: where a
reference begins, the value of the variable is put in its place and the pass goes on behind the
reference; any other character stays as it is.

The chunks of a text are longer than that: plain text is one chunk, and so is a name in braces that
breaks off. What is in such a chunk begins no reference (`afterDollar_cases`), so that they expand
to what the single pass makes of them (`substitutes_iff`). A dollar sign always begins a chunk, and
therefore what stands in front of a reference and what follows it are expanded on their own
(`expandChars_append_dollar`).
-/

namespace Stencil.Definition

variable {env : Environment} {name : String} {w rest cs out : List Char}

/-! ## References and the single pass -/

/-- A name of a variable: a run of ASCII letters, digits and underscores that is not empty. -/
structure IsVariableName (name : String) : Prop where
  ne_empty : name ≠ ""
  run : ∀ c ∈ name.toList, isNameChar c = true

/-- A reference as it is written, the name of the variable, and a text that follows the reference.
Without braces, the name does not go on in what follows. -/
inductive Refers : List Char → String → List Char → Prop where
  | plain {name : String} {rest : List Char} (isName : IsVariableName name)
    (ends : ∀ c ∈ rest.head?, isNameChar c = false) : Refers ('$' :: name.toList) name rest
  | braced {name : String} {rest : List Char} (isName : IsVariableName name) :
    Refers ('$' :: '{' :: (name.toList ++ ['}'])) name rest

/-- What stands in place of a reference: the value of the variable, or the reference as it is
written if the variable is not set. -/
def standIn (env : Environment) (w : List Char) (name : String) : List Char :=
  match env name with
  | some value => value.toList
  | none => w

/-- The single pass over a text, from left to right. It goes on behind a reference, so that it never
looks at a value. -/
inductive Substitutes (env : Environment) : List Char → List Char → Prop where
  | nil : Substitutes env [] []
  | reference {w rest out : List Char} {name : String} (h : Refers w name rest)
      (hrest : Substitutes env rest out) :
    Substitutes env (w ++ rest) (standIn env w name ++ out)
  | kept {c : Char} {cs out : List Char}
      (h : ∀ w name rest, Refers w name rest → w ++ rest ≠ c :: cs) (hcs : Substitutes env cs out) :
    Substitutes env (c :: cs) (c :: out)

theorem dollar_not_mem_takeWhile (cs : List Char) : '$' ∉ cs.takeWhile isNameChar :=
  fun h => absurd (List.mem_takeWhile_imp h) (by decide)

/-! ## What a dollar sign begins -/

/-- A run of name characters that is not empty is a name. -/
theorem isVariableName_takeWhile (h : cs.takeWhile isNameChar ≠ []) :
    IsVariableName (.ofList (cs.takeWhile isNameChar)) := by
  refine ⟨fun hempty => h ?_, fun c hc => ?_⟩
  · rw [← String.toList_ofList (l := cs.takeWhile isNameChar), hempty, String.toList_empty]
  · rw [String.toList_ofList] at hc
    exact List.mem_takeWhile_imp hc

theorem head?_dropWhile_isNameChar (cs : List Char) :
    ∀ c ∈ (cs.dropWhile isNameChar).head?, isNameChar c = false := by
  intro c hc
  have := List.head?_dropWhile_not isNameChar cs
  rw [Option.mem_def.1 hc] at this
  exact this

/-- A dollar sign begins a reference, or a chunk that is kept and has no other dollar sign. -/
theorem afterDollar_cases (cs : List Char) :
    (∃ name braced, (afterDollar cs).1 = .variable name braced ∧
        Refers (Chunk.variable name braced).chars name (afterDollar cs).2) ∨
      ∃ kept, '$' ∉ kept ∧ (afterDollar cs).1.chars = '$' :: kept ∧
        (afterDollar cs).1.name? = none := by
  cases cs with
  | nil => exact .inr ⟨[], by simp, rfl, rfl⟩
  | cons c cs =>
    simp only [afterDollar]
    split
    · next hc =>
      split
      · exact .inr ⟨[], by simp, rfl, rfl⟩
      · next hne =>
        unfold closeVariable
        split
        · refine .inl ⟨_, true, rfl, ?_⟩
          exact .braced (isVariableName_takeWhile hne)
        · refine .inr ⟨'{' :: cs.takeWhile isNameChar, ?_,
            by simp only [Chunk.chars, String.toList_ofList], rfl⟩
          rw [List.mem_cons, not_or]
          exact ⟨by decide, dollar_not_mem_takeWhile cs⟩
    · split
      · next hn =>
        have htake : (c :: cs).takeWhile isNameChar = c :: cs.takeWhile isNameChar :=
          List.takeWhile_cons_of_pos hn
        refine .inl ⟨_, false, rfl, .plain ?_ (head?_dropWhile_isNameChar cs)⟩
        rw [← htake]
        exact isVariableName_takeWhile (by simp [htake])
      · exact .inr ⟨[], by simp, rfl, rfl⟩

/-- A reference is read as a variable. -/
theorem Refers.afterDollar_eq (h : Refers w name rest) :
    ∃ cs braced, w ++ rest = '$' :: cs ∧ afterDollar cs = (.variable name braced, rest) ∧
      (Chunk.variable name braced).chars = w := by
  cases h with
  | plain isName ends =>
    obtain ⟨hne, hrun⟩ := isName
    obtain ⟨c, cs, hcs⟩ := List.exists_cons_of_ne_nil (mt String.toList_eq_nil_iff.1 hne)
    refine ⟨name.toList ++ rest, false, rfl, ?_, rfl⟩
    rw [hcs] at hrun
    obtain ⟨hc, hrun⟩ := List.forall_mem_cons.1 hrun
    have hbrace : c ≠ '{' := by
      rintro rfl
      exact absurd hc (by decide)
    have hstop : rest.takeWhile isNameChar = [] ∧ rest.dropWhile isNameChar = rest := by
      cases rest with
      | nil => exact ⟨rfl, rfl⟩
      | cons d rest => simp [ends d rfl]
    rw [hcs, List.cons_append, afterDollar, if_neg hbrace, if_pos hc,
      List.takeWhile_append_of_pos hrun, List.dropWhile_append_of_pos hrun, hstop.1, hstop.2,
      List.append_nil, ← hcs, String.ofList_toList]
  | braced isName =>
    obtain ⟨hne, hrun⟩ := isName
    have hne' : name.toList ≠ [] := mt String.toList_eq_nil_iff.1 hne
    have hstop : isNameChar '}' = false := by decide
    refine ⟨'{' :: (name.toList ++ ['}'] ++ rest), true, rfl, ?_, rfl⟩
    have htake : (name.toList ++ ['}'] ++ rest).takeWhile isNameChar = name.toList := by
      rw [List.append_assoc, List.takeWhile_append_of_pos hrun, List.singleton_append,
        List.takeWhile_cons_of_neg (by simp [hstop]), List.append_nil]
    have hdrop : (name.toList ++ ['}'] ++ rest).dropWhile isNameChar = '}' :: rest := by
      rw [List.append_assoc, List.dropWhile_append_of_pos hrun, List.singleton_append,
        List.dropWhile_cons_of_neg (by simp [hstop])]
    rw [afterDollar, if_pos rfl, htake, hdrop, if_neg hne', closeVariable, String.ofList_toList]

/-- What a dollar sign begins ends in front of the next dollar sign. -/
theorem afterDollar_append_dollar (cs tail : List Char) :
    afterDollar (cs ++ '$' :: tail) = ((afterDollar cs).1, (afterDollar cs).2 ++ '$' :: tail) := by
  cases cs with
  | nil => rfl
  | cons c cs =>
    have hstop : isNameChar '$' = false := by decide
    obtain ⟨htake, hdrop⟩ := takeWhile_append_stop hstop cs tail
    simp only [List.cons_append, afterDollar, htake, hdrop]
    split
    · split
      · rfl
      · unfold closeVariable
        rcases cs.dropWhile isNameChar with _ | ⟨d, rest⟩
        · rfl
        · by_cases hd : d = '}'
          · subst hd
            rfl
          · simp [hd]
    · split <;> rfl

/-! ## Expanding -/

/-- The characters of an expanded text. -/
def expandChars (env : Environment) (cs : List Char) : List Char :=
  (chunks cs).flatMap (Chunk.expand env)

theorem toList_expandVariables (env : Environment) (s : String) :
    (expandVariables env s).toList = expandChars env s.toList :=
  String.toList_ofList

@[simp] theorem expandChars_nil : expandChars env [] = [] := by
  rw [expandChars, chunks, List.flatMap_nil]

/-- A chunk that is no reference stays as it is written. -/
theorem Chunk.expand_of_name? {c : Chunk} (h : c.name? = none) : c.expand env = c.chars := by
  cases c with
  | «variable» name braced => cases h
  | _ => rfl

theorem expandChars_dollar (cs : List Char) :
    expandChars env ('$' :: cs) =
      (afterDollar cs).1.expand env ++ expandChars env (afterDollar cs).2 := by
  rw [expandChars, chunks, if_pos rfl, List.flatMap_cons, expandChars]

/-- Plain text is kept up to the next dollar sign. -/
theorem expandChars_span (cs : List Char) :
    expandChars env cs = cs.takeWhile notDollar ++ expandChars env (cs.dropWhile notDollar) := by
  cases cs with
  | nil => simp
  | cons c cs =>
    by_cases hc : c = '$'
    · subst hc
      rfl
    · have hplain : notDollar c = true := by simpa [notDollar] using hc
      rw [expandChars, chunks, if_neg hc, List.flatMap_cons, List.takeWhile_cons_of_pos hplain,
        List.dropWhile_cons_of_pos hplain, expandChars, Chunk.expand_of_name? rfl,
        Chunk.chars, String.toList_ofList]

theorem expandChars_append (h : '$' ∉ w) (cs : List Char) :
    expandChars env (w ++ cs) = w ++ expandChars env cs := by
  have hplain : ∀ c ∈ w, notDollar c = true := by
    intro c hc
    simp only [notDollar, bne_iff_ne]
    rintro rfl
    exact h hc
  rw [expandChars_span, expandChars_span cs, List.takeWhile_append_of_pos hplain,
    List.dropWhile_append_of_pos hplain, List.append_assoc]

theorem expandChars_append_dollar (cs tail : List Char) :
    expandChars env (cs ++ '$' :: tail) = expandChars env cs ++ expandChars env ('$' :: tail) := by
  unfold expandChars
  rw [← List.flatMap_append]
  congr 1
  fun_induction chunks cs with
  | case1 => rfl
  | case2 cs ih =>
    rw [List.cons_append, chunks, if_pos rfl, afterDollar_append_dollar, ih, List.cons_append]
  | case3 c cs hc ih =>
    have hstop : notDollar '$' = false := by decide
    obtain ⟨htake, hdrop⟩ := takeWhile_append_stop hstop cs tail
    rw [List.cons_append, chunks, if_neg hc, htake, hdrop, ih, List.cons_append]

/-- The value of the variable stands in place of a reference, and what follows is expanded. -/
theorem Refers.expandChars_eq (h : Refers w name rest) :
    expandChars env (w ++ rest) = standIn env w name ++ expandChars env rest := by
  obtain ⟨cs, braced, hcs, hread, rfl⟩ := h.afterDollar_eq
  rw [hcs, expandChars_dollar, hread]
  rfl

/-- A character at which no reference begins is kept. -/
theorem expandChars_kept {c : Char} (h : ∀ w name rest, Refers w name rest → w ++ rest ≠ c :: cs) :
    expandChars env (c :: cs) = c :: expandChars env cs := by
  by_cases hc : c = '$'
  · subst hc
    have hchars := afterDollar_chars cs
    rcases afterDollar_cases cs with ⟨name, braced, hread, hrefers⟩ | ⟨kept, hkept, hread, hname⟩
    · rw [hread] at hchars
      exact absurd hchars (h _ _ _ hrefers)
    · -- The rest of the chunk is plain text, and would be kept on its own as well.
      have hcs : cs = kept ++ (afterDollar cs).2 := by
        rw [hread, List.cons_append, List.cons_inj_right] at hchars
        exact hchars.symm
      rw [expandChars_dollar, Chunk.expand_of_name? hname, hread, List.cons_append,
        ← expandChars_append hkept, ← hcs]
  · exact expandChars_append (w := [c]) (by simpa using Ne.symm hc) cs

theorem substitutes_expandChars (env : Environment) (cs : List Char) :
    Substitutes env cs (expandChars env cs) := by
  induction hlength : cs.length using Nat.strong_induction_on generalizing cs with
  | _ n ih =>
    subst hlength
    by_cases href : ∃ w name rest, Refers w name rest ∧ w ++ rest = cs
    · obtain ⟨w, name, rest, h, rfl⟩ := href
      have hw : 0 < w.length := by cases h <;> exact Nat.succ_pos _
      have hshorter : rest.length < (w ++ rest).length := by
        rw [List.length_append]
        exact Nat.lt_add_of_pos_left hw
      rw [h.expandChars_eq]
      exact .reference h (ih _ hshorter rest rfl)
    · cases cs with
      | nil =>
        rw [expandChars_nil]
        exact .nil
      | cons c cs =>
        have hkept : ∀ w name rest, Refers w name rest → w ++ rest ≠ c :: cs :=
          fun w name rest h heq => href ⟨w, name, rest, h, heq⟩
        rw [expandChars_kept hkept]
        exact .kept hkept (ih _ (Nat.lt_succ_self _) cs rfl)

/-- Expanding a text by chunks is the single pass over it. -/
theorem substitutes_iff : Substitutes env cs out ↔ out = expandChars env cs := by
  constructor
  · intro h
    induction h with
    | nil => rw [expandChars_nil]
    | reference h _ ih => rw [h.expandChars_eq, ih]
    | kept h _ ih => rw [expandChars_kept h, ih]
  · rintro rfl
    exact substitutes_expandChars env cs

theorem expandChars_of_unset (h : ∀ name, env name = none) (cs : List Char) :
    expandChars env cs = cs := by
  have hchars : Chunk.expand env = Chunk.chars := by
    funext c
    cases c with
    | «variable» name braced => simp [Chunk.expand, h name]
    | _ => rfl
  rw [expandChars, hchars, chunks_chars]

/-- **Variables are replaced in a single pass.** An expanded text is what the pass from left to
right makes of the text, and nothing else. Wherever a reference stands, the value of the variable
takes its place, whatever is written in it, and what is in front of the reference and what follows
it are expanded on their own. Where no variable is set, nothing changes. -/
theorem expandVariables_exact (env : Environment) (s : String) :
    (∀ t, expandVariables env s = t ↔ Substitutes env s.toList t.toList) ∧
      (∀ before w name after, s.toList = before ++ w ++ after → Refers w name after →
        (expandVariables env s).toList =
          (expandVariables env (.ofList before)).toList ++ standIn env w name ++
            (expandVariables env (.ofList after)).toList) ∧
      ((∀ name, env name = none) → expandVariables env s = s) := by
  refine ⟨fun t => ?_, fun before w name after hs h => ?_, fun hunset => ?_⟩
  · rw [substitutes_iff, ← toList_expandVariables, String.toList_inj, eq_comm]
  · obtain ⟨cs, -, hcs, -, -⟩ := h.afterDollar_eq
    simp only [toList_expandVariables, String.toList_ofList]
    rw [hs, List.append_assoc, hcs, expandChars_append_dollar, ← hcs, h.expandChars_eq,
      List.append_assoc]
  · rw [← String.toList_inj, toList_expandVariables, expandChars_of_unset hunset]

/-- A reference behind a name in braces that breaks off, to a variable whose value names it
again. -/
theorem expandVariables_exact_brokenOff :
    let env : Environment := fun name => if name = "B" then some "x$B" else none
    ("$\x7bA$B\x7d".toList = ['$', '{', 'A'] ++ ['$', 'B'] ++ ['}'] ∧ Refers ['$', 'B'] "B" ['}'] ∧
        ∀ name, (fun _ => none : Environment) name = none) ∧
      (expandVariables env "$\x7bA$B\x7d").toList = ['$', '{', 'A'] ++ ['x', '$', 'B'] ++ ['}'] ∧
      expandVariables (fun _ => none) "$\x7bA$B\x7d" = "$\x7bA$B\x7d" := by
  intro env
  have hs : "$\x7bA$B\x7d".toList = ['$', '{', 'A'] ++ ['$', 'B'] ++ ['}'] := by decide
  have hrefers : Refers ('$' :: "B".toList) "B" ['}'] :=
    .plain ⟨by decide, by simp [isNameChar]⟩ (by simp [isNameChar])
  have hbefore : expandVariables env (.ofList ['$', '{', 'A']) = .ofList ['$', '{', 'A'] := by
    decide +kernel
  have hafter : expandVariables env (.ofList ['}']) = .ofList ['}'] := by decide +kernel
  refine ⟨⟨hs, hrefers, fun _ => rfl⟩, ?_, (expandVariables_exact _ _).2.2 fun _ => rfl⟩
  rw [(expandVariables_exact env _).2.1 _ _ _ _ hs hrefers, hbefore, hafter]
  rfl

end Stencil.Definition
