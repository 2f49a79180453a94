import Stencil.Definition.Piece
import Mathlib.Data.List.Chain
import Mathlib.Data.List.TakeWhile
import Mathlib.Tactic.Tauto

/-!
# Splitting a definition

Every opening brace begins a lexeme, because no lexeme holds a brace behind its first character. So
the lexemes of a text are those in front of a brace and those from the brace on
(`scan_append_brace`), and a placeholder is found wherever it is written
(`pieces_append_placeholder`). Taking a definition apart and writing its pieces are inverse to each
other (`pieces_exact`), but for one thing: a sign in front of a name that is not ASCII makes no
placeholder (`pieces_accentedSign`).
-/

namespace Stencil.Definition

/-! ## The form of a placeholder -/

/-- The characters that the form of a placeholder allows in front of a name. -/
def isSign (c : Char) : Bool :=
  !(isNameChar c || c == '{' || c == '}' || c == ' ' || c == '\t' || c == '\r' || c == '\n')

/-- The form of a placeholder: a brace, at most one sign, a run of name characters and dots, and a
closing brace. -/
inductive IsPlaceholder : List Char → Prop where
  | plain {name : List Char} (nonempty : name ≠ []) (run : ∀ c ∈ name, isReferenceChar c = true) :
    IsPlaceholder ('{' :: (name ++ ['}']))
  | signed {c : Char} {name : List Char} (sign : isSign c = true) (nonempty : name ≠ [])
    (run : ∀ c ∈ name, isReferenceChar c = true) : IsPlaceholder ('{' :: (c :: name ++ ['}']))

/-- A text of ASCII characters. -/
def IsAscii (cs : List Char) : Prop := ∀ c ∈ cs, c.toNat < 128

/-- A placeholder of the form, in ASCII, whose symbol is what is read as a symbol: the first
character, unless it can stand in a name without dots. -/
structure Placeholder.WellFormed (p : Placeholder) : Prop where
  form : IsPlaceholder p.chars
  ascii : IsAscii p.chars
  read : .ofInner p.inner = p

/-- What is read behind a brace: nothing or a symbol, and then a run. -/
structure Opens (sym run : List Char) : Prop where
  symbol : sym = [] ∨ ∃ c, isSymbol c = true ∧ sym = [c]
  run : ∀ c ∈ run, isReferenceChar c = true

theorem isSymbol_iff {c : Char} :
    isSymbol c = true ↔ c.toNat < 128 ∧ isSign c = true ∧ c ≠ '.' := by
  simp only [isSymbol, isSign, isReferenceChar, Bool.and_eq_true, decide_eq_true_eq,
    Bool.not_eq_true', Bool.or_eq_false_iff, beq_eq_false_iff_ne]
  tauto

theorem toNat_lt_of_isReferenceChar {c : Char} (h : isReferenceChar c = true) : c.toNat < 128 := by
  simp only [isReferenceChar, isNameChar, Bool.or_eq_true, beq_iff_eq] at h
  rcases h with (h | rfl) | rfl
  · exact toNat_lt_of_isAlphanum h
  · decide
  · decide

theorem isSymbol_of_isReferenceChar {c : Char} (h : isReferenceChar c = true) :
    isSymbol c = false := by
  simp [isSymbol, h]

theorem opens_splitInner (cs : List Char) : Opens (splitInner cs).1 (splitInner cs).2.1 := by
  cases cs with
  | nil => exact ⟨.inl rfl, by simp [splitInner]⟩
  | cons c cs =>
    by_cases hc : isSymbol c = true
    · simp only [splitInner, hc, if_true]
      exact ⟨.inr ⟨c, hc, rfl⟩, fun d hd => List.mem_takeWhile_imp hd⟩
    · simp only [splitInner, hc, Bool.false_eq_true, if_false]
      exact ⟨.inl rfl, fun d hd => List.mem_takeWhile_imp hd⟩

/-- A symbol and a run are of the form, and in ASCII. -/
theorem Opens.isPlaceholder {sym run : List Char} (h : Opens sym run) (hne : run ≠ []) :
    IsPlaceholder ('{' :: (sym ++ run ++ ['}'])) ∧ IsAscii ('{' :: (sym ++ run ++ ['}'])) := by
  have hsym : ∀ c ∈ sym, c.toNat < 128 := by
    rcases h.symbol with rfl | ⟨c, hc, rfl⟩
    · simp
    · simpa using (isSymbol_iff.1 hc).1
  refine ⟨?_, fun c hc => ?_⟩
  · rcases h.symbol with rfl | ⟨c, hc, rfl⟩
    · exact .plain hne h.run
    · exact .signed (isSymbol_iff.1 hc).2.1 hne h.run
  · simp only [List.mem_cons, List.mem_append, List.not_mem_nil, or_false] at hc
    rcases hc with rfl | (hc | hc) | rfl
    · decide
    · exact hsym c hc
    · exact toNat_lt_of_isReferenceChar (h.run c hc)
    · decide

/-- What stands between the braces of the form, in ASCII, is a symbol and a run. A dot as a sign
counts to the run. -/
theorem IsPlaceholder.exists_opens {w : List Char} (h : IsPlaceholder w) (hascii : IsAscii w) :
    ∃ sym run, w = '{' :: (sym ++ run ++ ['}']) ∧ Opens sym run ∧ run ≠ [] := by
  cases h with
  | @plain name hne hrun => exact ⟨[], name, rfl, ⟨.inl rfl, hrun⟩, hne⟩
  | @signed c name hsign hne hrun =>
    by_cases hdot : c = '.'
    · subst hdot
      refine ⟨[], '.' :: name, rfl, ⟨.inl rfl, fun d hd => ?_⟩, List.cons_ne_nil _ _⟩
      rcases List.mem_cons.1 hd with rfl | hd
      · rfl
      · exact hrun d hd
    · have hlt : c.toNat < 128 := hascii c (by simp)
      exact ⟨[c], name, rfl, ⟨.inr ⟨c, isSymbol_iff.2 ⟨hlt, hsign, hdot⟩, rfl⟩, hrun⟩, hne⟩

theorem chars_ofInner (cs : List Char) : (Placeholder.ofInner cs).chars = '{' :: (cs ++ ['}']) := by
  rw [Placeholder.chars, Placeholder.inner_ofInner]

theorem Opens.wellFormed {sym run : List Char} (h : Opens sym run) (hne : run ≠ []) :
    (Placeholder.ofInner (sym ++ run)).WellFormed := by
  obtain ⟨hform, hascii⟩ := h.isPlaceholder hne
  rw [← chars_ofInner] at hform hascii
  exact ⟨hform, hascii, by rw [Placeholder.inner_ofInner]⟩

/-! ## What a brace begins -/

/-- A placeholder is read from its form. -/
theorem afterBrace_opens {sym run : List Char} (h : Opens sym run)
    (hne : run ≠ []) (rest : List Char) :
    afterBrace (sym ++ run ++ '}' :: rest) = (.placeholder (.ofInner (sym ++ run)), rest) := by
  have hstop : isReferenceChar '}' = false := by decide
  have htake : (run ++ '}' :: rest).takeWhile isReferenceChar = run := by
    rw [List.takeWhile_append_of_pos h.run, List.takeWhile_cons_of_neg (by simp [hstop]),
      List.append_nil]
  have hdrop : (run ++ '}' :: rest).dropWhile isReferenceChar = '}' :: rest := by
    rw [List.dropWhile_append_of_pos h.run, List.dropWhile_cons_of_neg (by simp [hstop])]
  have hsplit : splitInner (sym ++ run ++ '}' :: rest) = (sym, run, '}' :: rest) := by
    rcases h.symbol with rfl | ⟨c, hc, rfl⟩
    · obtain ⟨d, ds, rfl⟩ := List.exists_cons_of_ne_nil hne
      have hd : isSymbol d = false := isSymbol_of_isReferenceChar (h.run d (List.mem_cons_self ..))
      rw [List.cons_append] at htake hdrop
      simp only [List.nil_append, List.cons_append, splitInner, hd, Bool.false_eq_true, if_false,
        htake, hdrop]
    · simp only [List.cons_append, List.nil_append, splitInner, hc, if_true, htake, hdrop]
  rw [afterBrace, hsplit]
  simp only [closeBrace, if_neg hne]

/-- The placeholder that a brace begins is well-formed. -/
theorem wellFormed_of_afterBrace {cs : List Char} {p : Placeholder}
    (h : (afterBrace cs).1 = .placeholder p) : p.WellFormed := by
  have hbroken : ∀ taken rest, (breakOff taken rest).1 ≠ .placeholder p := by
    intro taken rest
    unfold breakOff
    split <;> simp
  unfold afterBrace closeBrace at h
  split at h
  · split at h
    · exact absurd h (hbroken _ _)
    · next hne =>
      cases h
      exact (opens_splitInner cs).wellFormed hne
  · exact absurd h (hbroken _ _)

theorem splitInner_append_brace (cs tail : List Char) :
    splitInner (cs ++ '{' :: tail) =
      ((splitInner cs).1, (splitInner cs).2.1, (splitInner cs).2.2 ++ '{' :: tail) := by
  have hstop : isReferenceChar '{' = false := by decide
  cases cs with
  | nil => rfl
  | cons c cs =>
    obtain ⟨htake, hdrop⟩ := takeWhile_append_stop hstop cs tail
    obtain ⟨htakeAll, hdropAll⟩ := takeWhile_append_stop hstop (c :: cs) tail
    rw [List.cons_append] at htakeAll hdropAll
    by_cases hc : isSymbol c = true
    · simp only [List.cons_append, splitInner, hc, if_true, htake, hdrop]
    · simp only [List.cons_append, splitInner, hc, Bool.false_eq_true, if_false, htakeAll, hdropAll]

theorem breakOff_append (taken rest tail : List Char) :
    breakOff taken (rest ++ tail) = ((breakOff taken rest).1, (breakOff taken rest).2 ++ tail) := by
  unfold breakOff
  split <;> simp

/-- Without a closing brace at once, a placeholder breaks off. -/
theorem closeBrace_of_head {rest : List Char} (h : rest.head? ≠ some '}') (sym run : List Char) :
    closeBrace sym run rest = breakOff (sym ++ run) rest := by
  unfold closeBrace
  split
  · exact absurd rfl h
  · rfl

/-- The lexeme of a brace ends in front of the next brace. -/
theorem afterBrace_append_brace (cs tail : List Char) :
    afterBrace (cs ++ '{' :: tail) = ((afterBrace cs).1, (afterBrace cs).2 ++ '{' :: tail) := by
  simp only [afterBrace, splitInner_append_brace]
  generalize (splitInner cs).1 = sym
  generalize (splitInner cs).2.1 = run
  generalize (splitInner cs).2.2 = rest
  cases rest with
  | nil =>
    rw [closeBrace_of_head (by simp), closeBrace_of_head (by simp)]
    exact breakOff_append ..
  | cons c rest =>
    by_cases hc : c = '}'
    · subst hc
      by_cases hrun : run = []
      · simp only [closeBrace, List.cons_append, hrun, if_true]
        exact breakOff_append sym ('}' :: rest) ('{' :: tail)
      · simp only [closeBrace, List.cons_append, if_neg hrun]
    · rw [closeBrace_of_head (by simpa using hc), closeBrace_of_head (by simpa using hc)]
      exact breakOff_append ..

/-! ## Lexemes -/

theorem scan_brace (cs : List Char) :
    scan ('{' :: cs) = (afterBrace cs).1 :: scan (afterBrace cs).2 := by
  rw [scan]
  rfl

theorem scan_text {c : Char} (h : c ≠ '{') (cs : List Char) :
    scan (c :: cs) = .text (.ofList (c :: cs.takeWhile notBrace)) ::
      scan (cs.dropWhile notBrace) := by
  rw [scan, if_neg h]

/-- Every brace begins a lexeme. -/
theorem scan_append_brace (cs tail : List Char) :
    scan (cs ++ '{' :: tail) = scan cs ++ scan ('{' :: tail) := by
  fun_induction scan cs with
  | case1 => rfl
  | case2 cs ih => rw [List.cons_append, scan_brace, afterBrace_append_brace, ih, List.cons_append]
  | case3 c cs hc ih =>
    have hstop : notBrace '{' = false := by decide
    obtain ⟨htake, hdrop⟩ := takeWhile_append_stop hstop cs tail
    rw [List.cons_append, scan_text hc, htake, hdrop, ih, List.cons_append]

theorem chars_ne_nil_of_mem_scan {cs : List Char} : ∀ l ∈ scan cs, l.chars ≠ [] := by
  fun_induction scan cs with
  | case1 => simp
  | case2 cs ih =>
    intro l hl
    rcases List.mem_cons.1 hl with rfl | hl
    · exact fun h => closeBrace_ne_nil _ _ _ h
    · exact ih l hl
  | case3 c cs _ ih =>
    intro l hl
    rcases List.mem_cons.1 hl with rfl | hl
    · simp [Lexeme.chars]
    · exact ih l hl

theorem wellFormed_of_mem_scan {cs : List Char} {p : Placeholder} (h : .placeholder p ∈ scan cs) :
    p.WellFormed := by
  fun_induction scan cs with
  | case1 => simp at h
  | case2 cs ih =>
    rcases List.mem_cons.1 h with h | h
    · exact wellFormed_of_afterBrace h.symm
    · exact ih h
  | case3 c cs _ ih =>
    rcases List.mem_cons.1 h with h | h
    · cases h
    · exact ih h

/-- Lexemes with spans that stand one behind the other in the bytes of a text, from an offset on to
its end. Each span is not empty, begins and ends between two characters, and holds the lexeme. -/
def Tiles (s : String) : Nat → List (Lexeme × Nat × Nat) → Prop
  | start, [] => start = s.utf8ByteSize
  | start, (l, first, stop) :: rest =>
    first = start ∧ first < stop ∧
      (∃ before after, s.toList = before ++ l.chars ++ after ∧ first = byteLength before ∧
        stop = byteLength (before ++ l.chars)) ∧
      Tiles s stop rest

theorem byteLength_toList (s : String) : byteLength s.toList = s.utf8ByteSize := by
  have hlength : ∀ cs : List Char, byteLength cs = (String.ofList cs).utf8ByteSize := by
    intro cs
    induction cs with
    | nil => rfl
    | cons c cs ih =>
      rw [String.ofList_cons, String.utf8ByteSize_append, String.utf8ByteSize_singleton, ← ih,
        byteLength_cons]
  rw [hlength, String.ofList_toList]

theorem byteLength_pos {cs : List Char} (h : cs ≠ []) : 0 < byteLength cs := by
  obtain ⟨c, cs, rfl⟩ := List.exists_cons_of_ne_nil h
  have := c.utf8Size_pos
  rw [byteLength_cons]
  omega

theorem tiles_byteSpans {s : String} {ls : List Lexeme} (hne : ∀ l ∈ ls, l.chars ≠ [])
    (before : List Char) (hs : s.toList = before ++ ls.flatMap Lexeme.chars) :
    Tiles s (byteLength before) (ls.zip (byteSpans (byteLength before) (ls.map Lexeme.chars))) := by
  induction ls generalizing before with
  | nil =>
    rw [List.flatMap_nil, List.append_nil] at hs
    rw [List.map_nil, List.zip_nil_left, Tiles, ← hs, byteLength_toList]
  | cons l ls ih =>
    rw [List.flatMap_cons, ← List.append_assoc] at hs
    have hpos := byteLength_pos (hne l (List.mem_cons_self ..))
    have hrest := ih (fun l' hl' => hne l' (List.mem_cons_of_mem _ hl')) _ hs
    rw [byteLength_append] at hrest
    refine ⟨rfl, by omega, ⟨before, ls.flatMap Lexeme.chars, hs, rfl, (byteLength_append ..).symm⟩,
      hrest⟩

theorem tiles_scanSpans (s : String) : Tiles s 0 (scanSpans s) :=
  tiles_byteSpans chars_ne_nil_of_mem_scan [] (scan_chars s.toList).symm

/-! ## Pieces -/

/-- Whether a piece is literal text. -/
def Piece.isLiteral : Piece → Bool
  | .literal _ => true
  | .placeholder _ => false

/-- Pieces whose literals are not empty and do not touch. -/
structure Separated (ps : List Piece) : Prop where
  nonempty : ∀ text, .literal text ∈ ps → text ≠ ""
  apart : ps.IsChain fun p q => ¬ (p.isLiteral = true ∧ q.isLiteral = true)

theorem Separated.tail {p : Piece} {ps : List Piece} (h : Separated (p :: ps)) : Separated ps :=
  ⟨fun text htext => h.nonempty text (List.mem_cons_of_mem _ htext),
    (List.isChain_cons.1 h.apart).2⟩

/-- What follows a literal among pieces begins with a brace. -/
theorem Separated.head?_eq_brace {text : String} {ps : List Piece}
    (h : Separated (.literal text :: ps)) {c : Char}
    (hc : (ps.flatMap Piece.chars).head? = some c) : c = '{' := by
  cases ps with
  | nil => cases hc
  | cons q ps =>
    have hq := (List.isChain_cons.1 h.apart).1 q rfl
    cases q with
    | literal s => simp [Piece.isLiteral] at hq
    | placeholder p =>
      rw [List.flatMap_cons, Piece.chars, Placeholder.chars] at hc
      exact (Option.some.inj hc).symm

theorem Separated.placeholder {ps : List Piece} (h : Separated ps) (p : Placeholder) :
    Separated (.placeholder p :: ps) := by
  refine ⟨fun text htext => h.nonempty text ?_,
    List.isChain_cons.2 ⟨fun q _ => by simp [Piece.isLiteral], h.apart⟩⟩
  simpa using htext

theorem Separated.consLiteral {ps : List Piece} (h : Separated ps) {s : String} (hs : s ≠ "") :
    Separated (consLiteral s ps) := by
  unfold Definition.consLiteral
  split
  · next s' ps =>
    -- The literal that stands there grows, and what follows it stays.
    refine ⟨fun text htext => ?_, List.isChain_cons.2 ⟨fun q hq => ?_, h.tail.apart⟩⟩
    · rcases List.mem_cons.1 htext with heq | htext
      · cases heq
        simp [hs]
      · exact h.tail.nonempty text htext
    · exact (List.isChain_cons.1 h.apart).1 q hq
  · next hfirst =>
    refine ⟨fun text htext => ?_, List.isChain_cons.2 ⟨fun q hq => ?_, h.apart⟩⟩
    · rcases List.mem_cons.1 htext with heq | htext
      · cases heq
        exact hs
      · exact h.nonempty text htext
    · cases q with
      | placeholder p => simp [Piece.isLiteral]
      | literal s' =>
        obtain ⟨ps', rfl⟩ := List.head?_eq_some_iff.1 hq
        exact absurd rfl (hfirst s' ps')

theorem separated_joinLexemes {ls : List Lexeme} (hne : ∀ l ∈ ls, l.chars ≠ []) :
    Separated (joinLexemes ls) := by
  induction ls with
  | nil => exact ⟨by simp [joinLexemes], .nil⟩
  | cons l ls ih =>
    have hl := hne l (List.mem_cons_self ..)
    have hrest := ih fun l' hl' => hne l' (List.mem_cons_of_mem _ hl')
    cases l with
    | placeholder p => exact hrest.placeholder p
    | text s => exact hrest.consLiteral fun hs => hl (by simp [Lexeme.chars, hs])
    | brace => exact hrest.consLiteral (by decide)
    | broken s => exact hrest.consLiteral fun hs => hl (by simp [Lexeme.chars, hs])

theorem consLiteral_append {s : String} (ps : List Piece) (p : Placeholder) (qs : List Piece) :
    consLiteral s (ps ++ .placeholder p :: qs) = consLiteral s ps ++ .placeholder p :: qs := by
  rcases ps with _ | ⟨_ | _, ps⟩ <;> rfl

theorem joinLexemes_append (ls : List Lexeme) (p : Placeholder) (ms : List Lexeme) :
    joinLexemes (ls ++ .placeholder p :: ms) =
      joinLexemes ls ++ .placeholder p :: joinLexemes ms := by
  induction ls with
  | nil => rfl
  | cons l ls ih => cases l <;> simp only [List.cons_append, joinLexemes, ih, consLiteral_append]

theorem mem_joinLexemes {ls : List Lexeme} {p : Placeholder} :
    .placeholder p ∈ joinLexemes ls ↔ .placeholder p ∈ ls := by
  have hcons : ∀ s ps, .placeholder p ∈ consLiteral s ps ↔ .placeholder p ∈ ps := by
    intro s ps
    rcases ps with _ | ⟨_ | _, ps⟩ <;> simp [consLiteral]
  induction ls with
  | nil => simp [joinLexemes]
  | cons l ls ih => cases l <;> simp [joinLexemes, hcons, ih]

theorem pieces_nil : pieces (.ofList []) = [] := by
  rw [pieces, String.toList_ofList, scan]
  rfl

theorem wellFormed_of_mem_pieces {s : String} {p : Placeholder} (h : .placeholder p ∈ pieces s) :
    p.WellFormed :=
  wellFormed_of_mem_scan (mem_joinLexemes.1 h)

/-- A placeholder is found wherever it is written, and what is on both sides of it is taken apart on
its own. -/
theorem pieces_append_placeholder {p : Placeholder} (hp : p.WellFormed) (before after : List Char) :
    pieces (.ofList (before ++ p.chars ++ after)) =
      pieces (.ofList before) ++ .placeholder p :: pieces (.ofList after) := by
  obtain ⟨sym, run, hchars, hopens, hne⟩ := hp.form.exists_opens hp.ascii
  have hinner : p.inner = sym ++ run := by
    rw [Placeholder.chars, List.cons.injEq] at hchars
    exact List.append_cancel_right hchars.2
  have htext : before ++ p.chars ++ after = before ++ '{' :: (sym ++ run ++ '}' :: after) := by
    rw [hchars]
    simp
  have hread : Placeholder.ofInner (sym ++ run) = p := by rw [← hinner, hp.read]
  simp only [pieces, String.toList_ofList]
  rw [htext, scan_append_brace, scan_brace, afterBrace_opens hopens hne, hread, joinLexemes_append]

theorem pieces_append_literal {text : String} (hne : text ≠ "") (hbrace : '{' ∉ text.toList)
    {rest : List Char} (hrest : ∀ c, rest.head? = some c → c = '{') :
    pieces (.ofList (text.toList ++ rest)) = consLiteral text (pieces (.ofList rest)) := by
  obtain ⟨c, cs, hcs⟩ := List.exists_cons_of_ne_nil (mt String.toList_eq_nil_iff.1 hne)
  rw [hcs, List.mem_cons, not_or] at hbrace
  have hall : ∀ d ∈ cs, notBrace d = true := by
    intro d hd
    simp only [notBrace, bne_iff_ne]
    rintro rfl
    exact hbrace.2 hd
  have hstop : rest.takeWhile notBrace = [] ∧ rest.dropWhile notBrace = rest := by
    cases rest with
    | nil => exact ⟨rfl, rfl⟩
    | cons d rest =>
      rw [hrest d rfl]
      exact ⟨rfl, rfl⟩
  simp only [pieces, String.toList_ofList]
  rw [hcs, List.cons_append, scan_text (Ne.symm hbrace.1), List.takeWhile_append_of_pos hall,
    List.dropWhile_append_of_pos hall, hstop.1, hstop.2, List.append_nil, ← hcs,
    String.ofList_toList, joinLexemes]

/-- Taking written pieces apart gives them back. -/
theorem pieces_flatMap_chars {ps : List Piece} (h : Separated ps)
    (hbrace : ∀ text, .literal text ∈ ps → '{' ∉ text.toList)
    (hform : ∀ p, .placeholder p ∈ ps → p.WellFormed) :
    pieces (.ofList (ps.flatMap Piece.chars)) = ps := by
  induction ps with
  | nil => exact pieces_nil
  | cons piece ps ih =>
    have hrest := ih h.tail (fun text htext => hbrace text (List.mem_cons_of_mem _ htext))
      fun p hp => hform p (List.mem_cons_of_mem _ hp)
    cases piece with
    | placeholder p =>
      have hp := pieces_append_placeholder (hform p (List.mem_cons_self ..))
        [] (ps.flatMap Piece.chars)
      rw [hrest, pieces_nil] at hp
      exact hp
    | literal text =>
      have hliteral := pieces_append_literal (h.nonempty text (List.mem_cons_self ..))
        (hbrace text (List.mem_cons_self ..)) fun _ => h.head?_eq_brace
      rw [List.flatMap_cons, Piece.chars, hliteral, hrest]
      cases ps with
      | nil => rfl
      | cons q ps =>
        have hq := (List.isChain_cons.1 h.apart).1 q rfl
        cases q with
        | literal s => simp [Piece.isLiteral] at hq
        | placeholder p => rfl

/-- **Splitting is exact, but for signs that are not ASCII.** The lexemes of a text lie in it
without a gap; its pieces written one behind the other are the text, and their literals are not
empty and do not touch; a part of the text is a placeholder among the pieces just if it has the form
of one, in ASCII; and pieces of this kind, without a brace in their literals, come back when they
are written and taken apart. -/
theorem pieces_exact (s : String) :
    Tiles s 0 (scanSpans s) ∧ (pieces s).flatMap Piece.chars = s.toList ∧ Separated (pieces s) ∧
      (∀ a w b, s.toList = a ++ w ++ b →
        (IsPlaceholder w ∧ IsAscii w ↔ ∃ before p after,
          pieces s = before ++ .placeholder p :: after ∧ before.flatMap Piece.chars = a ∧
          p.chars = w ∧ after.flatMap Piece.chars = b)) ∧
      ∀ ps, Separated ps → (∀ text, .literal text ∈ ps → '{' ∉ text.toList) →
        (∀ p, .placeholder p ∈ ps → p.WellFormed) →
          pieces (.ofList (ps.flatMap Piece.chars)) = ps := by
  refine ⟨tiles_scanSpans s, chars_pieces s, separated_joinLexemes chars_ne_nil_of_mem_scan, ?_,
    fun _ => pieces_flatMap_chars⟩
  intro a w b hs
  constructor
  · rintro ⟨hform, hascii⟩
    obtain ⟨sym, run, rfl, hopens, hne⟩ := hform.exists_opens hascii
    rw [← chars_ofInner] at hs ⊢
    have hpieces := pieces_append_placeholder (hopens.wellFormed hne) a b
    rw [← hs, String.ofList_toList] at hpieces
    refine ⟨_, _, _, hpieces, ?_, rfl, ?_⟩ <;> rw [chars_pieces, String.toList_ofList]
  · rintro ⟨before, p, after, hpieces, -, rfl, -⟩
    have hp : p.WellFormed := wellFormed_of_mem_pieces (s := s) (by simp [hpieces])
    exact ⟨hp.form, hp.ascii⟩

/-- A reference between texts, one of which has a brace and a sign that is not ASCII. -/
theorem pieces_exact_reference :
    (∃ before p after, pieces "a{@b.c}\x7bé1" = before ++ .placeholder p :: after ∧
        before.flatMap Piece.chars = ['a'] ∧ p.chars = "{@b.c}".toList ∧
        after.flatMap Piece.chars = "\x7bé1".toList) ∧
      pieces (.ofList ([Piece.placeholder ⟨some '@', "b.c"⟩, .literal "é"].flatMap Piece.chars)) =
        [.placeholder ⟨some '@', "b.c"⟩, .literal "é"] := by
  have hopens : Opens ['@'] ['b', '.', 'c'] := ⟨.inr ⟨'@', by decide, rfl⟩, List.all_eq_true.1 rfl⟩
  have hform : IsPlaceholder "{@b.c}".toList ∧ IsAscii "{@b.c}".toList :=
    hopens.isPlaceholder (by decide)
  have hwell : Placeholder.WellFormed ⟨some '@', "b.c"⟩ := ⟨hform.1, hform.2, by decide⟩
  obtain ⟨-, -, -, hfound, hback⟩ := pieces_exact "a{@b.c}\x7bé1"
  refine ⟨(hfound _ _ _ rfl).1 hform, hback _ ⟨by simp, by simp [Piece.isLiteral]⟩ (by simp) ?_⟩
  intro p hp
  simp only [List.mem_cons, Piece.placeholder.injEq, reduceCtorEq, List.not_mem_nil, or_false] at hp
  exact hp ▸ hwell

/-- A sign that is not ASCII: the text has the form of a placeholder and is one literal. -/
theorem pieces_accentedSign :
    IsPlaceholder "\x7béa\x7d".toList ∧ pieces "\x7béa\x7d" = [.literal "\x7béa\x7d"] ∧
      (⟨some 'é', "a"⟩ : Placeholder).chars = "\x7béa\x7d".toList :=
  ⟨@IsPlaceholder.signed 'é' ['a'] (by decide) (by decide) (List.all_eq_true.1 rfl),
    by decide +kernel, by decide⟩

end Stencil.Definition
