import Stencil.Proofs.Template.Spelling
import Stencil.Proofs.Token.Matching
import Stencil.Template.Parse

/-!
# What a template parses

A template whose tokens mean in its expression what they mean alone parses exactly the texts that it
can be spelled as, and gives each token the value of the text that it stands for
(`Template.parse_spelling`).
-/

namespace Stencil

open Pattern Pattern.Composite Segment

/-! ## Values -/

namespace Template

section

variable {textOf : String → Option String} {ts : List Token} {fs gs : Fields} {x : String}

/-- A name that has a value keeps it. -/
theorem readTokens_known (h : readTokens textOf ts fs = .ok gs) {v : Value}
    (hx : fs.get? x = some v) : gs.get? x = some v := by
  induction ts generalizing fs with
  | nil =>
    cases h
    exact hx
  | cons t ts ih =>
    rw [readTokens] at h
    split at h
    · exact ih h hx
    · next hnew =>
      split at h
      · exact ih h hx
      · split at h
        · cases h
        · refine ih h ?_
          rw [NameMap.get?_insert, if_neg]
          · exact hx
          · rintro rfl
            simp [NameMap.contains, hx] at hnew

/-- A name that has no value gets that of the text of its first token, if there is one. -/
theorem readTokens_new {τ : String → String} (htext : ∀ u ∈ ts, textOf u.name = some (τ u.name))
    (h : readTokens textOf ts fs = .ok gs) (hx : fs.get? x = none) :
    (ts.find? (·.name = x) = none → gs.get? x = none) ∧
      ∀ u, ts.find? (·.name = x) = some u → ∃ v, u.readValue (τ x) = .ok v ∧
        gs.get? x = some v := by
  induction ts generalizing fs with
  | nil =>
    cases h
    exact ⟨fun _ => hx, fun u hu => by cases hu⟩
  | cons t ts ih =>
    have htext' : ∀ u ∈ ts, textOf u.name = some (τ u.name) := fun u hu =>
      htext u (List.mem_cons_of_mem _ hu)
    rw [readTokens] at h
    by_cases hknown : fs.contains t.name = true
    · rw [if_pos hknown] at h
      have hne : t.name ≠ x := by
        rintro rfl
        simp [NameMap.contains, hx] at hknown
      simpa [List.find?_cons, hne] using ih htext' h hx
    · simp only [if_neg hknown, htext t (List.mem_cons_self ..)] at h
      cases hv : t.readValue (τ t.name) with
      | error e => simp [hv] at h
      | ok v =>
        simp only [hv] at h
        by_cases hne : t.name = x
        · subst hne
          have hinsert : (fs.insert t.name v).get? t.name = some v := by
            rw [NameMap.get?_insert, if_pos rfl]
          have hget := readTokens_known h hinsert
          simp [hv, hget]
        · have hx' : (fs.insert t.name v).get? x = none := by
            rw [NameMap.get?_insert, if_neg hne, hx]
          simpa [List.find?_cons, hne] using ih htext' h hx'

/-- The values of the tokens can be read if the text of each token stands for one. -/
theorem exists_readTokens {τ : String → String} (htext : ∀ u ∈ ts, textOf u.name = some (τ u.name))
    (hvalues : ∀ u ∈ ts, ∃ v, u.readValue (τ u.name) = .ok v) :
    ∃ gs, readTokens textOf ts fs = .ok gs := by
  induction ts generalizing fs with
  | nil => exact ⟨fs, rfl⟩
  | cons t ts ih =>
    have htext' : ∀ u ∈ ts, textOf u.name = some (τ u.name) := fun u hu =>
      htext u (List.mem_cons_of_mem _ hu)
    have ih := fun fs => @ih fs htext' fun u hu => hvalues u (List.mem_cons_of_mem _ hu)
    obtain ⟨v, hv⟩ := hvalues t (List.mem_cons_self ..)
    rw [readTokens]
    split
    · exact ih fs
    · simp only [htext t (List.mem_cons_self ..), hv]
      exact ih _

end

end Template

/-! ## Parsing -/

/-- The token means in the expression of a template what it means alone: its name can be that of a
group, and its expression is made of characters, leaves nothing behind and matches alone what it
stands for there. -/
def Token.Composable (u : Token) : Prop :=
  isIdentifier u.name = true ∧
    ∃ p, alone? u.regex = some p ∧ p.isRegular = true ∧ ∀ w, u.matches? w = true ↔
      w.toList ∈ p.language

/-- It does if both readers read the expression as the same pattern of characters. -/
theorem Token.composable_of_alone {u : Token} (hu : u.Valid)
    (hname : isIdentifier u.name = true) {p : Pattern} (hplain : Reader.alone? u.regex = some p)
    (hcomposite : Composite.alone? u.regex = some p) (hp : p.isRegular = true) : u.Composable :=
  ⟨hname, p, hcomposite, hp, u.matches?_iff hu hplain hp⟩

namespace Template

/-- The template can be spelled as a text by giving to each name a text that its first token
matches. -/
structure Spells (t : Template) (τ : String → String) (cs : List Char) : Prop where
  matched : ∀ name u, first? name t.flat = some u → u.matches? (τ name) = true
  spelled : t.flat.flatMap (spell τ) = cs

variable {t : Template}

theorem create_eq {name : String} {kind : TemplateKind} {segments : List Segment}
    (h : create name kind segments = .ok t) :
    t.segments = segments ∧ t.kind = kind ∧ t.name = name ∧
      Composite.read ("^" ++ t.regex ++ "$") = .ok t.whole ∧
      Composite.read ("^" ++ t.regex) = .ok t.leading := by
  unfold create at h
  simp only at h
  split at h
  · cases h
  next whole hwhole =>
  split at h
  · cases h
  next leading hleading =>
  cases h
  exact ⟨rfl, rfl, rfl, hwhole, hleading⟩

/-- A template is only refused because its expression is. -/
theorem create_eq_error {name : String} {kind : TemplateKind} {segments : List Segment}
    {error : BuildError} (h : create name kind segments = .error error) :
    ∃ fault, error = .invalidRegex name fault := by
  unfold create at h
  simp only at h
  split at h
  · next fault _ =>
    cases h
    exact ⟨fault, rfl⟩
  · split at h
    · next fault _ =>
      cases h
      exact ⟨fault, rfl⟩
    · cases h

/-- The patterns of a template's expression. -/
theorem exists_composes {name : String} {kind : TemplateKind} {segments : List Segment}
    (h : create name kind segments = .ok t) (htokens : ∀ u, .token u ∈ t.flat → u.Composable) :
    ∃ ps, Composes [] t.flat ps t.whole.names ∧
      t.whole.pattern = .concat (.check .textStart :: (ps ++ [.check .textEnd])) := by
  obtain ⟨-, -, -, hwhole, -⟩ := create_eq h
  refine read_whole (fun u hu => ?_) hwhole
  obtain ⟨hname, p, hp, -⟩ := htokens u hu
  exact ⟨hname, by rw [hp]; rfl⟩

section

variable {ps : List Pattern} {names : List (String × Nat)} {strict : Bool} {text : Array Char}

theorem isRegular_of_composable (htokens : ∀ u, .token u ∈ t.flat → u.Composable)
    (u : Token) (p : Pattern) (hu : .token u ∈ t.flat) (hp : alone? u.regex = some p) :
    p.isRegular = true := by
  obtain ⟨-, q, hq, hregular, -⟩ := htokens u hu
  rw [hp] at hq
  cases hq
  exact hregular

/-- A way over a whole text spells it. -/
theorem Spells.of_way (h : Composes [] t.flat ps names)
    (htokens : ∀ u, .token u ∈ t.flat → u.Composable) {e : Spot}
    (he : e ∈ waysAll strict text ps ⟨0, []⟩) (hsize : e.pos = text.size) :
    ∃ τ, t.Spells τ text.toList ∧ Holds text e names τ := by
  have hnone : Holds text ⟨0, []⟩ [] fun _ => "" := fun m hm => by cases hm
  obtain ⟨τ, -, hholds, hspans, hfits⟩ :=
    h.exists_spelling (isRegular_of_composable htokens) hnone he
  refine ⟨τ, ⟨fun name u hu => ?_, ?_⟩, hholds⟩
  · obtain ⟨-, p, hp, -, hmatches⟩ := htokens u (token_mem_of_first? hu).1
    exact (hmatches _).2 (hfits u name hu (by simp) p hp)
  · rw [hsize] at hspans
    exact Spans.whole_iff.1 hspans

/-- There is a way over each whole text that can be spelled. -/
theorem Spells.exists_way (h : Composes [] t.flat ps names)
    (htokens : ∀ u, .token u ∈ t.flat → u.Composable) {τ : String → String}
    (hτ : t.Spells τ text.toList) : ∃ e ∈ waysAll strict text ps ⟨0, []⟩, e.pos = text.size := by
  have hnone : Holds text ⟨0, []⟩ [] τ := fun m hm => by cases hm
  have hfits : Fits [] t.flat τ := by
    intro u name hu _ p hp
    obtain ⟨-, q, hq, -, hmatches⟩ := htokens u (token_mem_of_first? hu).1
    rw [hp] at hq
    cases hq
    exact (hmatches _).1 (hτ.matched name u hu)
  refine h.exists_way (isRegular_of_composable htokens) hnone (Nat.zero_le _) hfits ?_
  rw [hτ.spelled]
  exact Spans.whole_iff.2 rfl

end

/-- The texts of the groups are those that a way has spelled. -/
theorem groupText?_eq {e : Expression} {f : Found} {text : Array Char} {τ : String → String}
    (h : Holds text f.stop e.names τ) {name : String} (hname : name ∈ e.names.map Prod.fst) :
    e.groupText? f text name = some (τ name) := by
  cases hlookup : e.names.lookup name with
  | none =>
    obtain ⟨m, hm, rfl⟩ := List.mem_map.1 hname
    exact absurd (List.lookup_eq_none_iff.1 hlookup m hm) (by simp)
  | some i =>
    obtain ⟨a, b, hgroup, hspans⟩ := h (name, i) (mem_names_of_lookup hlookup)
    simp only [Expression.groupText?, Expression.named?, hlookup, Option.bind_some, hgroup,
      Option.map_some, hspans.extract_eq, String.ofList_toList]

theorem token_mem_flat {u : Token} : u ∈ t.tokens false ↔ .token u ∈ t.flat := by
  constructor
  · intro hu
    obtain ⟨s, hs, hu⟩ := List.mem_filterMap.1 hu
    cases s with
    | token t =>
      cases hu
      exact hs
    | literal => cases hu
    | template => cases hu
  · exact fun hu => List.mem_filterMap.2 ⟨_, hu, rfl⟩

/-- Where no choices are taken back, a match is the first of the ways. -/
theorem matchWith_plain {e : Expression} (h : Anchored e.pattern)
    (hback : e.pattern.needsBacktracking = false) (s : String) : t.matchWith e s =
      match (ways false (t.kind.prepare s.toList).toArray e.pattern ⟨0, []⟩).head? with
      | none => .error (.mismatch t.display s)
      | some stop =>
        match readTokens (e.groupText? ⟨0, stop⟩ (t.kind.prepare s.toList).toArray)
          (t.tokens false) .empty with
        | .error e => .error (.token e)
        | .ok fields => .ok (fields, stop.pos) := by
  rw [matchWith, h.searchComposite_plain hback]
  cases (ways false _ e.pattern ⟨0, []⟩).head? <;> rfl

theorem parse_eq_givenUp_iff {s : String} {why : Exhaustion} :
    t.parse s = .error (.givenUp ⟨t.name, why⟩) ↔
      t.whole.searchComposite (t.kind.prepare s.toList).toArray = .givenUp why := by
  rw [parse, matchWith]
  cases t.whole.searchComposite (t.kind.prepare s.toList).toArray with
  | none => simp [Except.map]
  | givenUp why' => simp [Except.map]
  | found f =>
    simp only [reduceCtorEq, iff_false]
    cases readTokens (t.whole.groupText? f (t.kind.prepare s.toList).toArray)
      (t.tokens false) .empty <;> simp [Except.map]

/-- What a parse comes to: the search is given up, the text cannot be spelled, or a spelling gives
each token its text. -/
theorem parse_cases {name : String} {kind : TemplateKind} {segments : List Segment}
    (h : create name kind segments = .ok t) (htokens : ∀ u, .token u ∈ t.flat → u.Composable)
    (s : String) :
    (∃ why, t.parse s = .error (.givenUp ⟨t.name, why⟩)) ∨
      (t.parse s = .error (.mismatch t.display s) ∧ ¬ ∃ τ, t.Spells τ (t.kind.prepare s.toList)) ∨
      ∃ τ textOf, t.Spells τ (t.kind.prepare s.toList) ∧
        (∀ u ∈ t.tokens false, textOf u.name = some (τ u.name)) ∧
          t.parse s = (readTokens textOf (t.tokens false) .empty).mapError .token := by
  obtain ⟨ps, hps, hpattern⟩ := exists_composes h htokens
  have hanchored : Anchored t.whole.pattern := hpattern ▸ anchored_concat _
  generalize htext : t.kind.prepare s.toList = text
  have hparse : t.parse s = (t.matchWith t.whole s).map (·.1) := rfl
  simp only [matchWith, htext] at hparse
  rcases @Anchored.searchComposite text.toArray _ hanchored with
    ⟨why, hsearch⟩ | ⟨strict, ⟨e, hsearch, hhead⟩ | ⟨hsearch, hnil⟩⟩
  · rw [hsearch] at hparse
    exact .inl ⟨why, hparse⟩
  · -- The way that is found spells the text.
    have he := List.mem_of_mem_head? hhead
    rw [hpattern, mem_ways_whole] at he
    obtain ⟨τ, hτ, hholds⟩ := Spells.of_way hps htokens he.1 he.2
    have htexts : ∀ u ∈ t.tokens false,
        t.whole.groupText? ⟨0, e⟩ text.toArray u.name = some (τ u.name) :=
      fun u hu => groupText?_eq hholds (hps.mem_names (token_mem_flat.1 hu))
    rw [hsearch] at hparse
    simp only at hparse
    refine .inr (.inr ⟨τ, _, hτ, htexts, ?_⟩)
    rw [hparse]
    cases readTokens (t.whole.groupText? ⟨0, e⟩ text.toArray) (t.tokens false) .empty <;> rfl
  · -- Nothing is found because there is no way, and so no spelling.
    rw [hsearch] at hparse
    refine .inr (.inl ⟨hparse, ?_⟩)
    rintro ⟨τ, hτ⟩
    obtain ⟨e, he, hsize⟩ := @Spells.exists_way _ _ _ strict text.toArray hps htokens τ hτ
    have := mem_ways_whole.2 ⟨he, hsize⟩
    rw [← hpattern, hnil] at this
    cases this

/-- Unless the search is given up, what is refused as no match is what cannot be spelled. -/
theorem parse_eq_mismatch_iff {name : String} {kind : TemplateKind}
    {segments : List Segment} {s : String} (h : create name kind segments = .ok t)
    (htokens : ∀ u, .token u ∈ t.flat → u.Composable)
    (hlimit : ∀ why, t.parse s ≠ .error (.givenUp ⟨t.name, why⟩)) :
    t.parse s = .error (.mismatch t.display s) ↔ ¬ ∃ τ, t.Spells τ (t.kind.prepare s.toList) := by
  rcases parse_cases h htokens s with ⟨why, hgiven⟩ | ⟨hparse, hnone⟩ | ⟨τ, textOf, hτ, -, hparse⟩
  · exact absurd hgiven (hlimit why)
  · exact iff_of_true hparse hnone
  · refine iff_of_false (fun hmismatch => ?_) (not_not_intro ⟨τ, hτ⟩)
    rw [hmismatch] at hparse
    cases hread :
      readTokens textOf (t.tokens false) .empty <;> simp [hread, Except.mapError] at hparse

/-- The names that have a value are those of the tokens, and the first token of a name has read
it. -/
theorem readTokens_fields {textOf : String → Option String} {τ : String → String} {fields : Fields}
    (htext : ∀ u ∈ t.tokens false, textOf u.name = some (τ u.name))
    (h : readTokens textOf (t.tokens false) .empty = .ok fields) (x : String) :
    (fields.contains x = true ↔ ∃ u ∈ t.tokens false, u.name = x) ∧
      ∀ u, first? x t.flat = some u → ∃ v, u.readValue (τ x) = .ok v ∧ fields.get? x = some v := by
  obtain ⟨hnone, hsome⟩ := readTokens_new htext h (NameMap.get?_empty x)
  refine ⟨?_, hsome⟩
  rw [NameMap.contains]
  cases hfirst : (t.tokens false).find? (·.name = x) with
  | none =>
    rw [hnone hfirst]
    simpa using List.find?_eq_none.1 hfirst
  | some u =>
    obtain ⟨v, -, hget⟩ := hsome u hfirst
    have hname : u.name = x := by simpa using List.find?_some hfirst
    rw [hget]
    exact iff_of_true rfl ⟨u, List.mem_of_find?_eq_some hfirst, hname⟩

theorem mapError_eq_ok {ε δ α : Type} {f : ε → δ} {x : Except ε α} {a : α} :
    x.mapError f = .ok a ↔ x = .ok a := by
  cases x <;> simp [Except.mapError]

/-- What is parsed is spelled, and the first token of a name has read its text. -/
theorem exists_spells_of_parse {name : String} {kind : TemplateKind}
    {segments : List Segment} {s : String} {fields : Fields} (h : create name kind segments = .ok t)
    (htokens : ∀ u, .token u ∈ t.flat → u.Composable) (hparse : t.parse s = .ok fields) :
    ∃ τ, t.Spells τ (t.kind.prepare s.toList) ∧
      ∀ x u, first? x t.flat = some u → ∃ v, u.readValue (τ x) = .ok v ∧
        fields.get? x = some v := by
  rcases parse_cases h htokens s with ⟨why, hgiven⟩ | ⟨hmismatch, -⟩ | ⟨τ,
    textOf, hτ, htext, hvalues⟩
  · rw [hparse] at hgiven
    cases hgiven
  · rw [hparse] at hmismatch
    cases hmismatch
  · rw [hparse, eq_comm, mapError_eq_ok] at hvalues
    exact ⟨τ, hτ, fun x => (readTokens_fields htext hvalues x).2⟩

/-- A template whose tokens can stand in its expression parses what it can be spelled as and nothing
else, and gives each name the value of its text. -/
theorem parse_spelling {name : String} {kind : TemplateKind} {segments : List Segment}
    (h : create name kind segments = .ok t) (htokens : ∀ u, .token u ∈ t.flat → u.Composable)
    (s : String) (hlimit : ∀ why, t.parse s ≠ .error (.givenUp ⟨t.name, why⟩)) :
    (t.parse s ≠ .error (.mismatch t.display s) ↔ ∃ τ, t.Spells τ (t.kind.prepare s.toList)) ∧
      ∀ fields, t.parse s = .ok fields → ∃ τ, t.Spells τ (t.kind.prepare s.toList) ∧
        ∀ x, (fields.contains x = true ↔ ∃ u ∈ t.tokens false, u.name = x) ∧
          ∀ u, first? x t.flat = some u → ∃ v, u.readValue (τ x) = .ok v ∧
            fields.get? x = some v := by
  rcases parse_cases h htokens s with ⟨why, hgiven⟩ | ⟨hparse, hnone⟩ | ⟨τ,
    textOf, hτ, htext, hparse⟩
  · exact absurd hgiven (hlimit why)
  · rw [hparse]
    exact ⟨iff_of_false (by simp) hnone, fun fields hfields => by cases hfields⟩
  · rw [hparse]
    cases hread : readTokens textOf (t.tokens false) .empty with
    | error fault =>
      exact ⟨iff_of_true (by simp [Except.mapError]) ⟨τ, hτ⟩,
        fun fields hfields => by cases hfields⟩
    | ok fields =>
      refine ⟨iff_of_true (by simp [Except.mapError]) ⟨τ, hτ⟩, fun fields' hfields => ?_⟩
      cases hfields
      exact ⟨τ, hτ, readTokens_fields htext hread⟩

/-! ## Two templates

The theorem at a template with a repeated token, and a template outside its reach: a flag that a
token's expression sets stays set in the literal that follows the token. -/

/-- A token of letters. -/
def letters : Token :=
  ⟨"x", .text, "a+",
    ⟨.concat [.check .textStart, .repeated (.char 'a') 1 none true, .check .textEnd], []⟩,
      .typed none, "", none⟩

/-- The same letters on both sides of a hyphen. -/
def lettersTwice : Template :=
  ⟨"t", .standard, [.token letters, .literal "-", .token letters],
    ⟨.concat [.check .textStart, .group 1 (.repeated (.char 'a') 1 none true), .char '-', .again 1,
      .check .textEnd], [("x", 1)]⟩,
    ⟨.concat [.check .textStart, .group 1 (.repeated (.char 'a') 1 none true), .char '-', .again 1],
      [("x", 1)]⟩⟩

theorem composable_letters (u : Token) (hu : .token u ∈ lettersTwice.flat) : u.Composable := by
  have hflat : lettersTwice.flat = [.token letters, .literal "-", .token letters] := rfl
  obtain rfl : u = letters := by simpa [hflat] using hu
  refine Token.composable_of_alone (p := .repeated (.char 'a') 1 none true) rfl rfl ?_ ?_ rfl
  · rfl
  · rfl

theorem parse_spelling_lettersTwice :
    create "t" .standard [.token letters, .literal "-", .token letters] = .ok lettersTwice ∧
      (∀ u, .token u ∈ lettersTwice.flat → u.Composable) ∧
      (∀ why, lettersTwice.parse "aa-aa" ≠ .error (.givenUp ⟨"t", why⟩)) ∧
      (lettersTwice.parse "aa-aa" ≠ .error (.mismatch lettersTwice.display "aa-aa") ↔
        ∃ τ, lettersTwice.Spells τ (lettersTwice.kind.prepare "aa-aa".toList)) := by
  have hcreate : create "t" .standard [.token letters, .literal "-", .token letters] =
      .ok lettersTwice := rfl
  have hlimit : ∀ why, lettersTwice.parse "aa-aa" ≠ .error (.givenUp ⟨"t", why⟩) := by
    intro why
    cases why <;> decide
  exact ⟨hcreate, composable_letters, hlimit,
    (parse_spelling hcreate composable_letters "aa-aa" hlimit).1⟩

/-- A token of one letter of either case. -/
def anyCase : Token :=
  ⟨"a", .custom, "(?i)x",
    ⟨.concat [.check .textStart, .concat [.one (.fold true (.single 'x'))], .check .textEnd], []⟩,
    .typed none, "", none⟩

/-- That letter before a literal. -/
def anyCaseFirst : Template :=
  ⟨"t", .standard, [.token anyCase, .literal "b"],
    ⟨.concat [.check .textStart, .group 1 (.concat [.empty, .one (.fold true (.single 'x'))]),
      .one (.fold true (.single 'b')), .check .textEnd], [("a", 1)]⟩,
    ⟨.concat [.check .textStart, .group 1 (.concat [.empty, .one (.fold true (.single 'x'))]),
      .one (.fold true (.single 'b'))], [("a", 1)]⟩⟩

/-- The expression matches the literal in the other case too, which no spelling has. -/
theorem parse_flag_outside_token :
    Token.create "a" .custom "(?i)x" (.typed none) = .ok anyCase ∧
      create "t" .standard [.token anyCase, .literal "b"] = .ok anyCaseFirst ∧
      (∃ fields, anyCaseFirst.parse "xB" = .ok fields) ∧
      ¬ ∃ τ, anyCaseFirst.Spells τ (anyCaseFirst.kind.prepare "xB".toList) := by
  refine ⟨rfl, rfl, ⟨NameMap.empty.insert "a" (.text "x"), by decide⟩, ?_⟩
  rintro ⟨τ, hτ⟩
  have hspelled := hτ.spelled
  have hflat : anyCaseFirst.flat = [.token anyCase, .literal "b"] := rfl
  rw [hflat] at hspelled
  have hlast : some 'b' = some 'B' := by
    simpa [spell, anyCaseFirst, TemplateKind.prepare] using congrArg List.getLast? hspelled
  exact absurd hlast (by decide)

end Template

end Stencil
