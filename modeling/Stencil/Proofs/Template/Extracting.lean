import Stencil.Proofs.Pattern.WithDollar
import Stencil.Proofs.Template.Parsing

/-!
# Taking a template off the beginning of a text

What `extract` takes off the beginning of a text is a text that the template parses, with the same
fields (`parse_of_extract`). The two expressions of a template are read apart, but the one that
matches whole texts is the other one with a dollar sign behind, and so its pattern is that of the
other one with the end of the text (`ended_of_read`). The search for it in the shortened text then
goes the way of the first search (`searchComposite_extract`), and the number of bytes is that of the
text as it was given, for separators take a byte each (`byteLength_prepare`).

Nothing in the expression may look ahead or hold to a preferred way. That is so if it is so of each
token that can be read alone (`isLocal_leading`).
-/

namespace Stencil

open Pattern Pattern.Composite Segment

/-! ## Prepared texts -/

theorem TemplateKind.prepare_take (kind : TemplateKind) (cs : List Char) (n : Nat) :
    (kind.prepare cs).take n = kind.prepare (cs.take n) := by
  cases kind with
  | standard => rfl
  | path => exact (List.map_take ..).symm

/-- Either separator takes a byte. -/
theorem TemplateKind.byteLength_prepare (kind : TemplateKind) (cs : List Char) :
    byteLength (kind.prepare cs) = byteLength cs := by
  cases kind with
  | standard => rfl
  | path =>
    simp only [prepare]
    induction cs with
    | nil => rfl
    | cons c cs ih =>
      rw [List.map_cons, byteLength_cons, byteLength_cons, ih]
      split
      · next hc =>
        subst hc
        rfl
      · rfl

/-! ## Patterns that are put together -/

namespace Pattern

variable {p q : Pattern} {ps : List Pattern}

theorem Renumbered.isLocal_eq {ok : Nat → Prop} (h : p.Renumbered ok q) :
    q.isLocal = p.isLocal := by
  induction h <;> simp_all [isLocal]

theorem isLocal_concat (h : ∀ p ∈ ps, p.isLocal = true) : (concat ps).isLocal = true :=
  @concat_of_forall (·.isLocal = true) rfl (fun hp hq => Bool.and_eq_true_iff.2 ⟨hp, hq⟩) ps h

end Pattern

theorem Segment.Composes.isLocal {names names' : List (String × Nat)}
    {ss : List Segment} {ps : List Pattern} (h : Composes names ss ps names')
    (htokens : ∀ u, .token u ∈ ss → ∃ p, Composite.alone? u.regex = some p ∧ p.isLocal = true) :
    ∀ p ∈ ps, p.isLocal = true := by
  induction h with
  | nil => exact fun p hp => nomatch hp
  | literal w _ ih =>
    intro p hp
    rcases List.mem_append.1 hp with hp | hp
    · obtain ⟨c, -, rfl⟩ := List.mem_map.1 hp
      rfl
    · exact ih (fun u hu => htokens u (List.mem_cons_of_mem _ hu)) p hp
  | group new below read renumbered _ ih =>
    intro p hp
    rcases List.mem_cons.1 hp with rfl | hp
    · obtain ⟨p', hp', hlocal⟩ := htokens _ (List.mem_cons_self ..)
      rw [read] at hp'
      cases hp'
      exact renumbered.isLocal_eq.trans hlocal
    · exact ih (fun u hu => htokens u (List.mem_cons_of_mem _ hu)) p hp
  | again known _ ih =>
    intro p hp
    rcases List.mem_cons.1 hp with rfl | hp
    · rfl
    · exact ih (fun u hu => htokens u (List.mem_cons_of_mem _ hu)) p hp

namespace Template

variable {t : Template} {s : String} {fields : Fields} {stop : Nat}

/-- The expression looks nowhere ahead and holds to no preferred way if this is so of each token
alone. -/
theorem isLocal_leading {name : String} {kind : TemplateKind} {segments : List Segment}
    (h : create name kind segments = .ok t)
    (htokens : ∀ u, .token u ∈ t.flat → isIdentifier u.name = true ∧
      ∃ p, Composite.alone? u.regex = some p ∧ p.isLocal = true) :
      t.leading.pattern.isLocal = true := by
  obtain ⟨-, -, -, -, hleading⟩ := create_eq h
  obtain ⟨ps, hps, hpattern⟩ := read_leading (fun u hu => by
    obtain ⟨hname, p, hp, -⟩ := htokens u hu
    exact ⟨hname, by rw [hp]; rfl⟩) hleading
  rw [hpattern]
  refine isLocal_concat fun p hp => ?_
  rcases List.mem_cons.1 hp with rfl | hp
  · rfl
  · exact hps.isLocal (fun u hu => (htokens u hu).2) p hp

/-- The expressions of a template have the same groups, and their patterns differ in the end of the
text. -/
theorem ended_of_create {name : String} {kind : TemplateKind} {segments : List Segment}
    (h : create name kind segments = .ok t) :
    t.whole.names = t.leading.names ∧ Ended t.leading.pattern t.whole.pattern := by
  obtain ⟨-, -, -, hwhole, hleading⟩ := create_eq h
  have hleading' : readChars ('^' :: t.regex.toList) = .ok t.leading := by
    simpa [Composite.read] using hleading
  have hwhole' : readChars (('^' :: t.regex.toList) ++ ['$']) = .ok t.whole := by
    simpa [Composite.read] using hwhole
  exact ended_of_read hleading' hwhole'

/-- A group of a match has the same text in the text up to the end of the match. -/
theorem groupText?_extract {e e' : Expression} {text : Array Char} {f : Found}
    (hnames : e'.names = e.names) (h : e.searchComposite text = .found f) (x : String) :
    e'.groupText? f (text.extract 0 f.stop.pos) x = e.groupText? f text x := by
  obtain ⟨-, strict, hfound⟩ := searchComposite_found h
  have htidy : f.stop.Tidy := keepsTidy_ways strict text e.pattern _ _ hfound (.start f.start)
  unfold Expression.groupText? Expression.named?
  rw [hnames]
  cases hgroup : (e.names.lookup x).bind f.stop.group? with
  | none => rfl
  | some g =>
    obtain ⟨i, -, hi⟩ := Option.bind_eq_some_iff.1 hgroup
    rw [Option.map_some, Option.map_some, Spot.extract_extract_zero text (htidy.group?_le hi).2]

theorem matchWith_eq_ok {e : Expression} {n : Nat} (h : t.matchWith e s = .ok (fields, n)) :
    ∃ f, e.searchComposite (t.kind.prepare s.toList).toArray = .found f ∧ f.stop.pos = n ∧
      readTokens (e.groupText? f (t.kind.prepare s.toList).toArray) (t.tokens false) .empty =
        .ok fields := by
  unfold matchWith at h
  simp only at h
  split at h
  · cases h
  · cases h
  · next f hf =>
    split at h
    · cases h
    · next hread =>
      cases h
      exact ⟨f, hf, rfl, hread⟩

/-- What is taken off the beginning of a text ends between two characters of it, and is parsed with
the same fields. -/
theorem parse_of_extract {name : String} {kind : TemplateKind} {segments : List Segment}
    (h : create name kind segments = .ok t) (hlocal : t.leading.pattern.isLocal = true)
    (hextract : t.extract s = .ok (fields, stop)) :
    stop ≤ byteLength s.toList ∧
      ∃ w rest, s = w ++ rest ∧ byteLength w.toList = stop ∧ t.parse w = .ok fields := by
  obtain ⟨hnames, hended⟩ := ended_of_create h
  obtain ⟨fields', n, hmatch, hstop⟩ :
      ∃ fields' n, t.matchWith t.leading s = .ok (fields', n) ∧
        (fields', byteLength ((t.kind.prepare s.toList).take n)) = (fields, stop) := by
    unfold extract at hextract
    cases hmatch : t.matchWith t.leading s with
    | error fault => simp [hmatch, Except.map] at hextract
    | ok r =>
      rw [hmatch] at hextract
      exact ⟨r.1, r.2, rfl, Except.ok.inj hextract⟩
  cases hstop
  obtain ⟨f, hsearch, rfl, hread⟩ := matchWith_eq_ok hmatch
  have hsplit :
      s = String.ofList (s.toList.take f.stop.pos) ++ String.ofList (s.toList.drop f.stop.pos) := by
    rw [← String.ofList_append, List.take_append_drop, String.ofList_toList]
  have hbytes : byteLength (String.ofList (s.toList.take f.stop.pos)).toList =
      byteLength ((t.kind.prepare s.toList).take f.stop.pos) := by
    rw [String.toList_ofList, t.kind.prepare_take, t.kind.byteLength_prepare]
  have hle : ∀ w rest : String, s = w ++ rest → byteLength w.toList ≤ byteLength s.toList := by
    rintro w rest rfl
    rw [String.toList_append, byteLength_append]
    exact Nat.le_add_right _ _
  refine ⟨hbytes ▸ hle _ _ hsplit, _, _, hsplit, hbytes, ?_⟩
  · have htext : (t.kind.prepare (String.ofList (s.toList.take f.stop.pos)).toList).toArray =
        (t.kind.prepare s.toList).toArray.extract 0 f.stop.pos := by
      rw [String.toList_ofList, ← t.kind.prepare_take, List.extract_toArray,
        List.extract_eq_take_drop]
      simp
    have hsearch' := searchComposite_extract hlocal hended hsearch
    have hgroups : t.whole.groupText? f ((t.kind.prepare s.toList).toArray.extract 0 f.stop.pos) =
        t.leading.groupText? f (t.kind.prepare s.toList).toArray :=
      funext fun x => groupText?_extract hnames hsearch x
    simp only [parse, matchWith, htext, hsearch', hgroups, hread]
    rfl

/-! ## Two templates

A path that gives the same letters twice, taken off a text with other separators and characters of
several bytes. And a template outside the reach of the theorem: its first token is a loop of loops
to the reader of tokens, and a loop that gives nothing back to the reader of templates. -/

/-- The same letters before and behind another part of a path. -/
def lettersAround : Template :=
  ⟨"t", .path, [.token letters, .literal "/é/", .token letters],
    ⟨.concat [.check .textStart, .group 1 (.repeated (.char 'a') 1 none true), .char '/', .char 'é',
      .char '/', .again 1, .check .textEnd], [("x", 1)]⟩,
    ⟨.concat [.check .textStart, .group 1 (.repeated (.char 'a') 1 none true), .char '/', .char 'é',
      .char '/', .again 1], [("x", 1)]⟩⟩

theorem parse_of_extract_lettersAround :
    create "t" .path [.token letters, .literal "/é/", .token letters] = .ok lettersAround ∧
      lettersAround.leading.pattern.isLocal = true ∧
      lettersAround.extract "aa\\é\\aaaé" = .ok (NameMap.empty.insert "x" (.text "aa"), 8) ∧
      8 ≤ byteLength "aa\\é\\aaaé".toList ∧
      ∃ w rest, "aa\\é\\aaaé" = w ++ rest ∧ byteLength w.toList = 8 ∧
        lettersAround.parse w = .ok (NameMap.empty.insert "x" (.text "aa")) := by
  have hcreate : create "t" .path [.token letters, .literal "/é/", .token letters] =
      .ok lettersAround := rfl
  have hlocal : lettersAround.leading.pattern.isLocal = true := by
    refine isLocal_leading hcreate fun u hu => ?_
    have hflat : lettersAround.flat = [.token letters, .literal "/é/", .token letters] := rfl
    obtain rfl : u = letters := by simpa [hflat] using hu
    exact ⟨rfl, .repeated (.char 'a') 1 none true, rfl, rfl⟩
  have hextract : lettersAround.extract "aa\\é\\aaaé" =
      .ok (NameMap.empty.insert "x" (.text "aa"), 8) := by
    decide +kernel
  exact ⟨hcreate, hlocal, hextract, parse_of_extract hcreate hlocal hextract⟩

/-- A token that is a loop of loops alone. -/
def loopThenB : Token :=
  ⟨"x", .custom, "(?:(?:abc|a)++b|)",
    ⟨.concat [.check .textStart, .choice [.concat [.repeated (.repeated
      (.choice [.ofChars ['a', 'b', 'c'], .char 'a']) 1 none true) 1 none true, .char 'b'], .empty],
      .check .textEnd], []⟩,
    .typed none, "", none⟩

/-- A token of two letters or none. -/
def abOrNone : Token :=
  ⟨"y", .custom, "(?:ab|)",
    ⟨.concat [.check .textStart, .choice [.ofChars ['a', 'b'], .empty], .check .textEnd], []⟩,
    .typed none, "", none⟩

/-- The first of these tokens before the second. -/
def loopThenBFirst : Template :=
  ⟨"t", .standard, [.token loopThenB, .token abOrNone],
    ⟨.concat [.check .textStart,
      .group 1 (.choice
        [.concat [.atomic (.repeated (.choice [.ofChars ['a', 'b', 'c'], .char 'a']) 1 none true),
          .char 'b'], .empty]),
      .group 2 (.choice [.ofChars ['a', 'b'], .empty]), .check .textEnd], [("y", 2), ("x", 1)]⟩,
    ⟨.concat [.check .textStart,
      .group 1 (.choice
        [.concat [.atomic (.repeated (.choice [.ofChars ['a', 'b', 'c'], .char 'a']) 1 none true),
          .char 'b'], .empty]),
      .group 2 (.choice [.ofChars ['a', 'b'], .empty])], [("y", 2), ("x", 1)]⟩⟩

/-- Behind the beginning that is taken off, the loop holds to a way that the beginning alone does
not have. -/
theorem extract_loopThenBFirst :
    Token.create "x" .custom "(?:(?:abc|a)++b|)" (.typed none) = .ok loopThenB ∧
      Token.create "y" .custom "(?:ab|)" (.typed none) = .ok abOrNone ∧
      (∃ p, Reader.alone? loopThenB.regex = some p ∧ p.isLocal = true) ∧
      (∃ p, Reader.alone? abOrNone.regex = some p ∧ p.isLocal = true) ∧
      create "t" .standard [.token loopThenB, .token abOrNone] = .ok loopThenBFirst ∧
      loopThenBFirst.extract "abc" =
        .ok ((NameMap.empty.insert "x" (.text "")).insert "y" (.text "ab"), 2) ∧
      "abc" = "ab" ++ "c" ∧ byteLength "ab".toList = 2 ∧
      loopThenBFirst.parse "ab" =
        .ok ((NameMap.empty.insert "x" (.text "ab")).insert "y" (.text "")) := by
  have hloop : Reader.alone? loopThenB.regex = some (.choice [.concat [.repeated (.repeated
      (.choice [.ofChars ['a', 'b', 'c'], .char 'a']) 1 none true) 1 none true,
      .char 'b'], .empty]) := rfl
  have hor : Reader.alone? abOrNone.regex = some (.choice [.ofChars ['a', 'b'], .empty]) := rfl
  exact ⟨rfl, rfl, ⟨_, hloop, rfl⟩, ⟨_, hor, rfl⟩, rfl, by decide +kernel,
    rfl, rfl, by decide +kernel⟩

end Template

end Stencil
