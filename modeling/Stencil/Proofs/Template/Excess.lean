import Stencil.Proofs.Pattern.InsideNamed
import Stencil.Proofs.Pattern.ProgressPlain
import Stencil.Proofs.Template.Diagnosing
import Stencil.Proofs.Template.Extracting

/-!
# Where an excess begins

A diagnosis finds an excess if all segments match a beginning of the text that is not the whole.
That beginning is diagnosed with the same fields and no excess (`diagnose_excess`): the segments are
matched by the same expression, and where no token looks ahead, the first match in the shortened
text is the first match in the whole one (`Pattern.Anchored.search_extract`). Tokens may name groups
of their own (`read_groups_named`).
-/

namespace Stencil

open Pattern Pattern.Reader

/-! ## The expression of tokens that name groups -/

namespace Pattern.Reader

variable {ps : List Pattern} {tail : List Char} {r r' : Reader} {n : Nat}
  {regex : String} {p : Pattern}

/-- An expression that is read alone and between anchors is read in every group, whatever it
names. -/
theorem readsNamed_of_read {e e' : Expression} (hread : Expression.read regex = .ok e)
    (h : Expression.read (Token.anchor regex) = .ok e') : ReadsNamed regex e.pattern := by
  obtain ⟨r, hr, hrest, hopened, heq⟩ := Expression.read_eq_ok hread
  obtain hnamed | ⟨-, hcomment⟩ := run_unnamed_alike hr hrest hopened
  · exact heq ▸ hnamed
  · obtain ⟨r', hr', he⟩ := run_enclosed h
    obtain ⟨os, hos⟩ := hcomment _ _ _ _ _ (inside_enclosed regex.toList) (run_unnamed hr')
    have hclosed : r'.opened = [] := (Expression.ofReader_eq_ok he).1
    rw [opened_unnamed, hclosed] at hos
    simp at hos

/-- A literal is read in every group as its characters. -/
theorem readsNamed_quote (w : String) : ReadsNamed (quote w) (.ofChars w.toList) := by
  obtain ⟨r, hr, hrest, hopened, -, hflags, heq⟩ := alone?_eq_some (alone?_quote w)
  obtain hnamed | ⟨hf, -⟩ := run_unnamed_alike hr hrest hopened
  · exact heq ▸ hnamed
  · rw [hflags] at hf
    cases hf

/-- A group with a name around an expression that may name groups. -/
theorem run_group_named {name : String}
    (h : Top ps [] ('(' :: '?' :: 'P' :: '<' ::
      (name.toList ++ '>' :: (regex.toList ++ ')' :: tail))) r)
    (hname : isIdentifier name = true) (hread : ReadsNamed regex p) (hn : r.rest.length < n)
    (hr : run stepUnnamed n r = .ok r') :
    ∃ m r1 i q, p.Renumbered (i < ·) q ∧ Top (ps ++ [.group i q]) [] tail r1 ∧ r1.rest.length < m ∧
      run stepUnnamed m r1 = .ok r' := by
  have hlen : regex.toList.length + tail.length + 6 ≤ r.rest.length := by
    rw [h.rest_eq]
    simp
    omega
  have hopen : stepUnnamed r = .ok (r.entered name (regex.toList ++ ')' :: tail)).unnamed := by
    refine stepUnnamed_of_step ?_
    rw [step_plain (by rw [h.flags]) h.rest_eq, readSign, readGroup]
    simp only [Flags.trim_of_not (show r.flags.ignoreSpace = false by rw [h.flags])]
    exact openNamed_eq hname h.opened (by rw [h.names_eq]; rfl) _
  obtain ⟨n, rfl⟩ : ∃ k, n = k + 1 := ⟨n - 1, by omega⟩
  have hne : r.rest ≠ [] := by
    rw [h.rest_eq]
    exact List.cons_ne_nil _ _
  rw [run_step hne, hopen] at hr
  obtain ⟨k, rfl⟩ : ∃ k, n = regex.toList.length + 1 + (k + 2) :=
    ⟨n - regex.toList.length - 3, by omega⟩
  have hinside : Inside [⟨r.contents, r.flags, some (r.groups + 1)⟩] (r.groups + 1) [] (')' :: tail)
      (.start regex.toList) (r.entered name (regex.toList ++ ')' :: tail)).unnamed :=
    ⟨h.flags, .empty, ⟨[], rfl, .nil⟩, Nat.le_refl _, rfl, rfl, rfl⟩
  obtain ⟨m, r1, hm, h1, hr⟩ := hread _ _ _ _ _ _ hinside hr
  let left : Reader := { r1 with
    flags := {}, contents := r.contents.push (.group (r.groups + 1) r1.contents.close), opened :=
      [], rest := tail }
  have htop : Top (ps ++ [.group (r.groups + 1) r1.contents.close]) [] tail left :=
    ⟨rfl, by simp [left, Contents.push, h.contents], rfl, h1.names_eq, by simp, rfl⟩
  have hclose : stepUnnamed r1 = .ok left := by
    have hstep : step r1 = .ok left := by
      rw [step_parenthesis h1.rest_eq]
      simp only [closeGroup, h1.opened, h.flags, left]
    exact (stepUnnamed_of_step hstep).trans (congrArg _ (unnamed_of_names htop.names_eq))
  obtain ⟨m, rfl⟩ : ∃ j, m = j + 1 := ⟨m - 1, by omega⟩
  rw [run_step (by simp [h1.rest_eq]), hclose] at hr
  refine ⟨m, left, r.groups + 1, r1.contents.close, h1.contents, htop, ?_, hr⟩
  rw [htop.rest_eq]
  omega

end Pattern.Reader

namespace Template

/-- A pattern is the group of a segment that stands for a pattern. -/
def GroupOf (Stands : Segment → Pattern → Prop) (s : Segment) (q : Pattern) : Prop :=
  ∃ p i p', Stands s p ∧ p.Renumbered (i < ·) p' ∧ q = .group i p'

section

variable {Stands : Segment → Pattern → Prop} {ss : List Segment}

theorem run_written_named {k n : Nat} {qs : List Pattern} {r r' : Reader}
    (hread : ∀ s ∈ ss, ∃ p, Stands s p ∧ ReadsNamed s.ownRegex p) (h : Top qs [] (written k ss) r)
    (hn : r.rest.length < n) (hr : run stepUnnamed n r = .ok r') :
    ∃ ps, List.Forall₂ (GroupOf Stands) ss ps ∧ Top (qs ++ ps) [] [] r' := by
  induction ss generalizing k qs r n with
  | nil =>
    rw [run_end h.rest_eq] at hr
    cases hr
    exact ⟨[], .nil, by simpa [written] using h⟩
  | cons s ss ih =>
    obtain ⟨p, hstands, hp⟩ := hread s (List.mem_cons_self ..)
    obtain ⟨m, r1, i, q, hq, h1, hm, hr⟩ := run_group_named h (isIdentifier_groupName k) hp hn hr
    obtain ⟨ps, hps, htop⟩ := ih (fun s hs => hread s (List.mem_cons_of_mem _ hs)) h1 hm hr
    exact ⟨_, .cons ⟨p, i, q, hstands, hq, rfl⟩ hps, by simpa using htop⟩

/-- The expression of segments that may name groups is that of a group for each of them. -/
theorem read_groups_named {e : Expression}
    (hread : ∀ s ∈ ss, ∃ p, Stands s p ∧ ReadsNamed s.ownRegex p)
    (h : Expression.read (groupsRegex ss) = .ok e) :
    ∃ ps, List.Forall₂ (GroupOf Stands) ss ps ∧ e.pattern = .concat (.check .textStart :: ps) := by
  obtain ⟨r', hr, he⟩ := bind_eq_ok.1 h
  rw [groupsRegex_eq] at hr
  have hstart := Top.start ('^' :: written 0 ss)
  have hcaret : step (.start ('^' :: written 0 ss)) =
      .ok ((Reader.start ('^' :: written 0 ss)).push (.check .textStart) (written 0 ss)) := rfl
  rw [run_step (List.cons_ne_nil _ _), hcaret] at hr
  obtain ⟨ps, hps, htop⟩ := run_written_named hread (hstart.push (.check .textStart) (written 0 ss))
    (Nat.lt_succ_self _) (run_unnamed hr)
  obtain ⟨-, rfl, -⟩ := Expression.ofReader_eq_ok he
  exact ⟨ps, hps, htop.contents_close⟩

/-- The expression of segments looks nowhere ahead if none of them does. -/
theorem isLocal_groups {e : Expression}
    (hread : ∀ s ∈ ss, ∃ p, p.isLocal = true ∧ ReadsNamed s.ownRegex p)
    (h : Expression.read (groupsRegex ss) = .ok e) :
    Anchored e.pattern ∧ e.pattern.isLocal = true ∧ e.pattern.asksAgain = false := by
  have hstands : ∀ s ∈ ss, ∃ p, (fun (_ : Segment) (p : Pattern) => p.isLocal = true) s p ∧
      ReadsNamed s.ownRegex p :=
    hread
  obtain ⟨ps, hps, hpattern⟩ := read_groups_named hstands h
  have hgroups : ∀ q ∈ ps, q.isLocal = true ∧ q.asksAgain = false := by
    clear hpattern h hread hstands
    induction hps with
    | nil => exact fun q hq => nomatch hq
    | cons hgroup _ ih =>
      intro q hq
      rcases List.mem_cons.1 hq with rfl | hq
      · obtain ⟨p, i, p', hp, hrenumbered, rfl⟩ := hgroup
        exact ⟨hrenumbered.isLocal_eq.trans hp, hrenumbered.asksAgain_eq⟩
      · exact ih q hq
  rw [hpattern]
  refine ⟨anchored_concat _, isLocal_concat fun q hq => ?_, asksAgain_concat fun q hq => ?_⟩
  · rcases List.mem_cons.1 hq with rfl | hq
    · rfl
    · exact (hgroups q hq).1
  · rcases List.mem_cons.1 hq with rfl | hq
    · rfl
    · exact (hgroups q hq).2

end

end Template

/-! ## The shortened text -/

/-- The first match in a text is the first match in the text up to its end, if it does not look
ahead; and its groups have the same texts there. -/
theorem Pattern.Anchored.search_extract {p : Pattern} (h : Anchored p) (hlocal : p.isLocal = true)
    (hagain : p.asksAgain = false) {text : Array Char} {f : Found} (hf : search text p = some f) :
    f.stop.pos ≤ text.size ∧ search (text.extract 0 f.stop.pos) p = some f ∧
      ∀ i a b, f.stop.group? i = some (a, b) →
        (text.extract 0 f.stop.pos).extract a b = text.extract a b := by
  rw [h.search_eq hagain] at hf ⊢
  obtain ⟨e, hhead, rfl⟩ := Option.map_eq_some_iff.1 hf
  obtain ⟨es, hways⟩ := List.head?_eq_some_iff.1 hhead
  have hmem : e ∈ ways false text p ⟨0, []⟩ := hways ▸ List.mem_cons_self ..
  have hsize : e.pos ≤ text.size := (leadsOn_ways false text p (Nat.zero_le _) e hmem).2
  have hshort := (shortens_ways hlocal hsize).eq (s := ⟨0, []⟩) (Nat.zero_le _) (.start 0)
  refine ⟨hsize, ?_, fun i a b hgroup => ?_⟩
  · rw [hshort, hways, upTo, List.filter_cons_of_pos (by simp)]
    rfl
  · have htidy : e.Tidy := keepsTidy_ways false text p _ e hmem (.start 0)
    exact Spot.extract_extract_zero text (htidy.group?_le hgroup).2

namespace Template

variable {t : Template} {s : String} {d : Diagnosis} {text text' : Array Char} {ss : List Segment}
  {group? : Nat → Option (Nat × Nat)}

/-- Reading the groups looks at their texts alone. -/
theorem readGroups_congr
    (h : ∀ i a b, group? i = some (a, b) → text'.extract a b = text.extract a b) {k : Nat}
    {ss : List Segment} {fields gs : Fields} (hread : readGroups text group? k ss fields = .ok gs) :
    readGroups text' group? k ss fields = .ok gs := by
  induction ss generalizing k fields with
  | nil => exact hread
  | cons s ss ih =>
    cases s with
    | literal => exact ih hread
    | template => exact ih hread
    | token u =>
      rw [readGroups] at hread ⊢
      cases hgroup : group? k with
      | none =>
        rw [hgroup] at hread
        exact ih hread
      | some part =>
        simp only [hgroup, h k part.1 part.2 hgroup] at hread ⊢
        split at hread
        · cases hread
        · split at hread
          · exact ih hread
          · split at hread
            · next hsame =>
              rw [if_pos hsame]
              exact ih hread
            · cases hread

/-- Reading the groups finds no excess. -/
theorem readGroups_ne_excess {k : Nat} {fields : Fields}
    (h : readGroups text group? k ss fields = .error d) : d.cause ≠ .excess := by
  induction ss generalizing k fields with
  | nil => cases h
  | cons s ss ih =>
    cases s with
    | literal => exact ih h
    | template => exact ih h
    | token u =>
      rw [readGroups] at h
      split at h
      · exact ih h
      · split at h
        · cases h
          simp
        · split at h
          · exact ih h
          · split at h
            · exact ih h
            · cases h
              simp

theorem diagnoseMatch_excess {count stop : Nat} (hsize : stop ≤ text.size)
    (h : diagnoseMatch text ss count group? stop = .error d) (hexcess : d.cause = .excess) :
    ss.length ≤ count ∧ stop ≠ text.size ∧ d.charIndex = stop ∧ d.segmentIndex = count ∧
      readGroups text group? 0 (ss.take count) .empty = .ok d.fields := by
  unfold diagnoseMatch at h
  cases hread : readGroups text group? 0 (ss.take count) .empty with
  | error d' =>
    rw [hread] at h
    cases h
    exact absurd hexcess (readGroups_ne_excess hread)
  | ok fields =>
    simp only [hread, bind, Except.bind] at h
    split at h
    · next hnone =>
      split at h
      · cases h
      · next hstop =>
        cases h
        exact ⟨List.getElem?_eq_none_iff.1 hnone,
          mt (byteOffset_eq_byteLength_iff hsize).2 hstop, charOffset_byteOffset hsize, rfl, rfl⟩
    · cases h
      cases hexcess

/-- An excess is found by the first attempt alone, which is that of all segments. -/
theorem diagnoseFrom_excess {count : Nat} (h : diagnoseFrom text ss count = .error d)
    (hexcess : d.cause = .excess) (hcount : count ≤ ss.length) :
    count = ss.length ∧ ss ≠ [] ∧ ∃ e f, Expression.read (groupsRegex ss) = .ok e ∧
    search text e.pattern = some f ∧
      f.stop.pos ≠ text.size ∧ d.charIndex = f.stop.pos ∧ d.segmentIndex = ss.length ∧
      readGroups text (fun i => e.named? f (groupName i)) 0 ss .empty = .ok d.fields := by
  induction count with
  | zero =>
    cases h
    cases hexcess
  | succ count ih =>
    rw [diagnoseFrom] at h
    split at h
    · cases h
      cases hexcess
    next e he =>
    split at h
    · have hfewer := ih h (by omega)
      omega
    next f hf =>
    have hsize := search_le (asksAgain_of_isPlain (Expression.isPlain_of_read he)) hf
    obtain ⟨hlength, hstop, hindex, hsegment, hread⟩ := diagnoseMatch_excess hsize h hexcess
    have hall : count + 1 = ss.length := by omega
    rw [hall, List.take_length] at he hread
    have hne : ss ≠ [] := by
      rintro rfl
      cases hall
    exact ⟨hall, hne, e, f, he, hf, hstop, hindex, hsegment.trans hall, hread⟩

/-- **What is found to be in excess is just that**: it does not begin behind the text, and what
stands before it is diagnosed as a whole, with the same fields, if no token looks ahead. -/
theorem diagnose_excess
    (htokens : ∀ u, .token u ∈ t.flat → u.Valid ∧ ∃ e, Expression.read u.regex = .ok e ∧
      e.pattern.isLocal = true)
    (h : t.diagnose s = .error d) (hexcess : d.cause = .excess) :
    d.charIndex < s.length ∧ d.segmentIndex = t.flat.length ∧
      t.diagnose (.ofList (s.toList.take d.charIndex)) = .ok d.fields := by
  obtain ⟨-, hne, e, f, he, hf, hstop, hindex, hsegment, hread⟩ :=
    diagnoseFrom_excess h hexcess (Nat.le_refl _)
  have hparts : ∀ s ∈ t.flat, ∃ p, p.isLocal = true ∧ ReadsNamed s.ownRegex p := by
    intro s hs
    cases s with
    | literal w => exact ⟨_, isLocal_concat (by simp [char, isLocal]), readsNamed_quote w⟩
    | token u =>
      obtain ⟨hvalid, e, hread, hlocal⟩ := htokens u hs
      exact ⟨_, hlocal, readsNamed_of_read hread hvalid⟩
    | template => cases Segment.not_isTemplate_flattenAll t.segments _ hs
  obtain ⟨hanchored, hlocal, hagain⟩ := isLocal_groups hparts he
  obtain ⟨hsize, hsearch, htexts⟩ := hanchored.search_extract hlocal hagain hf
  have hlength : (t.kind.prepare s.toList).toArray.size = s.length := by
    rw [List.size_toArray, ← String.length_toList]
    cases t.kind with
    | standard => rfl
    | path => exact List.length_map ..
  refine ⟨by omega, hsegment, ?_⟩
  have htext : (t.kind.prepare (String.ofList (s.toList.take d.charIndex)).toList).toArray =
      (t.kind.prepare s.toList).toArray.extract 0 f.stop.pos := by
    rw [hindex, String.toList_ofList, ← t.kind.prepare_take, List.extract_toArray,
      List.extract_eq_take_drop]
    simp
  have hnamed : ∀ i a b, (fun i => e.named? f (groupName i)) i = some (a, b) →
      ((t.kind.prepare s.toList).toArray.extract 0 f.stop.pos).extract a b =
        (t.kind.prepare s.toList).toArray.extract a b := by
    intro i a b hgroup
    obtain ⟨j, -, hj⟩ := Option.bind_eq_some_iff.1 hgroup
    exact htexts j a b hj
  have hsame := readGroups_congr hnamed hread
  refine diagnose_iff_agrees.2 ⟨hne, e, f, he, htext ▸ hsearch, ?_, ?_⟩
  · rw [← List.size_toArray, htext, Spot.size_extract_zero hsize]
  · rw [htext]
    exact readGroups_eq_ok_iff.1 hsame

/-! A path with another separator and characters of several bytes, where a token names a group of
its own. -/

/-- A token of letters that names them. -/
def namedLetters : Token :=
  ⟨"x", .custom, "(?P<q>a+)",
    ⟨.concat [.check .textStart, .group 1 (.repeated (.char 'a') 1 none true), .check .textEnd],
      [("q", 1)]⟩,
    .typed none, "", none⟩

/-- A file of such letters. -/
def namedFile : Template :=
  ⟨"t", .path, [.literal "é/", .token namedLetters],
    ⟨.concat [.check .textStart, .char 'é', .char '/',
      .group 1 (.group 2 (.repeated (.char 'a') 1 none true)), .check .textEnd], [("q", 2),
        ("x", 1)]⟩,
    ⟨.concat [.check .textStart, .char 'é', .char '/',
      .group 1 (.group 2 (.repeated (.char 'a') 1 none true))], [("q", 2), ("x", 1)]⟩⟩

theorem diagnose_excess_namedFile :
    Token.create "x" .custom "(?P<q>a+)" (.typed none) = .ok namedLetters ∧
      create "t" .path [.literal "é/", .token namedLetters] = .ok namedFile ∧
      (∀ u, .token u ∈ namedFile.flat →
        u.Valid ∧ ∃ e, Expression.read u.regex = .ok e ∧ e.pattern.isLocal = true) ∧
      namedFile.diagnose "é\\aaéa" = .error ⟨.excess, 4, 2, NameMap.empty.insert "x" (.text "aa")⟩ ∧
      4 < "é\\aaéa".length ∧ 2 = namedFile.flat.length ∧
      namedFile.diagnose (.ofList ("é\\aaéa".toList.take 4)) =
        .ok (NameMap.empty.insert "x" (.text "aa")) := by
  have hflat : namedFile.flat = [.literal "é/", .token namedLetters] := rfl
  have htokens : ∀ u, .token u ∈ namedFile.flat →
      u.Valid ∧ ∃ e, Expression.read u.regex = .ok e ∧ e.pattern.isLocal = true := by
    intro u hu
    obtain rfl : u = namedLetters := by simpa [hflat] using hu
    exact ⟨rfl, ⟨.group 1 (.repeated (.char 'a') 1 none true), [("q", 1)]⟩, rfl, rfl⟩
  let groups : Expression :=
    ⟨.concat [.check .textStart, .group 1 (.concat [.char 'é', .char '/']),
      .group 2 (.group 3 (.repeated (.char 'a') 1 none true))], [("q", 3), ("s1", 2), ("s0", 1)]⟩
  have hgroups : Expression.read (groupsRegex [.literal "é/", .token namedLetters]) =
      .ok groups := by
    have htext : groupsRegex [.literal "é/", .token namedLetters] =
        "^(?P<s0>é/)(?P<s1>(?P<q>a+))" :=
      (groupsRegex_of_le (by decide)).trans rfl
    rw [htext]
    rfl
  have hsearch : search "é/aaéa".toList.toArray groups.pattern =
      some ⟨0, ⟨4, [(5, 4), (7, 4), (6, 2), (4, 2), (3, 2), (2, 0)]⟩⟩ := by
    have hanchored : Anchored groups.pattern := anchored_concat _
    rw [hanchored.search_eq rfl]
    rfl
  have hdiagnose : namedFile.diagnose "é\\aaéa" =
      .error ⟨.excess, 4, 2, NameMap.empty.insert "x" (.text "aa")⟩ := by
    have hprepare : (namedFile.kind.prepare "é\\aaéa".toList).toArray =
        "é/aaéa".toList.toArray := rfl
    simp only [diagnose, hflat, hprepare, List.length_cons, List.length_nil, diagnoseFrom,
      List.take_succ_cons, List.take_nil, hgroups, hsearch, diagnoseMatch, readGroups,
      groupName_of_lt (show 0 + 1 < 10 by decide)]
    rfl
  exact ⟨rfl, rfl, htokens, hdiagnose, diagnose_excess htokens hdiagnose rfl⟩

end Template

end Stencil
