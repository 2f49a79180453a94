import Stencil.Proofs.Template.Composing
import Stencil.Proofs.Token.Matching
import Stencil.Template.Diagnosis

/-!
# The expressions of a diagnosis

The segments of a template are diagnosed with an expression of one named group for each of them. It
is read as the patterns that the segments stand for, each in its group (`Groups`, `read_groups`). A
literal is read alone as its characters (`alone?_quote`).
-/

namespace Stencil

open Pattern Pattern.Reader

namespace Pattern.Reader

variable {ps : List Pattern} {names : List (String × Nat)} {tail : List Char}
  {r r' : Reader} {n : Nat}

/-! ## Literals -/

theorem readSign_literal {c : Char} (hc : isMeta c = false) (r : Reader) (cs : List Char) :
    r.readSign c cs = .ok (r.push (r.literal c) cs) := by
  unfold readSign
  split
  all_goals first | rfl | exact absurd hc (by decide)

/-- A character of a literal. -/
theorem step_quoted {c : Char} (hflags : r.flags = {})
    (hrest : r.rest = quoteChars isMeta [c] ++ tail) : step r = .ok (r.push (.char c) tail) := by
  have hplain : r.flags.ignoreSpace = false := by rw [hflags]
  have hliteral : r.literal c = .char c := by
    simp [Reader.literal, hflags, CharSet.foldIf, Pattern.char]
  by_cases hc : isMeta c = true
  · have hescaped : r.rest = '\\' :: c :: tail := by simp [hrest, quoteChars, hc]
    have hescape : readEscape {} (c :: tail) = .ok (.literal c, tail) := by
      simp only [isMeta, decide_eq_true_eq, List.mem_cons, List.not_mem_nil, or_false] at hc
      rcases hc with
        rfl | rfl | rfl | rfl | rfl | rfl | rfl | rfl | rfl | rfl | rfl | rfl | rfl | rfl | rfl |
        rfl | rfl | rfl <;> rfl
    rw [step_plain hplain hescaped, readSign, hflags, hescape]
    simp only [bind, Except.bind, pushAtom, hliteral]
    rfl
  · have hbare : r.rest = c :: tail := by simp [hrest, quoteChars, hc]
    rw [step_plain hplain hbare, readSign_literal (by simpa using hc), hliteral]

theorem run_quoted {w : List Char} (h : Top ps names (quoteChars isMeta w) r)
    (hn : r.rest.length < n) :
    ∃ r', run step n r = .ok r' ∧ Top (ps ++ w.map Pattern.char) names [] r' := by
  induction w generalizing ps r n with
  | nil => exact ⟨r, run_end h.rest_eq, by simpa [quoteChars] using h⟩
  | cons c w ih =>
    have hlen := List.length_pos_of_ne_nil (quoteChars_singleton_ne_nil isMeta c)
    rw [quoteChars_cons] at h
    have hstep := step_quoted h.flags h.rest_eq
    have htop := h.push (.char c) (quoteChars isMeta w)
    have hrest : r.rest.length = (quoteChars isMeta [c]).length + (quoteChars isMeta w).length := by
      rw [h.rest_eq, List.length_append]
    obtain ⟨n, rfl⟩ : ∃ k, n = k + 1 := ⟨n - 1, by omega⟩
    obtain ⟨r', hr, hr'⟩ := ih htop (n := n) (by rw [htop.rest_eq]; omega)
    refine ⟨r', ?_, by simpa using hr'⟩
    rw [run_step (List.ne_nil_of_length_pos (by omega)), hstep]
    exact hr

/-- A literal is read as its characters. -/
theorem alone?_quote (w : String) : alone? (quote w) = some (.ofChars w.toList) := by
  have hchars : (quote w).toList = quoteChars isMeta w.toList := by rw [quote, String.toList_ofList]
  obtain ⟨r, hr, htop⟩ := run_quoted (Top.start (quoteChars isMeta w.toList)) (Nat.lt_succ_self _)
  replace hr :
      run step ((quoteChars isMeta w.toList).length + 1) (.start (quoteChars isMeta w.toList)) =
        .ok r := hr
  unfold alone?
  rw [hchars, hr]
  simp only
  rw [if_pos ⟨htop.rest_eq, by simp [htop.opened], htop.names_eq, by rw [htop.flags]⟩,
    htop.contents_close]
  rfl

/-! ## Named groups -/

theorem openNamed_eq {name : String} (hname : isIdentifier name = true) (hr : r.opened = [])
    (hnew : r.names.lookup name = none) (tail : List Char) :
    r.openNamed (name.toList ++ '>' :: tail) = .ok (r.entered name tail) := by
  obtain ⟨c, cs, hcs, hc, hall⟩ := (isIdentifier_iff name).1 hname
  have hback : String.ofList (c :: cs) = name := by rw [← hcs, String.ofList_toList]
  have hstart : isGroupNameChar true c = true := by
    simp only [isNameStart, Bool.or_eq_true] at hc
    simp only [isGroupNameChar, if_true, Bool.or_eq_true]
    refine hc.symm.imp_right fun halpha => ?_
    have halnum : c.isAlphanum = true := by simp [Char.isAlphanum, halpha]
    rwa [Unicode.isAlphabetic, if_pos (toNat_lt_of_isAlphanum halnum)]
  have hrest : ∀ d ∈ cs, isGroupNameChar false d = true := by
    intro d hd
    have hd := hall d hd
    simp only [isNameChar, Bool.or_eq_true] at hd
    simp only [isGroupNameChar, Bool.false_eq_true, if_false, Bool.or_eq_true]
    rcases hd with halnum | hunder
    · right
      rwa [Unicode.isAlphanumeric, if_pos (toNat_lt_of_isAlphanum halnum)]
    · simp [hunder]
  have hbehind : ∀ d ∈ c :: cs, (d ≠ '>') := by
    rintro d hd rfl
    rcases List.mem_cons.1 hd with rfl | hd
    · exact absurd hc (by decide)
    · exact absurd (hall _ hd) (by decide)
  have htake : (c :: cs ++ '>' :: tail).takeWhile (· ≠ '>') = c :: cs := by
    rw [List.takeWhile_append_of_pos (by simpa using hbehind)]
    simp
  have hdrop : (c :: cs ++ '>' :: tail).dropWhile (· ≠ '>') = '>' :: tail := by
    rw [List.dropWhile_append_of_pos (by simpa using hbehind)]
    simp
  unfold openNamed
  rw [hcs, htake, hdrop]
  have hall' : cs.all (isGroupNameChar false) = true := List.all_eq_true.2 hrest
  simp [hstart, hall', hback, hnew, openCapture, openGroup, maxDepth, hr, entered]

/-- A group with a name around an expression. -/
theorem run_group {name regex : String} {p : Pattern}
    (h : Top ps names ('(' :: '?' :: 'P' :: '<' ::
      (name.toList ++ '>' :: (regex.toList ++ ')' :: tail))) r)
    (hname : isIdentifier name = true) (hnew : names.lookup name = none)
    (hread : ReadsInside regex p) (hn : r.rest.length < n) (hr : run step n r = .ok r') :
    ∃ m r1 i q, p.Renumbered (i < ·) q ∧ (∀ m ∈ names, m.2 < i) ∧
      Top (ps ++ [.group i q]) ((name, i) :: names) tail r1 ∧ r1.rest.length < m ∧
      run step m r1 = .ok r' := by
  have hlen : regex.toList.length + tail.length + 6 ≤ r.rest.length := by
    rw [h.rest_eq]
    simp
    omega
  have hopen : step r = .ok (r.entered name (regex.toList ++ ')' :: tail)) := by
    rw [step_plain (by rw [h.flags]) h.rest_eq, readSign, readGroup]
    simp only [Flags.trim_of_not (show r.flags.ignoreSpace = false by rw [h.flags])]
    exact openNamed_eq hname h.opened (h.names_eq ▸ hnew) _
  obtain ⟨n, rfl⟩ : ∃ k, n = k + 1 := ⟨n - 1, by omega⟩
  have hne : r.rest ≠ [] := by
    rw [h.rest_eq]
    exact List.cons_ne_nil _ _
  rw [run_step hne, hopen] at hr
  obtain ⟨k, rfl⟩ : ∃ k, n = regex.toList.length + 1 + (k + 2) :=
    ⟨n - regex.toList.length - 3, by omega⟩
  obtain ⟨m, r1, hm, h1, hr⟩ := hread _ _ _ _ _ _ _ (h.inside name regex.toList (')' :: tail)) hr
  have htop := h.leave rfl h1.names_eq h1.groups tail
  have hclose : step r1 = .ok { r1 with
      flags := {}, contents := r.contents.push (.group (r.groups + 1) r1.contents.close),
      opened := [], rest := tail } := by
    rw [step_parenthesis h1.rest_eq]
    simp only [closeGroup, h1.opened, h.flags]
  obtain ⟨m, rfl⟩ : ∃ j, m = j + 1 := ⟨m - 1, by omega⟩
  rw [run_step (by simp [h1.rest_eq]), hclose] at hr
  have hbelow : ∀ j ∈ names, j.2 < r.groups + 1 := fun j hj => Nat.lt_succ_of_le (h.groups j hj)
  refine ⟨m, _, r.groups + 1, r1.contents.close, h1.contents, hbelow, htop, ?_, hr⟩
  rw [htop.rest_eq]
  omega

end Pattern.Reader

/-! ## The groups of segments -/

namespace Segment

/-- The pattern that a flat segment is read as alone. -/
def alone? : Segment → Option Pattern
  | .literal w => some (.ofChars w.toList)
  | .token u => Reader.alone? u.regex
  | .template _ _ _ => none

theorem readsInside_of_alone? {s : Segment} {p : Pattern} (h : s.alone? = some p) :
    ReadsInside s.ownRegex p := by
  cases s with
  | literal w =>
    rw [ownRegex]
    exact Reader.readsInside_of_alone? ((alone?_quote w).trans h)
  | token u => exact Reader.readsInside_of_alone? h
  | template => cases h

end Segment

namespace Template

theorem isIdentifier_groupName (k : Nat) : isIdentifier (groupName k) = true := by
  refine (isIdentifier_iff _).2 ⟨'s', Decimal.digits k, ?_, by decide, fun c hc => ?_⟩
  · simp [groupName, Decimal.ofNat]
  · have hdigit := Decimal.all_isDigit_digits k c hc
    simp [isNameChar, Char.isAlphanum, hdigit]

theorem groupName_inj {j k : Nat} : groupName j = groupName k ↔ j = k := by
  refine ⟨fun h => ?_, fun h => h ▸ rfl⟩
  have hdigits : Decimal.digits j = Decimal.digits k := by
    have h := congrArg String.toList h
    simpa [groupName, Decimal.ofNat] using h
  rw [← Decimal.value_digits j, hdigits, Decimal.value_digits]

theorem groupName_of_lt {k : Nat} (h : k < 10) :
    groupName k = "s" ++ .ofList [Decimal.digit k] := by
  rw [groupName, Decimal.ofNat, Decimal.digits, if_pos h]

/-- The numbers of no more than ten segments have one digit. -/
theorem groupsRegex_of_le {ss : List Segment} (h : ss.length ≤ 10) : groupsRegex ss =
    "^" ++ String.join (ss.mapIdx fun k s => "(?P<s" ++ .ofList [Decimal.digit k] ++
      ">" ++ s.ownRegex ++ ")") := by
  refine congrArg (fun groups => "^" ++ String.join groups)
    (List.mapIdx_eq_mapIdx_iff.2 fun k hk => ?_)
  rw [groupName_of_lt (Nat.lt_of_lt_of_le hk h), ← String.append_assoc]
  rfl

/-- Segments that stand for patterns, the first of the given number, are read as these groups behind
those with the given names. -/
inductive Groups (Stands : Segment → Pattern → Prop) :
    Nat → List (String × Nat) → List Segment → List Pattern → List (String × Nat) → Prop
  | nil (k : Nat) (names : List (String × Nat)) : Groups Stands k names [] [] names
  | cons {k i : Nat} {names names' : List (String × Nat)} {s : Segment}
      {ss : List Segment} {p q : Pattern}
    {ps : List Pattern} (stands : Stands s p) (renumbered : p.Renumbered (i < ·) q)
    (below : ∀ m ∈ names, m.2 < i) :
    Groups Stands (k + 1) ((groupName k, i) :: names) ss ps names' →
    Groups Stands k names (s :: ss) (.group i q :: ps) names'

/-- The groups of segments, as they are written from a number on. -/
def written (k : Nat) : List Segment → List Char
  | [] => []
  | s :: ss =>
    '(' :: '?' :: 'P' :: '<' :: ((groupName k).toList ++ '>' :: (s.ownRegex.toList ++ ')' ::
      written (k + 1) ss))

/-- A segment in the group of its number. -/
def groupOf (k : Nat) (s : Segment) : String := "(?P<" ++ groupName k ++ ">" ++ s.ownRegex ++ ")"

theorem join_groups (k : Nat) (ss : List Segment) :
    (String.join (ss.mapIdx fun i s => groupOf (k + i) s)).toList = written k ss := by
  induction ss generalizing k with
  | nil => simp [written]
  | cons s ss ih =>
    have hshift : (fun i s => groupOf (k + (i + 1)) s) = fun i s => groupOf (k + 1 + i) s := by
      funext i s
      rw [Nat.add_right_comm k 1 i, Nat.add_assoc]
    rw [List.mapIdx_cons, String.join_cons, String.toList_append, hshift, ih (k + 1), written]
    simp [groupOf]

theorem groupsRegex_eq (ss : List Segment) : (groupsRegex ss).toList = '^' :: written 0 ss := by
  have hjoin := join_groups 0 ss
  simp only [Nat.zero_add] at hjoin
  rw [← hjoin, groupsRegex, String.toList_append]
  rfl

variable {Stands : Segment → Pattern → Prop} {ss : List Segment} {ps : List Pattern}
  {names names' : List (String × Nat)} {k : Nat}

/-- No name of a group from a number on. -/
def Fresh (k : Nat) (names : List (String × Nat)) : Prop := ∀ m ∈ names, ∃ j < k, m.1 = groupName j

theorem Fresh.cons (h : Fresh k names) (i : Nat) : Fresh (k + 1) ((groupName k, i) :: names) := by
  intro m hm
  rcases List.mem_cons.1 hm with rfl | hm
  · exact ⟨k, Nat.lt_succ_self k, rfl⟩
  · obtain ⟨j, hj, hname⟩ := h m hm
    exact ⟨j, Nat.lt_succ_of_lt hj, hname⟩

theorem Fresh.lookup_eq (h : Fresh k names) : names.lookup (groupName k) = none := by
  refine List.lookup_eq_none_iff.2 fun m hm => ?_
  obtain ⟨j, hj, hname⟩ := h m hm
  rw [hname, bne_iff_ne]
  intro heq
  have := groupName_inj.1 heq
  omega

theorem run_written {r r' : Reader} {n : Nat} {qs : List Pattern}
    (hread : ∀ s ∈ ss, ∃ p, Stands s p ∧ ReadsInside s.ownRegex p) (hfresh : Fresh k names)
    (h : Top qs names (written k ss) r) (hn : r.rest.length < n)
    (hr : run step n r = .ok r') :
    ∃ ps names', Groups Stands k names ss ps names' ∧ Top (qs ++ ps) names' [] r' := by
  induction ss generalizing k names qs r n with
  | nil =>
    rw [run_end h.rest_eq] at hr
    cases hr
    exact ⟨[], names, .nil k names, by simpa [written] using h⟩
  | cons s ss ih =>
    obtain ⟨p, hstands, hp⟩ := hread s (List.mem_cons_self ..)
    obtain ⟨m, r1, i, q, hq, hbelow, h1, hm, hr⟩ :=
      run_group h (isIdentifier_groupName k) hfresh.lookup_eq hp hn hr
    obtain ⟨ps, names', hps, htop⟩ :=
      ih (fun s hs => hread s (List.mem_cons_of_mem _ hs)) (hfresh.cons i) h1 hm hr
    exact ⟨_, names', .cons hstands hq hbelow hps, by simpa using htop⟩

/-- The expression of segments that are all read in groups as the patterns they stand for. -/
theorem read_groups {e : Expression} (hread : ∀ s ∈ ss, ∃ p, Stands s p ∧ ReadsInside s.ownRegex p)
    (h : Expression.read (groupsRegex ss) = .ok e) :
    ∃ ps, Groups Stands 0 [] ss ps e.names ∧ e.pattern = .concat (.check .textStart :: ps) := by
  obtain ⟨r', hr, he⟩ := bind_eq_ok.1 h
  rw [groupsRegex_eq] at hr
  have hstart := Top.start ('^' :: written 0 ss)
  have hcaret : step (.start ('^' :: written 0 ss)) =
      .ok ((Reader.start ('^' :: written 0 ss)).push (.check .textStart) (written 0 ss)) := rfl
  rw [run_step (List.cons_ne_nil _ _), hcaret] at hr
  have hfresh : Fresh 0 [] := fun m hm => by cases hm
  obtain ⟨ps, names', hps, htop⟩ :=
    run_written hread hfresh (hstart.push (.check .textStart) (written 0 ss)) (Nat.lt_succ_self _)
      hr
  obtain rfl := htop.ofReader_eq he
  exact ⟨ps, hps, rfl⟩

end Template

end Stencil
