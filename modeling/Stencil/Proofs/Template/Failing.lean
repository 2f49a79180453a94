import Stencil.Proofs.Template.Diagnosing

/-!
# Where a diagnosis fails

A diagnosis that names a segment names the first one that no beginning of the text can be cut up to
(`diagnose_locates`): some beginning can be cut into the segments before it, and none into those and
the segment itself. The fields are those of the preferred match of the segments before, and the
position is where this ends, or how far a literal goes along with the text behind it, which is never
to its end.
-/

namespace Stencil

open Pattern Pattern.Reader

/-! ## Cutting a text -/

namespace Segment

/-- What a flat segment matches alone. -/
def Takes : Segment → List Char → Prop
  | .literal w, cs => cs = w.toList
  | .token u, cs => u.matches? (.ofList cs) = true
  | .template _ _ _, _ => False

/-- A text is cut into what segments match alone, from a position to another. The parts stand one
behind the other. -/
inductive Cut (text : Array Char) : List Segment → Nat → Nat → List (Nat × Nat) → Prop
  | nil (a : Nat) : Cut text [] a a []
  | cons {s : Segment} {ss : List Segment} {a b c : Nat} {w : List Char} {cut : List (Nat × Nat)}
    (takes : s.Takes w) (spans : Spans text a b w) :
    Cut text ss b c cut → Cut text (s :: ss) a c ((a, b) :: cut)

/-- The pattern of characters that a flat segment stands for: that of its characters, or the one
that the expression of a token is read as alone. -/
inductive Stands : Segment → Pattern → Prop
  | literal (w : String) : Stands (.literal w) (.ofChars w.toList)
  | token {u : Token} {p : Pattern} : u.Valid → ReadsAlone u.regex p → p.isRegular = true →
      Stands (.token u) p

variable {text : Array Char} {s : Segment} {ss : List Segment} {p : Pattern}
  {a b c : Nat} {w : List Char} {cut : List (Nat × Nat)}

theorem Cut.length_eq (h : Cut text ss a b cut) : cut.length = ss.length := by
  induction h with
  | nil => rfl
  | cons _ _ _ ih => rw [List.length_cons, List.length_cons, ih]

theorem Cut.le_size (h : Cut text ss a b cut) (ha : a ≤ text.size) : b ≤ text.size := by
  induction h with
  | nil => exact ha
  | cons _ spans _ ih => exact ih (spans.le_size ha)

/-- One more segment at the end. -/
theorem Cut.concat (h : Cut text ss a b cut) (hs : s.Takes w) (hw : Spans text b c w) :
    Cut text (ss ++ [s]) a c (cut ++ [(b, c)]) := by
  induction h with
  | nil => exact .cons hs hw (.nil c)
  | cons takes spans _ ih => exact .cons takes spans (ih hw)

namespace Stands

theorem isRegular (h : s.Stands p) : p.isRegular = true := by
  cases h with
  | literal w => exact isRegular_ofChars w.toList
  | token _ _ hp => exact hp

theorem readsInside (h : s.Stands p) : ReadsInside s.ownRegex p := by
  cases h with
  | literal w => exact readsInside_of_alone? (s := .literal w) rfl
  | token hu hread _ => exact hread.readsInside hu

theorem takes_iff (h : s.Stands p) : s.Takes w ↔ w ∈ p.language := by
  cases h with
  | literal w => exact mem_language_ofChars.symm
  | @token u _ hu hread hp =>
    rw [Takes, u.matches?_iff_of_readsInside hu (hread.readsInside hu) hp, String.toList_ofList]

end Stands

end Segment

open Segment

/-! ## How far a literal goes along -/

/-- The character at which a text breaks off a literal stands behind the longest beginning of
both. -/
theorem Segment.charOffset_breakOffset {cs : List Char} {pos : Nat} (h : pos ≤ cs.length)
    (w : String) :
    ∃ p, p <+: w.toList ∧ p <+: cs.drop pos ∧
      (∀ q, q <+: w.toList → q <+: cs.drop pos → q.length ≤ p.length) ∧
      charOffset cs ((Segment.literal w).breakOffset cs (byteOffset cs pos)) = pos + p.length :=
  ⟨_, commonPrefix_prefix_left .., commonPrefix_prefix_right .., fun _ => length_le_commonPrefix,
    charOffset_divergence h w.toList⟩

namespace Template

/-! ## The match of the first segments -/

section

variable {text : Array Char} {ss : List Segment} {ps : List Pattern}
  {names names' : List (String × Nat)} {k a c : Nat} {s e : Spot} {cut : List (Nat × Nat)}

/-- Every way of the groups of segments cuts them out of the text. -/
theorem Groups.exists_cut (h : Groups Stands k names ss ps names')
    (he : e ∈ waysAll false text ps s) :
    ∃ cut, Cut text ss s.pos e.pos cut ∧ Passes k names names' ss s e cut := by
  induction h generalizing s with
  | nil =>
    obtain rfl := List.mem_singleton.1 he
    exact ⟨[], .nil _, rfl, fun _ _ => rfl, rfl, by simp⟩
  | @cons k i names names' t ss p q ps stands renumbered below hss ih =>
    obtain ⟨x, hx, he⟩ := List.mem_flatMap.1 he
    obtain ⟨-, w, hw, hspans⟩ := ways_group_spans renumbered stands.isRegular hx
    obtain ⟨cut, hcut, hpasses⟩ := ih he
    exact ⟨_, .cons (stands.takes_iff.2 hw) hspans hcut, hpasses.cons hss renumbered below hx t⟩

/-- There is a way of the groups over every cut of their segments. -/
theorem Groups.exists_way (h : Groups Stands k names ss ps names') (hcut : Cut text ss a c cut)
    (hs : s.pos = a) : ∃ e, e ∈ waysAll false text ps s := by
  induction h generalizing s a cut with
  | nil => exact ⟨s, List.mem_singleton_self s⟩
  | @cons k i names names' t ss p q ps stands renumbered below hss ih =>
    cases hcut with
    | @cons _ _ _ b _ w _ takes spans hcut =>
      subst hs
      have hw : w ∈ (Pattern.group i q).language := by
        rw [language, renumbered.language_eq]
        exact stands.takes_iff.1 takes
      have hregular : (Pattern.group i q).isRegular = true :=
        renumbered.isRegular_eq.trans stands.isRegular
      obtain ⟨x, hx, hpos⟩ := covers_ways false text hregular w hw s b spans
      obtain ⟨e, he⟩ := ih hcut hpos
      exact ⟨e, List.mem_flatMap.2 ⟨x, hx, he⟩⟩

end

/-- The preferred match of segments from the beginning of a text, as the expression of their groups
finds it: where it ends and what the groups hold. -/
structure Preferred (text : Array Char) (ss : List Segment) (stop : Nat)
    (cut : List (Nat × Nat)) : Prop where
  isCut : Cut text ss 0 stop cut
  found : ∃ e f, Expression.read (groupsRegex ss) = .ok e ∧ search text e.pattern = some f ∧
    f.stop.pos = stop ∧ ∀ i part, cut[i]? = some part → e.named? f (groupName i) = some part

variable {text : Array Char} {ss : List Segment} {d : Diagnosis}

/-- The expression of the groups of segments matches exactly where a text can be cut into them. -/
theorem search_eq_none_or_preferred {e : Expression} (hss : ∀ s ∈ ss, ∃ p, s.Stands p)
    (h : Expression.read (groupsRegex ss) = .ok e) :
    match search text e.pattern with
    | none => ∀ stop cut, ¬ Cut text ss 0 stop cut
    | some f => ∃ cut, Preferred text ss f.stop.pos cut ∧
        ∀ i part, cut[i]? = some part → e.named? f (groupName i) = some part := by
  obtain ⟨ps, hps, hpattern⟩ :=
    read_groups (fun s hs => (hss s hs).imp fun p hp => ⟨hp, hp.readsInside⟩) h
  have hsearch := hps.search_eq hpattern text
  cases hf : search text e.pattern with
  | none =>
    rw [hf, eq_comm, Option.map_eq_none_iff, List.head?_eq_none_iff] at hsearch
    intro stop cut hcut
    obtain ⟨e, he⟩ := hps.exists_way (s := ⟨0, []⟩) hcut rfl
    rw [hsearch] at he
    cases he
  | some f =>
    rw [hf, eq_comm] at hsearch
    obtain ⟨x, hx, rfl⟩ := Option.map_eq_some_iff.1 hsearch
    obtain ⟨cut, hcut, hpasses⟩ := hps.exists_cut (List.mem_of_mem_head? hx)
    have hparts : ∀ i part, cut[i]? = some part →
        e.named? ⟨0, x⟩ (groupName i) = some part := fun i part hi => by
      have hpart := hpasses.part i part hi
      rw [Nat.zero_add] at hpart
      exact hpart
    exact ⟨cut, ⟨hcut, e, _, h, hf, rfl, hparts⟩, hparts⟩

end Template

/-! ## The segment that fails -/

/-- The cause is a segment, and not a value that cannot be read from it. -/
def Mismatch.NamesSegment : Mismatch → Prop
  | .unreadable _ | .nowhere | .segment _ _ => True
  | .value _ | .repetition _ _ _ | .excess => False

open Template in
/-- A diagnosis of a text tells where it stops matching the segments. -/
structure Diagnosis.Locates (d : Diagnosis) (ss : List Segment) (text : Array Char) : Prop where
  lt : d.segmentIndex < ss.length
  /-- A beginning of the text can be cut into the segments before. -/
  before : ∃ stop cut, Cut text (ss.take d.segmentIndex) 0 stop cut
  /-- No beginning can be cut into those and the segment itself. -/
  fails : ∀ stop cut, ¬ Cut text (ss.take (d.segmentIndex + 1)) 0 stop cut
  first : d.segmentIndex = 0 → d.charIndex = 0 ∧ d.fields = .empty
  later : 0 < d.segmentIndex → ∃ stop cut, Preferred text (ss.take d.segmentIndex) stop cut ∧
    List.Forall₂ (Reads text d.fields) (ss.take d.segmentIndex) cut ∧
    (∀ x, (d.fields.get? x).isSome = true ↔ ∃ u, .token u ∈ ss.take d.segmentIndex ∧ u.name = x) ∧
    (∀ u, ss[d.segmentIndex]? = some (.token u) → d.charIndex = stop) ∧
    ∀ w, ss[d.segmentIndex]? = some (.literal w) → ∃ p, p <+: w.toList ∧
    p <+: text.toList.drop stop ∧
      (∀ q, q <+: w.toList → q <+: text.toList.drop stop → q.length ≤ p.length) ∧
      d.charIndex = stop + p.length ∧ p.length < w.toList.length

namespace Template

variable {text : Array Char} {ss : List Segment} {d : Diagnosis}

theorem readGroups_error {group? : Nat → Option (Nat × Nat)} {k : Nat} {fields : Fields}
    (h : readGroups text group? k ss fields = .error d) : ¬ d.cause.NamesSegment := by
  induction ss generalizing k fields with
  | nil => cases h
  | cons s ss ih =>
    cases s with
    | literal => exact ih h
    | template => exact ih h
    | token t =>
      rw [readGroups] at h
      split at h
      · exact ih h
      split at h
      · cases h
        exact not_false
      split at h
      · exact ih h
      · split at h
        · exact ih h
        · cases h
          exact not_false

/-- A match of some of the segments fails at the next one. -/
theorem diagnoseMatch_error {count stop : Nat} {group? : Nat → Option (Nat × Nat)}
    (h : diagnoseMatch text ss count group? stop = .error d) (hcause : d.cause.NamesSegment) :
    ∃ next, ss[count]? = some next ∧ Agrees text group? (ss.take count) d.fields ∧
      d.segmentIndex = count ∧
      d.charIndex =
        charOffset text.toList (next.breakOffset text.toList (byteOffset text.toList stop)) := by
  unfold diagnoseMatch at h
  cases hfields : readGroups text group? 0 (ss.take count) .empty with
  | error d' =>
    rw [hfields] at h
    cases h
    exact absurd hcause (readGroups_error hfields)
  | ok fields =>
    rw [hfields] at h
    simp only [bind, Except.bind] at h
    split at h
    · split at h
      · cases h
      · cases h
        cases hcause
    · next next hnext =>
      cases h
      exact ⟨next, hnext, readGroups_eq_ok_iff.1 hfields, rfl, rfl⟩

/-- The diagnosis stays with the greatest number of segments that a beginning of the text can be cut
into. -/
theorem diagnoseFrom_error {count : Nat} (hread : ∀ k, 0 < k → k ≤ count →
      ∃ e, Expression.read (groupsRegex (ss.take k)) = .ok e) (hss : ∀ s ∈ ss, ∃ p, s.Stands p)
    (h : diagnoseFrom text ss count = .error d) :
    ∃ k ≤ count, (∀ j, k < j → j ≤ count → ∀ stop cut, ¬ Cut text (ss.take j) 0 stop cut) ∧
      ((k = 0 ∧ d = ⟨.nowhere, 0, 0, .empty⟩) ∨
        (0 < k ∧ ∃ stop cut group?, Preferred text (ss.take k) stop cut ∧
          (∀ j x, cut[j]? = some x → group? j = some x) ∧
            diagnoseMatch text ss k group? stop = .error d)) := by
  induction count with
  | zero =>
    cases h
    exact ⟨0, Nat.le_refl 0, fun j hj hj' => absurd hj (Nat.not_lt.2 hj'), .inl ⟨rfl, rfl⟩⟩
  | succ count ih =>
    obtain ⟨e, he⟩ := hread (count + 1) (Nat.succ_pos _) (Nat.le_refl _)
    have hsearch :=
      @search_eq_none_or_preferred text _ _ (fun s hs => hss s (List.mem_of_mem_take hs)) he
    rw [diagnoseFrom, he] at h
    simp only at h
    cases hf : search text e.pattern with
    | none =>
      rw [hf] at h hsearch
      obtain ⟨k, hk, hnone, hcases⟩ := ih (fun k hk hk' => hread k hk (Nat.le_succ_of_le hk')) h
      refine ⟨k, Nat.le_succ_of_le hk, fun j hj hj' => ?_, hcases⟩
      rcases Nat.lt_or_eq_of_le hj' with hlt | rfl
      · exact hnone j hj (Nat.le_of_lt_succ hlt)
      · exact hsearch
    | some f =>
      rw [hf] at h hsearch
      obtain ⟨cut, hpreferred, hparts⟩ := hsearch
      exact ⟨count + 1, Nat.le_refl _, fun j hj hj' => absurd hj (Nat.not_lt.2 hj'),
        .inr ⟨Nat.succ_pos _, _, cut, _, hpreferred, hparts, h⟩⟩

/-- A literal that cannot be cut out as well does not go along to its end. -/
theorem exists_common_of_fails {stop : Nat} {cut : List (Nat × Nat)} {v : String}
    (hcut : Cut text ss 0 stop cut)
    (hfails : ∀ stop cut, ¬ Cut text (ss ++ [.literal v]) 0 stop cut) :
    ∃ p, p <+: v.toList ∧ p <+: text.toList.drop stop ∧
      (∀ q, q <+: v.toList → q <+: text.toList.drop stop → q.length ≤ p.length) ∧
      charOffset text.toList ((Segment.literal v).breakOffset text.toList
        (byteOffset text.toList stop)) = stop + p.length ∧ p.length < v.toList.length := by
  obtain ⟨p, hv, htext, hlongest, hcommon⟩ :=
    charOffset_breakOffset (hcut.le_size (Nat.zero_le _) : stop ≤ text.toList.length) v
  refine ⟨p, hv, htext, hlongest, hcommon, Nat.lt_of_le_of_ne hv.length_le fun hwhole => ?_⟩
  obtain rfl := hv.eq_of_length hwhole
  exact hfails _ _ (hcut.concat (s := .literal v) rfl ⟨htext, rfl⟩)

/-- Among segments that stand for patterns of characters, a diagnosis that names one names that
where the text stops matching. -/
theorem locates_of_diagnoseFrom (hne : ss ≠ []) (hss : ∀ s ∈ ss, ∃ p, s.Stands p)
    (hread : ∀ k, 0 < k → k ≤ ss.length → ∃ e, Expression.read (groupsRegex (ss.take k)) = .ok e)
    (h : diagnoseFrom text ss ss.length = .error d) (hcause : d.cause.NamesSegment) :
    d.Locates ss text := by
  have hlength : 0 < ss.length := List.length_pos_of_ne_nil hne
  obtain ⟨k, hk, hmax, ⟨rfl, rfl⟩ | ⟨hpos, stop, cut, group?, hpreferred, hparts, hmatch⟩⟩ :=
    diagnoseFrom_error hread hss h
  · exact ⟨hlength, ⟨0, [], .nil 0⟩, hmax 1 Nat.one_pos hlength, fun _ => ⟨rfl, rfl⟩,
      fun h => absurd h (Nat.lt_irrefl 0)⟩
  · obtain ⟨next, hnext, hagrees, rfl, hchar⟩ := diagnoseMatch_error hmatch hcause
    obtain ⟨hlt, hget⟩ := List.getElem?_eq_some_iff.1 hnext
    have hlen := hpreferred.isCut.length_eq
    have hnames : ∀ x, (d.fields.get? x).isSome = true → ∃ u,
        .token u ∈ ss.take d.segmentIndex ∧ u.name = x :=
      fun x hx => by
        obtain ⟨i, u, hu, hname, -⟩ := hagrees.held x hx
        exact ⟨u, List.mem_of_getElem? hu, hname⟩
    have hreads := (agrees_iff_forall₂ hlen hparts hnames).1 hagrees
    have hfails := hmax _ (Nat.lt_succ_self _) hlt
    refine ⟨hlt, ⟨stop, cut, hpreferred.isCut⟩, hfails, fun h0 => absurd h0 hpos.ne',
      fun _ => ⟨stop, cut, hpreferred, hreads, fun x => ⟨hnames x, ?_⟩,
        fun u hu => ?_, fun v hv => ?_⟩⟩
    · rintro ⟨u, hu, rfl⟩
      obtain ⟨i, hi, hget⟩ := List.getElem_of_mem hu
      obtain ⟨v, -, hv⟩ := (List.forall₂_iff_get.1 hreads).2 i hi (hlen ▸ hi) u hget
      exact Option.isSome_of_eq_some hv
    · rw [hnext] at hu
      cases hu
      exact hchar.trans (charOffset_byteOffset (hpreferred.isCut.le_size (Nat.zero_le _)))
    · rw [hnext] at hv
      cases hv
      rw [List.take_succ_eq_append_getElem hlt, hget] at hfails
      obtain ⟨p, hv, htext, hlongest, hcommon, hshort⟩ :=
        exists_common_of_fails hpreferred.isCut hfails
      exact ⟨p, hv, htext, hlongest, hchar.trans hcommon, hshort⟩

/-- **A diagnosis that names a segment names the first one that no beginning of the text can be cut
up to.** -/
theorem diagnose_locates {t : Template} {s : String} (hne : t.flat ≠ [])
    (htokens : ∀ u, .token u ∈ t.flat → u.Valid ∧ ∃ p, ReadsAlone u.regex p ∧ p.isRegular = true)
    (hread : ∀ k, 0 < k → k ≤ t.flat.length →
      ∃ e, Expression.read (groupsRegex (t.flat.take k)) = .ok e)
    (h : t.diagnose s = .error d) (hcause : d.cause.NamesSegment) :
    d.Locates t.flat (t.kind.prepare s.toList).toArray := by
  refine locates_of_diagnoseFrom hne (fun s hs => ?_) hread h hcause
  cases s with
  | literal w => exact ⟨_, .literal w⟩
  | token u =>
    obtain ⟨hu, p, hp, hregular⟩ := htokens u hs
    exact ⟨p, .token hu hp hregular⟩
  | template =>
    have hflat := not_isTemplate_flattenAll t.segments _ hs
    cases hflat

/-! ## One template

The token leaves a flag behind that drops blanks and comments; its group ends all the same where its
line does. -/

/-- A token of letters, spaced out. -/
def spaced : Token :=
  ⟨"x", .custom, "(?x) a+ # letters\n",
    ⟨.concat [.check .textStart, .repeated (.char 'a') 1 none true, .check .textEnd], []⟩,
    .typed none, "", none⟩

/-- Those letters before a hyphen. -/
def spacedFirst : Template :=
  ⟨"t", .standard, [.token spaced, .literal "-"],
    ⟨.concat [.check .textStart, .group 1 (.concat [.empty, .repeated (.char 'a') 1 none true]),
      .char '-', .check .textEnd], [("x", 1)]⟩,
    ⟨.concat [.check .textStart, .group 1 (.concat [.empty, .repeated (.char 'a') 1 none true]),
      .char '-'], [("x", 1)]⟩⟩

/-- The hyphen is missing behind the letters. -/
theorem diagnose_locates_spacedFirst :
    Token.create "x" .custom "(?x) a+ # letters\n" (.typed none) = .ok spaced ∧
      create "t" .standard [.token spaced, .literal "-"] = .ok spacedFirst ∧
      (∀ u, .token u ∈ spacedFirst.flat → u.Valid ∧ ∃ p, ReadsAlone u.regex p ∧
        p.isRegular = true) ∧
      (∀ k, 0 < k → k ≤ spacedFirst.flat.length →
        ∃ e, Expression.read (groupsRegex (spacedFirst.flat.take k)) = .ok e) ∧
      spacedFirst.diagnose "aa_" = .error ⟨.segment 1 "'-'", 2, 1,
        NameMap.empty.insert "x" (.text "aa")⟩ ∧
      Diagnosis.Locates ⟨.segment 1 "'-'", 2, 1, NameMap.empty.insert "x" (.text "aa")⟩
        spacedFirst.flat (spacedFirst.kind.prepare "aa_".toList).toArray := by
  have hflat : spacedFirst.flat = [.token spaced, .literal "-"] := rfl
  let word : Pattern := .repeated (.char 'a') 1 none true
  have htokens : ∀ u, .token u ∈ spacedFirst.flat → u.Valid ∧ ∃ p, ReadsAlone u.regex p ∧
      p.isRegular = true := by
    intro u hu
    obtain rfl : u = spaced := by simpa [hflat] using hu
    exact ⟨rfl, word, ⟨_, rfl, rfl, rfl, rfl, rfl⟩, rfl⟩
  have hnames : groupName 0 = "s0" ∧ groupName 1 = "s1" :=
    ⟨groupName_of_lt (by decide), groupName_of_lt (by decide)⟩
  have hone : Expression.read (groupsRegex [.token spaced]) =
      .ok ⟨.concat [.check .textStart, .group 1 word], [("s0", 1)]⟩ := by
    have htext : groupsRegex [.token spaced] = "^(?P<s0>(?x) a+ # letters\n)" :=
      (groupsRegex_of_le (by decide)).trans rfl
    rw [htext]
    rfl
  have htwo : Expression.read (groupsRegex [.token spaced, .literal "-"]) =
      .ok ⟨.concat [.check .textStart, .group 1 word, .group 2 (.char '-')],
        [("s1", 2), ("s0", 1)]⟩ := by
    have htext : groupsRegex [.token spaced, .literal "-"] =
        "^(?P<s0>(?x) a+ # letters\n)(?P<s1>\\-)" :=
      (groupsRegex_of_le (by decide)).trans rfl
    rw [htext]
    rfl
  have hread : ∀ k, 0 < k → k ≤ spacedFirst.flat.length →
      ∃ e, Expression.read (groupsRegex (spacedFirst.flat.take k)) = .ok e := by
    intro k hk hk'
    rw [hflat] at hk' ⊢
    obtain rfl | rfl : k = 1 ∨ k = 2 := by
      simp only [List.length_cons, List.length_nil] at hk'
      omega
    · exact ⟨_, hone⟩
    · exact ⟨_, htwo⟩
  have hdiagnose : spacedFirst.diagnose "aa_" =
      .error ⟨.segment 1 "'-'", 2, 1, NameMap.empty.insert "x" (.text "aa")⟩ := by
    have hprepare : (spacedFirst.kind.prepare "aa_".toList).toArray = "aa_".toList.toArray := rfl
    have hword : search "aa_".toList.toArray (.concat [.check .textStart, .group 1 word]) =
        some ⟨0, ⟨2, [(3, 2), (2, 0)]⟩⟩ := by
      rw [(anchored_concat _).search_eq rfl]
      rfl
    have hboth : search "aa_".toList.toArray
        (.concat [.check .textStart, .group 1 word, .group 2 (.char '-')]) = none := by
      rw [(anchored_concat _).search_eq rfl]
      rfl
    simp only [diagnose, hflat, hprepare, List.length_cons, List.length_nil, Nat.zero_add,
      diagnoseFrom, List.take_succ_cons, List.take_nil, List.take_zero, hone, htwo, hword, hboth,
      diagnoseMatch, readGroups, hnames]
    rfl
  exact ⟨rfl, rfl, htokens, hread, hdiagnose,
    diagnose_locates (by simp [hflat]) htokens hread hdiagnose trivial⟩

end Template

end Stencil
