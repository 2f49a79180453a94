import Stencil.Proofs.Pattern.Reaching
import Stencil.Proofs.Template.Delimiting
import Stencil.Proofs.Template.Flattening
import Stencil.Proofs.Token.Rendering

/-!
# What is formatted is parsed back

In a delimited template of padded tokens each token ends where its letters and digits end. A text
can be spelled in one way only (`Delimited.spelling_unique`), backtracking goes straight to it
(`Composes.reaches`), and what has been formatted is parsed back with the same values
(`parse_format`). Going straight on leaves a choice open at each letter of a token. In a very long
text of a template that repeats a name, these are too many for the search (`parse_longWord`).
-/

namespace Stencil

open Pattern Segment

/-! ## Delimited segments -/

namespace Segment

/-- Every token is followed by the end, or by a literal that begins with no ASCII letter or
digit. -/
def Delimited (ss : List Segment) : Prop :=
  ∀ before u behind, ss = before ++ .token u :: behind →
    behind = [] ∨ ∃ w rest c cs, behind = .literal w :: rest ∧ w.toList = c :: cs ∧
      c.isAlphanum = false

/-- A text begins with no ASCII letter or digit. -/
def Stops (cs : List Char) : Prop := ∀ c ∈ cs.head?, c.isAlphanum = false

variable {ss : List Segment} {s : Segment} {u : Token} {τ σ : String → String}

theorem Delimited.tail (h : Delimited (s :: ss)) : Delimited ss :=
  fun before u behind heq => h (s :: before) u behind (by rw [heq, List.cons_append])

theorem Delimited.cons (h : Delimited ss) (hs : ∀ u, s = .token u → ss = [] ∨
    ∃ w rest c cs, ss = .literal w :: rest ∧ w.toList = c :: cs ∧ c.isAlphanum = false) :
    Delimited (s :: ss) := by
  intro before u behind heq
  cases before with
  | nil =>
    obtain ⟨rfl, rfl⟩ := List.cons.inj heq
    exact hs u rfl
  | cons x before => exact h before u behind (List.cons.inj heq).2

theorem Delimited.stops (h : Delimited (.token u :: ss)) (τ : String → String) :
    Stops (ss.flatMap (spell τ)) := by
  intro d hd
  rcases h [] u ss rfl with rfl | ⟨w, rest, c, cs, rfl, hw, hc⟩
  · cases hd
  · rw [List.flatMap_cons, spell, hw] at hd
    cases hd
    exact hc

/-- Delimited segments are spelled in one way. -/
theorem Delimited.spelling_unique (h : Delimited ss)
    (hτ : ∀ u, .token u ∈ ss → ∀ c ∈ (τ u.name).toList, c.isAlphanum = true)
    (hσ : ∀ u, .token u ∈ ss → ∀ c ∈ (σ u.name).toList, c.isAlphanum = true)
    (heq : ss.flatMap (spell τ) = ss.flatMap (spell σ)) :
    ∀ u, .token u ∈ ss → τ u.name = σ u.name := by
  have hdelimited : DelimitedBy Char.isAlphanum ss := h
  have htexts : ss.map (spell τ) = ss.map (spell σ) :=
    hdelimited.eq_of_flatten_eq (within_spell hτ) (within_spell hσ) heq
  exact fun u hu => String.toList_inj.1 (List.map_inj_left.1 htexts _ hu)

end Segment

/-! ## Going straight on -/

namespace Shape

variable {text : Array Char} {s : Spot} {w : List Char} {stop : Nat}

/-- Renumbering leaves a shape as it is, for it has no groups. -/
theorem eq_of_renumbered {ok : Nat → Prop} (sh : Shape) {q : Pattern}
    (h : sh.pattern.Renumbered ok q) : q = sh.pattern := by
  rw [pattern] at h ⊢
  generalize sh.front = front at h
  induction front generalizing q with
  | nil =>
    cases h with
    | repeated _ _ _ h =>
      cases h
      rfl
  | cons a front ih =>
    obtain ⟨x, xs, hxs⟩ : ∃ x xs, front.map (fun c => Pattern.one c.set) ++ [sh.repeatedLast] =
        x :: xs :=
      List.exists_cons_of_ne_nil (by simp)
    rw [List.map_cons, List.cons_append, hxs] at h ⊢
    cases h with
    | seq hp hq =>
      cases hp
      rw [hxs] at ih
      rw [ih hq]
      rfl

/-- Backtracking goes straight over a word of a shape, where no letter or digit follows. -/
theorem reaches {sh : Shape} (h : w ∈ sh.pattern.language) (hspans : Spans text s.pos stop w)
    (hpos : s.pos ≤ text.size) (hstop : ∀ c, text[stop]? = some c → c.isAlphanum = false) :
    Reaches text sh.pattern 1 w.length s (s.advance w.length) := by
  have hset : ∀ c, text[stop]? = some c → sh.last.set.mem c = false := by
    intro c hc
    by_contra hmem
    have := sh.last.alnum c (by simpa using hmem)
    rw [hstop c hc] at this
    cases this
  rw [pattern] at h ⊢
  generalize sh.front = front at h
  induction front generalizing w s with
  | nil =>
    obtain ⟨hlo, hhi, hall⟩ := mem_language_repeatedLast.1 h
    exact (reaches_repeated hspans hpos hall hset hlo hhi).of_le (Nat.sub_le ..)
  | cons a front ih =>
    rw [List.map_cons, List.cons_append] at h ⊢
    rw [language_concat_cons, Language.mem_mul] at h
    obtain ⟨u, ⟨c, rfl, hc⟩, v, hv, rfl⟩ := h
    rw [List.singleton_append] at hspans ⊢
    obtain ⟨hfirst, hrest⟩ := Spans.cons_iff.1 hspans
    have hlt : s.pos < text.size := (Array.getElem?_eq_some_iff.1 hfirst).1
    have hgo := ih (s := s.advance 1) hrest hlt hv
    rw [advance_advance, Nat.add_comm 1 v.length] at hgo
    have hone : Reaches text (one a.set) 0 0 s (s.advance 1) := reaches_one hfirst hc
    have hall := hone.cons hgo
    rw [Nat.zero_add, Nat.zero_add] at hall
    exact hall.of_le (Nat.le_succ _)

/-- No choice has to be taken back for a shape. -/
theorem needsBacktracking_pattern (sh : Shape) : sh.pattern.needsBacktracking = false := by
  refine needsBacktracking_concat (List.forall_mem_append.2 ⟨fun p hp => ?_, ?_⟩)
  · obtain ⟨c, -, rfl⟩ := List.mem_map.1 hp
    rfl
  · exact List.forall_mem_singleton.2 rfl

end Shape

namespace Segment

variable {text : Array Char} {s : Spot} {τ : String → String} {names names' : List (String × Nat)}
  {ss : List Segment} {ps : List Pattern}

/-- What stands behind a spelled beginning. -/
theorem stops_at {inside : Char → Bool} {cs : List Char} {a : Nat} (h : Spans text a text.size cs)
    (hcs : ∀ c ∈ cs.head?, inside c = false) : ∀ c, text[a]? = some c → inside c = false := by
  intro c hc
  cases cs with
  | nil =>
    obtain rfl : text.size = a := h.stop_eq
    simp at hc
  | cons d ds =>
    obtain ⟨hd, -⟩ := Spans.cons_iff.1 h
    rw [hc] at hd
    cases hd
    exact hcs c rfl

/-- A group that is passed in one go holds the text that it has been passed over. -/
theorem Holds.passed {name : String} {i n : Nat} (h : Holds text s names τ)
    (below : ∀ m ∈ names, m.2 < i) (hspans : Spans text s.pos (s.pos + n) (τ name).toList) :
    Holds text (((s.mark (2 * i)).advance n).mark (2 * i + 1)) ((name, i) :: names) τ := by
  refine List.forall_mem_cons.2 ⟨⟨s.pos, _, ?_, hspans⟩, fun m hm => ?_⟩
  · have hne : (2 * i == 2 * i + 1) = false := by simp
    simp [Spot.group?, Spot.mark, Spot.advance, List.lookup_cons, hne]
  · obtain ⟨a, b, hab, hspans⟩ := h m hm
    have hlt := below m hm
    have hother : ∀ j ∈ [2 * m.2, 2 * m.2 + 1], (j == 2 * i + 1) = false ∧
        (j == 2 * i) = false := by
      simp only [List.mem_cons, List.not_mem_nil, or_false, beq_eq_false_iff_ne]
      omega
    obtain ⟨hstart, hstart'⟩ := hother (2 * m.2) (by simp)
    obtain ⟨hstop, hstop'⟩ := hother (2 * m.2 + 1) (by simp)
    refine ⟨a, b, ?_, hspans⟩
    rw [← hab]
    simp only [Spot.group?, Spot.mark, Spot.advance, List.lookup_cons, hstart, hstart', hstop,
      hstop']

/-- Backtracking goes straight over the text that delimited segments are spelled as. Of the choices
that it takes back, there is no more than one for each group, and of those that it leaves open no
more than one for each character. -/
theorem Composes.reaches (h : Composes names ss ps names')
    (htokens : ∀ u, .token u ∈ ss → u.IsPadded) (hs : Holds text s names τ)
    (hpos : s.pos ≤ text.size) (hfits : ∀ u, .token u ∈ ss → u.matches? (τ u.name) = true)
    (hdelimited : Delimited ss) (hspans : Spans text s.pos text.size (ss.flatMap (spell τ))) :
    ∃ e cost, e.pos = text.size ∧ 64 * cost ≤ Pattern.sizeAll ps ∧
      Reaches text (concat ps) cost (text.size - s.pos) s e := by
  induction h generalizing s with
  | nil names =>
    exact ⟨s, 0, by simpa using hspans.stop_eq.symm, by simp, reaches_nil.of_le (Nat.zero_le _)⟩
  | @literal names names' ss ps w _ ih =>
    rw [List.flatMap_cons] at hspans
    obtain ⟨hw, hrest⟩ := hspans.of_append
    have hadvance : Holds text (s.advance w.toList.length) names τ := hs
    obtain ⟨e, cost, hend, hcost, hreaches⟩ :=
      ih (fun u hu => htokens u (List.mem_cons_of_mem _ hu)) hadvance (hw.le_size hpos)
        (fun u hu => hfits u (List.mem_cons_of_mem _ hu)) hdelimited.tail
      hrest
    refine ⟨e, cost, hend, ?_, ?_⟩
    · rw [sizeAll_append]
      omega
    · have hall := (reaches_chars hw).append hreaches
      rw [Nat.zero_add, Nat.zero_add] at hall
      exact hall.of_le (by simp only [Spot.advance]; omega)
  | @group names names' ss ps t i p q new below read renumbered hss ih =>
    obtain ⟨sh, hread, hmatches⟩ := (htokens t (List.mem_cons_self ..)).exists_read
    rw [read] at hread
    cases hread
    obtain rfl := sh.eq_of_renumbered renumbered
    have hstops := hdelimited.stops τ
    rw [List.flatMap_cons] at hspans
    obtain ⟨hw, hrest⟩ := hspans.of_append
    have hsize := hw.le_size hpos
    have hgroup : Reaches text (.group i sh.pattern) 1 (τ t.name).toList.length s _ :=
      (Shape.reaches ((hmatches _).1 (hfits t (List.mem_cons_self ..)))
        (s := s.mark (2 * i)) hw hpos (stops_at hrest hstops)).group i
    obtain ⟨e, cost, hend, hcost, hreaches⟩ :=
      ih (fun u hu => htokens u (List.mem_cons_of_mem _ hu)) (hs.passed below hw) hsize
        (fun u hu => hfits u (List.mem_cons_of_mem _ hu)) hdelimited.tail
      hrest
    refine ⟨e, 1 + cost, hend, ?_, (hgroup.cons hreaches).of_le ?_⟩
    · rw [sizeAll, Pattern.size]
      omega
    · simp only [Spot.advance, Spot.mark, spell] at hsize ⊢
      omega
  | @again names names' ss ps t i known hss ih =>
    rw [List.flatMap_cons] at hspans
    obtain ⟨hw, hrest⟩ := hspans.of_append
    obtain ⟨a, b, hgroup, hword⟩ := hs (t.name, i) (mem_names_of_lookup known)
    have hadvance : Holds text (s.advance (τ t.name).toList.length) names τ := hs
    obtain ⟨e, cost, hend, hcost, hreaches⟩ :=
      ih (fun u hu => htokens u (List.mem_cons_of_mem _ hu)) hadvance (hw.le_size hpos)
        (fun u hu => hfits u (List.mem_cons_of_mem _ hu)) hdelimited.tail
      hrest
    refine ⟨e, cost, hend, ?_, ?_⟩
    · rw [sizeAll]
      omega
    · have hall := (reaches_again hgroup (past?_of_spans hword hpos hw)).cons hreaches
      rw [Nat.zero_add, Nat.zero_add] at hall
      exact hall.of_le (by simp only [Spot.advance]; omega)

/-- Unless a name is repeated, no choice has to be taken back for padded tokens. -/
theorem Composes.needsBacktracking_eq_false (h : Composes names ss ps names')
    (htokens : ∀ u, .token u ∈ ss → u.IsPadded)
    (hnew : ∀ u, .token u ∈ ss → u.name ∉ names.map Prod.fst)
    (hdistinct : ((ss.filterMap token?).map Token.name).Nodup) :
    ∀ p ∈ ps, p.needsBacktracking = false := by
  induction h with
  | nil => exact fun p hp => nomatch hp
  | @literal names names' ss ps w _ ih =>
    refine List.forall_mem_append.2 ⟨fun p hp => ?_, ?_⟩
    · obtain ⟨c, -, rfl⟩ := List.mem_map.1 hp
      rfl
    · exact ih (fun u hu => htokens u (List.mem_cons_of_mem _ hu))
        (fun u hu => hnew u (List.mem_cons_of_mem _ hu)) hdistinct
  | @group names names' ss ps t i p q new below read renumbered hss ih =>
    obtain ⟨sh, hread, -⟩ := (htokens t (List.mem_cons_self ..)).exists_read
    rw [read] at hread
    cases hread
    obtain rfl := sh.eq_of_renumbered renumbered
    rw [List.filterMap_cons_some (by rfl), List.map_cons] at hdistinct
    obtain ⟨hfresh, hrest⟩ := List.nodup_cons.1 hdistinct
    refine List.forall_mem_cons.2 ⟨sh.needsBacktracking_pattern,
      ih (fun u hu => htokens u (List.mem_cons_of_mem _ hu)) (fun u hu hmem => ?_) hrest⟩
    rcases List.mem_cons.1 hmem with heq | hmem
    · have hu' : u.name ∈ (ss.filterMap token?).map Token.name :=
        List.mem_map_of_mem (List.mem_filterMap.2 ⟨_, hu, rfl⟩)
      rw [heq] at hu'
      exact hfresh hu'
    · exact hnew u (List.mem_cons_of_mem _ hu) hmem
  | @again names names' ss ps t i known hss ih =>
    exact absurd (List.mem_map_of_mem (mem_names_of_lookup known)) (hnew t (List.mem_cons_self ..))

end Segment

/-! ## Formatting -/

namespace Segment

variable {fields : Fields} {o : FormatOptions}

/-- Flat segments are rendered as they are spelled with the texts of their tokens. -/
theorem toList_of_renderAll {ss : List Segment} {s : String} {τ : String → String}
    (hflat : ∀ x ∈ ss, x.isTemplate = false) (h : renderAll fields o ss = .ok s)
    (hτ : ∀ u w, .token u ∈ ss → u.fill fields o = .ok w → τ u.name = w) :
    s.toList = ss.flatMap (spell τ) ∧ ∀ u, .token u ∈ ss → u.fill fields o = .ok (τ u.name) := by
  induction ss generalizing s with
  | nil =>
    cases h
    simp
  | cons x ss ih =>
    obtain ⟨a, ha, hrest⟩ := bind_eq_ok.1 h
    obtain ⟨b, hb, hs⟩ := bind_eq_ok.1 hrest
    cases hs
    obtain ⟨hlist, hfill⟩ := ih (fun y hy => hflat y (List.mem_cons_of_mem _ hy)) hb
      fun u w hu => hτ u w (List.mem_cons_of_mem _ hu)
    rw [String.toList_append, hlist, List.flatMap_cons]
    cases x with
    | literal w =>
      cases ha
      refine ⟨rfl, fun u hu => ?_⟩
      rcases List.mem_cons.1 hu with hu | hu
      · cases hu
      · exact hfill u hu
    | template => cases hflat _ (List.mem_cons_self ..)
    | token t =>
      have ht : τ t.name = a := hτ t a (List.mem_cons_self ..) ha
      refine ⟨by rw [spell, ht], fun u hu => ?_⟩
      rcases List.mem_cons.1 hu with hu | hu
      · cases hu
        rw [ht]
        exact ha
      · exact hfill u hu

end Segment

namespace Token

variable {u : Token} {fields : Fields} {v : Value} {w : String}

/-- A formatted value is matched and read back. -/
theorem format_eq_ok (h : u.format v = .ok w) : u.matches? w = true ∧ u.readValue w = .ok v :=
  parse_eq_ok_iff.1 (format_eq_ok_iff.1 h).2

/-- A token is filled with its value, or with its default where it has none. -/
theorem fill_standard (h : u.fill fields .standard = .ok w) :
    ∃ v, (fields.get? u.name).or u.default = some v ∧ u.format v = .ok w := by
  have hnone : FormatOptions.standard.overrides.get? u.name = none := rfl
  rw [fill, hnone] at h
  simp only at h
  cases hget : fields.get? u.name with
  | some v =>
    rw [hget] at h
    exact ⟨v, rfl, h⟩
  | none =>
    rw [hget] at h
    cases hdefault : u.default with
    | none => simp [hdefault] at h
    | some v =>
      simp only [hdefault] at h
      exact ⟨v, rfl, h⟩

end Token

/-! ## Round trip -/

namespace Template

variable {t : Template} {fields : Fields} {s : String}

theorem exists_first? {ss : List Segment} {u : Token} (hu : .token u ∈ ss) :
    ∃ v, first? u.name ss = some v := by
  refine Option.isSome_iff_exists.1 (List.find?_isSome.2 ⟨u, ?_, by simp⟩)
  exact List.mem_filterMap.2 ⟨_, hu, rfl⟩

/-- A search for a text that delimited padded tokens are spelled as is given up only because too
many choices are open; this takes a repeated name and a very long text. -/
theorem opened_of_givenUp {name : String} {kind : TemplateKind} {segments : List Segment}
    (h : create name kind segments = .ok t) (htokens : ∀ u, .token u ∈ t.flat → u.IsPadded)
    (hdelimited : Delimited t.flat) {τ : String → String}
    (hfits : ∀ u, .token u ∈ t.flat → u.matches? (τ u.name) = true)
    (hspelled : t.flat.flatMap (spell τ) = t.kind.prepare s.toList) {why : Exhaustion}
    (hgiven : t.parse s = .error (.givenUp ⟨t.name, why⟩)) :
    why = .opened ∧ ¬ ((t.tokens false).map Token.name).Nodup ∧
      1000000 ≤ (t.kind.prepare s.toList).length + 1 := by
  obtain ⟨ps, hps, hpattern⟩ := exists_composes h fun u hu => (htokens u hu).composable
  obtain ⟨-, -, -, hwhole, -⟩ := create_eq h
  have hsearch := parse_eq_givenUp_iff.1 hgiven
  generalize t.kind.prepare s.toList = cs at hspelled hsearch
  have hback : t.whole.pattern.needsBacktracking = true := by
    by_contra hback
    have hanchored : Anchored t.whole.pattern := hpattern ▸ anchored_concat _
    rw [hanchored.searchComposite_plain (by simpa using hback)] at hsearch
    split at hsearch <;> cases hsearch
  have hnone : Holds cs.toArray ⟨0, []⟩ [] τ := fun m hm => by cases hm
  obtain ⟨e, cost, hend, hcost, hreaches⟩ :=
    hps.reaches htokens hnone (Nat.zero_le _) hfits hdelimited
      (Spans.whole_iff.2 (by rw [hspelled]))
  have hstart : (⟨0, []⟩ : Spot).satisfies cs.toArray .textStart = true := rfl
  have hstop : e.satisfies cs.toArray .textEnd = true := by
    simp [Spot.satisfies, Assertion.holds, Spot.behind, hend]
  have hreaches' :=
    (reaches_check hstart).cons (hreaches.append ((reaches_check hstop).cons reaches_nil))
  rw [← hpattern] at hreaches'
  -- There are not enough groups in an expression of the greatest size for too many choices to be
  -- taken back.
  have hlimit : 0 + (cost + (0 + 0)) ≤ Limits.standard.takenBack := by
    have hsize := (sizeAll_le _).trans (hpattern ▸ Composite.size_le hwhole)
    simp only [sizeAll, sizeAll_append] at hsize
    simp only [sizeLimit, Limits.standard] at hsize ⊢
    omega
  rw [Expression.searchComposite, if_pos hback] at hsearch
  rcases hreaches'.backtrack hlimit with hfound | ⟨hopened, hroom⟩
  · rw [hfound] at hsearch
    cases hsearch
  · rw [hopened] at hsearch
    cases hsearch
    refine ⟨rfl, fun hdistinct => ?_, ?_⟩
    · have hplain := hps.needsBacktracking_eq_false htokens (fun _ _ => List.not_mem_nil) hdistinct
      rw [hpattern, needsBacktracking_concat] at hback
      · cases hback
      · simp only [List.forall_mem_cons, List.forall_mem_append]
        exact ⟨rfl, hplain, rfl, List.forall_mem_nil _⟩
    · simp only [Limits.standard, List.size_toArray] at hroom
      omega

/-- The texts that formatting gives to the names of tokens. -/
def filled (t : Template) (fields : Fields) (x : String) : String :=
  ((first? x t.flat).bind fun u => (u.fill fields .standard).toOption).getD ""

theorem format_eq_ok_iff :
    t.format fields .standard = .ok s ↔ ∃ r, renderAll fields .standard t.flat = .ok r ∧
    s = t.kind.finish r := by
  simp only [flat, renderAll_flattenAll, format]
  cases renderAll fields .standard t.segments with
  | error => simp [Except.map]
  | ok r => simp [Except.map, eq_comm]

/-- If all tokens of a name are filled alike, what is rendered is spelled by the texts that the
tokens were filled with, and these stand for the values that were given. -/
theorem renderAll_spells
    (halike : ∀ u v, .token u ∈ t.flat → .token v ∈ t.flat → u.name = v.name →
      u.fill fields .standard = v.fill fields .standard)
    (h : renderAll fields .standard t.flat = .ok s) :
    t.Spells (t.filled fields) s.toList ∧ ∀ u, .token u ∈ t.flat →
      ∃ v, (fields.get? u.name).or u.default = some v ∧
        u.readValue (t.filled fields u.name) = .ok v := by
  have hflat : ∀ x ∈ t.flat, x.isTemplate = false := not_isTemplate_flattenAll t.segments
  obtain ⟨hspelled, hfill⟩ :=
    @toList_of_renderAll _ _ _ s (t.filled fields) hflat h fun u w hu hw => by
    obtain ⟨v, hv⟩ := exists_first? hu
    obtain ⟨hmem, hname⟩ := token_mem_of_first? hv
    rw [halike u v hu hmem hname.symm] at hw
    simp [filled, hv, hw, Except.toOption]
  have hread : ∀ u, .token u ∈ t.flat → ∃ v, (fields.get? u.name).or u.default = some v ∧
      u.matches? (t.filled fields u.name) = true ∧
      u.readValue (t.filled fields u.name) = .ok v := by
    intro u hu
    obtain ⟨v, hv, hformat⟩ := Token.fill_standard (hfill u hu)
    exact ⟨v, hv, Token.format_eq_ok hformat⟩
  refine ⟨⟨fun x u hu => ?_, hspelled.symm⟩, fun u hu => ?_⟩
  · obtain ⟨hmem, rfl⟩ := token_mem_of_first? hu
    obtain ⟨v, -, hmatches, -⟩ := hread u hmem
    exact hmatches
  · obtain ⟨v, hv, -, hvalue⟩ := hread u hu
    exact ⟨v, hv, hvalue⟩

/-- What a template has formatted is spelled by the texts that its tokens were filled with, and
these stand for the values that were given. -/
theorem format_spells (hfirst : ∀ u, .token u ∈ t.flat → first? u.name t.flat = some u)
    (hkind : t.kind = .standard) (hformat : t.format fields .standard = .ok s) :
    t.Spells (t.filled fields) s.toList ∧ ∀ u, .token u ∈ t.flat →
      ∃ v, (fields.get? u.name).or u.default = some v ∧
        u.readValue (t.filled fields u.name) = .ok v := by
  obtain ⟨r, hr, rfl⟩ := format_eq_ok_iff.1 hformat
  rw [hkind]
  refine renderAll_spells (fun u v hu hv hname => ?_) hr
  have huv := hfirst u hu
  rw [hname, hfirst v hv] at huv
  rw [Option.some.inj huv]

/-- **What a delimited template of padded tokens has formatted, it parses back**: each name of a
token has the value that was given for it, or the default of the token. Only where a name is
repeated in a very long text may too many choices be open for the search. -/
theorem parse_format {name : String} {segments : List Segment}
    (h : create name .standard segments = .ok t) (htokens : ∀ u, .token u ∈ t.flat → u.IsPadded)
    (hsame : ∀ u v, .token u ∈ t.flat → .token v ∈ t.flat → u.name = v.name → u.same v = true)
    (hdelimited : Delimited t.flat) (hformat : t.format fields .standard = .ok s) :
    (∃ g, t.parse s = .ok g ∧ (∀ x, g.contains x = true ↔ ∃ u ∈ t.tokens false, u.name = x) ∧
      ∀ u, .token u ∈ t.flat →
        ∃ v, (fields.get? u.name).or u.default = some v ∧ g.get? u.name = some v) ∨
    (t.parse s = .error (.givenUp ⟨t.name, .opened⟩) ∧
      ¬ ((t.tokens false).map Token.name).Nodup ∧ 1000000 ≤ s.length + 1) := by
  obtain ⟨-, hkind, -⟩ := create_eq h
  have hfirst : ∀ u, .token u ∈ t.flat → first? u.name t.flat = some u := by
    intro u hu
    obtain ⟨v, hv⟩ := exists_first? hu
    obtain ⟨hmem, hname⟩ := token_mem_of_first? hv
    have heq : u = v := (htokens u hu).eq_of_same (htokens v hmem) (hsame u v hu hmem hname.symm)
    rw [hv, heq]
  obtain ⟨hspells, hread⟩ := format_spells hfirst hkind hformat
  have hprepare : t.kind.prepare s.toList = s.toList := by rw [hkind]; rfl
  rw [← hprepare] at hspells
  have hfits : ∀ u, .token u ∈ t.flat → u.matches? (t.filled fields u.name) = true := fun u hu =>
    hspells.matched u.name u (hfirst u hu)
  rcases parse_cases h (fun u hu => (htokens u hu).composable) s with
    ⟨why, hgiven⟩ | ⟨-, hnone⟩ | ⟨σ, textOf, hσ, htext, hparse⟩
  · obtain ⟨rfl, hrepeated, hlong⟩ :=
      opened_of_givenUp h htokens hdelimited hfits hspells.spelled hgiven
    rw [hprepare] at hlong
    exact .inr ⟨hgiven, hrepeated, by rwa [← String.length_toList]⟩
  · exact absurd ⟨_, hspells⟩ hnone
  · -- Both spellings are of the same text, and so they are the same.
    have halnum : ∀ ρ : String → String, t.Spells ρ (t.kind.prepare s.toList) →
        ∀ u, .token u ∈ t.flat → ∀ c ∈ (ρ u.name).toList, c.isAlphanum = true := fun ρ hρ u hu =>
      (htokens u hu).isAlphanum_of_matches (hρ.matched u.name u (hfirst u hu))
    have hunique := hdelimited.spelling_unique (halnum σ hσ) (halnum _ hspells)
      (hσ.spelled.trans hspells.spelled.symm)
    have hvalues : ∀ u ∈ t.tokens false, ∃ v, u.readValue (σ u.name) = .ok v := by
      intro u hu
      obtain ⟨v, -, hv⟩ := hread u (token_mem_flat.1 hu)
      exact ⟨v, by rw [hunique u (token_mem_flat.1 hu), hv]⟩
    obtain ⟨g, hg⟩ : ∃ g, readTokens textOf (t.tokens false) .empty = .ok g :=
      exists_readTokens htext hvalues
    have hfields := readTokens_fields htext hg
    refine .inl ⟨g, by rw [hparse, hg]; rfl, fun x => (hfields x).1, fun u hu => ?_⟩
    obtain ⟨v, hv, hvalue⟩ := hread u hu
    obtain ⟨w, hw, hget⟩ := (hfields u.name).2 u (hfirst u hu)
    rw [hunique u hu, hvalue] at hw
    cases hw
    exact ⟨v, hv, hget⟩

/-! A word that stands twice, the second time in a nested template. -/

/-- A token of text without options. -/
def word : Token :=
  ⟨"w", .text, "[a-zA-Z]+",
    ⟨.concat [.check .textStart, .repeated (.one (.union (.range 'a' 'z') (.range 'A' 'Z'))) 1 none
      true, .check .textEnd], []⟩,
    .typed (some .text), "Must be a string", none⟩

/-- The segments of a file in a directory of the same name. -/
def fileSegments : List Segment :=
  [.token word, .literal "/", .template "file" .standard [.token word, .literal ".txt"]]

/-- A file in a directory of the same name. -/
def fileInDirectory : Template :=
  ⟨"t", .standard, fileSegments,
    ⟨.concat [.check .textStart,
      .group 1 (.repeated (.one (.union (.range 'a' 'z') (.range 'A' 'Z'))) 1 none true),
        .char '/', .again 1,
      .char '.', .char 't', .char 'x', .char 't', .check .textEnd], [("w", 1)]⟩,
    ⟨.concat [.check .textStart,
      .group 1 (.repeated (.one (.union (.range 'a' 'z') (.range 'A' 'Z'))) 1 none true),
        .char '/', .again 1,
      .char '.', .char 't', .char 'x', .char 't'], [("w", 1)]⟩⟩

theorem isPadded_word : word.IsPadded :=
  ⟨Kind.text, TokenOptions.ofKind "str", word, .inr rfl, rfl, rfl, rfl, rfl, rfl⟩

/-- A word of letters is formatted as it is. -/
theorem format_letters (name : String) {w : String} (hne : w ≠ "")
    (hw : ∀ c ∈ w.toList, CharClass.letters.set.mem c = true) :
    { word with name := name }.format (.text w) = .ok w := by
  let u : Token := { word with name := name }
  have hplain : Reader.alone? word.regex =
      some (.repeated (.one CharClass.letters.set) 1 none true) :=
    rfl
  have hpos : 1 ≤ w.toList.length := List.length_pos_iff.2 fun h =>
    hne (String.toList_eq_nil_iff.1 h)
  have hmatches : u.matches? w = true :=
    (u.matches?_iff isPadded_word.valid hplain rfl w).2 (mem_language_repeated.2
      ⟨w.toList.length - 1, by simp, mem_language_one_pow.2 ⟨by omega, hw⟩⟩)
  have hrender : u.rule.render (.text w) = .ok w := by
    obtain ⟨v, hv, -, hself⟩ := @RenderRule.render_text u.rule rfl nofun w
    rw [hv, hself (Nat.zero_le _)]
  have hread : u.readValue w = .ok (.text w) := rfl
  change u.format (.text w) = .ok w
  simp only [Token.format, Token.parse, hrender, hmatches, hread, if_true]

theorem format_word : word.format (.text "ab") = .ok "ab" :=
  format_letters "w" (by decide) (List.all_eq_true.1 rfl)

theorem eq_word {u : Token} (hu : .token u ∈ fileInDirectory.flat) : u = word := by
  have hflat : fileInDirectory.flat =
      [.token word, .literal "/", .token word, .literal ".txt"] := rfl
  simpa [hflat] using hu

theorem delimited_fileInDirectory : Delimited fileInDirectory.flat := by
  have hnil : Delimited [] := fun before u behind heq => by simp at heq
  refine (((hnil.cons ?_).cons ?_).cons ?_).cons ?_
  · simp
  · exact fun _ _ => .inr ⟨".txt", [], '.', ['t', 'x', 't'], rfl, rfl, rfl⟩
  · simp
  · exact fun _ _ => .inr ⟨"/", _, '/', [], rfl, rfl, rfl⟩

theorem parse_format_fileInDirectory :
    ∃ g, fileInDirectory.parse "ab/ab.txt" = .ok g ∧
      (∀ x, g.contains x = true ↔ ∃ u ∈ fileInDirectory.tokens false, u.name = x) ∧
      ∀ u, .token u ∈ fileInDirectory.flat →
        ∃ v, ((NameMap.empty.insert "w" (.text "ab")).get? u.name).or u.default = some v ∧
          g.get? u.name = some v := by
  have hcreate : create "t" .standard fileSegments = .ok fileInDirectory := rfl
  have hformat : fileInDirectory.format (NameMap.empty.insert "w" (.text "ab")) .standard =
      .ok "ab/ab.txt" := by
    have hfill : word.fill (NameMap.empty.insert "w" (.text "ab")) .standard = .ok "ab" :=
      format_word
    simp only [format, fileInDirectory, fileSegments, renderAll, render, hfill]
    rfl
  refine (parse_format hcreate (fun u hu => eq_word hu ▸ isPadded_word) (fun u v hu hv _ => ?_)
    delimited_fileInDirectory hformat).resolve_right fun h => absurd h.2.2 (by decide)
  rw [eq_word hu, eq_word hv]
  decide

/-! A word before another one that stands twice: the choices at the letters of the first word stay
open while the others are matched. -/

/-- Another token of text without options. -/
def mark : Token := { word with name := "v" }

/-- A word and, twice, a mark. -/
def wordAndMarks : Template :=
  ⟨"t", .standard, [.token word, .literal "_", .token mark, .literal "_", .token mark],
    ⟨.concat [.check .textStart,
      .group 1 (.repeated (.one (.union (.range 'a' 'z') (.range 'A' 'Z'))) 1 none true), .char '_',
      .group 2 (.repeated (.one (.union (.range 'a' 'z') (.range 'A' 'Z'))) 1 none true), .char '_',
      .again 2, .check .textEnd], [("v", 2), ("w", 1)]⟩,
    ⟨.concat [.check .textStart,
      .group 1 (.repeated (.one (.union (.range 'a' 'z') (.range 'A' 'Z'))) 1 none true), .char '_',
      .group 2 (.repeated (.one (.union (.range 'a' 'z') (.range 'A' 'Z'))) 1 none true), .char '_',
      .again 2], [("v", 2), ("w", 1)]⟩⟩

theorem isPadded_mark : mark.IsPadded :=
  ⟨Kind.text, TokenOptions.ofKind "str", mark, .inr rfl, rfl, rfl, rfl, rfl, rfl⟩

theorem format_wordAndMarks {w : String} (hne : w ≠ "")
    (hw : ∀ c ∈ w.toList, CharClass.letters.set.mem c = true) :
    wordAndMarks.format ((NameMap.empty.insert "w" (.text w)).insert "v" (.text "b")) .standard =
      .ok (w ++ "_b_b") := by
  generalize hfields : (NameMap.empty.insert "w" (Value.text w)).insert "v" (.text "b") = fields
  have hword : word.fill fields .standard = .ok w := by
    have hget : fields.get? word.name = some (.text w) := by
      rw [← hfields]
      rfl
    rw [Token.fill, hget]
    exact format_letters "w" hne hw
  have hmark : mark.fill fields .standard = .ok "b" := by
    have hget : fields.get? mark.name = some (.text "b") := by
      rw [← hfields]
      rfl
    rw [Token.fill, hget]
    exact format_letters "v" (by decide) (List.all_eq_true.1 rfl)
  simp only [format, wordAndMarks, renderAll, render, hword, hmark]
  rfl

/-- A choice stays open at each letter of the word. -/
theorem parse_long {w : String} (hw : ∀ c ∈ w.toList, CharClass.letters.set.mem c = true)
    (hlong : 1000000 ≤ w.length) :
    wordAndMarks.parse (w ++ "_b_b") = .error (.givenUp ⟨"t", .opened⟩) := by
  generalize hchars : (w ++ "_b_b").toList = cs
  have hwhole : Spans cs.toArray 0 cs.toArray.size (w.toList ++ "_b_b".toList) :=
    Spans.whole_iff.2 ((String.toList_append ..).symm.trans hchars)
  have hspans : Spans cs.toArray 0 _ w.toList := hwhole.of_append.1
  have hgiven : backtrack .standard cs.toArray wordAndMarks.whole.pattern = .givenUp .opened := by
    refine backtrack_givenUp ?_
    simp only [wordAndMarks, tryFrom_concat_cons, Function.comp_apply]
    refine tryFrom_repeated_givenUp (s := ⟨0, [(2, 0)]⟩) hspans (Nat.zero_le _) hw ?_ ?_
    · rw [String.length_toList]
      omega
    · rw [String.length_toList]
      simp only [Limits.standard]
      omega
  have hprepare : wordAndMarks.kind.prepare (w ++ "_b_b").toList = cs := hchars
  refine parse_eq_givenUp_iff.2 ?_
  rw [hprepare, Expression.searchComposite, if_pos (by rfl), hgiven]

/-- A word of so many times one letter. -/
def longWord (n : Nat) : String := String.ofList (List.replicate n 'a')

/-- A word may be too long for what has been formatted to be parsed back. -/
theorem parse_longWord :
    create "t" .standard wordAndMarks.segments = .ok wordAndMarks ∧
      (∀ u, .token u ∈ wordAndMarks.flat → u.IsPadded) ∧
      (∀ u v, .token u ∈ wordAndMarks.flat → .token v ∈ wordAndMarks.flat →
        u.name = v.name → u.same v = true) ∧
      Delimited wordAndMarks.flat ∧
      wordAndMarks.format
        ((NameMap.empty.insert "w" (.text (longWord 1010000))).insert "v" (.text "b")) .standard =
          .ok (longWord 1010000 ++ "_b_b") ∧
      wordAndMarks.parse (longWord 1010000 ++ "_b_b") = .error (.givenUp ⟨"t", .opened⟩) := by
  have hflat : wordAndMarks.flat =
      [.token word, .literal "_", .token mark, .literal "_", .token mark] := rfl
  have htokens : ∀ u, .token u ∈ wordAndMarks.flat → u = word ∨ u = mark := fun u hu => by
    simpa [hflat] using hu
  have hdelimited : Delimited wordAndMarks.flat := by
    rw [hflat]
    have hnil : Delimited [] := fun before u behind heq => by simp at heq
    refine ((((hnil.cons ?_).cons ?_).cons ?_).cons ?_).cons ?_
    · exact fun _ _ => .inl rfl
    · simp
    · exact fun _ _ => .inr ⟨"_", _, '_', [], rfl, rfl, rfl⟩
    · simp
    · exact fun _ _ => .inr ⟨"_", _, '_', [], rfl, rfl, rfl⟩
  have hletters : ∀ c ∈ (longWord 1010000).toList, CharClass.letters.set.mem c = true := by
    intro c hc
    rw [longWord, String.toList_ofList] at hc
    rw [List.eq_of_mem_replicate hc]
    rfl
  have hlong : 1000000 ≤ (longWord 1010000).length := by
    rw [longWord, String.length_ofList, List.length_replicate]
    decide
  have hne : longWord 1010000 ≠ "" := fun h => by
    rw [h] at hlong
    exact absurd hlong (by decide)
  refine ⟨rfl, fun u hu => ?_, fun u v hu hv hname => ?_, hdelimited,
    format_wordAndMarks hne hletters, parse_long hletters hlong⟩
  · rcases htokens u hu with rfl | rfl
    · exact isPadded_word
    · exact isPadded_mark
  · rcases htokens u hu with rfl | rfl <;> rcases htokens v hv with rfl | rfl
    · decide
    · exact absurd hname (by decide)
    · exact absurd hname (by decide)
    · decide

end Template

end Stencil
