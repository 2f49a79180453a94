import Stencil.Proofs.Pattern.Anchored
import Stencil.Proofs.Template.Composing

/-!
# Spelling out templates

A template is spelled out by giving a text to the name of each token. Of the patterns that a
template is read as, every way leads over a text that the template can be spelled as, with texts
that the tokens match (`Composes.exists_spelling`), and there is a way over each such text
(`Composes.exists_way`).
-/

namespace Stencil

open Pattern Pattern.Composite

namespace Segment

/-- The text of a flat segment if each token stands for the text that is given for its name. -/
def spell (τ : String → String) : Segment → List Char
  | .literal s => s.toList
  | .token t => (τ t.name).toList
  | .template _ _ _ => []

/-- The first token of a name among flat segments. -/
def first? (name : String) (ss : List Segment) : Option Token :=
  (ss.filterMap token?).find? (·.name = name)

end Segment

namespace Pattern

variable {strict : Bool} {text : Array Char} {s e : Spot}

/-- The text of a group again is the word that the group holds. -/
theorem past?_eq_some {a b : Nat} {w : List Char} (h : Spans text a b w)
    (he : s.past? text a b = some e) : e = s.advance w.length ∧ Spans text s.pos e.pos w := by
  have hlen : b - a = w.length := by
    have := h.stop_eq
    omega
  simp only [Spot.past?, hlen] at he
  split at he
  · next hsame =>
    cases he
    refine ⟨rfl, ?_, rfl⟩
    have hw := h.extract_eq
    rw [hsame.2, Array.toList_extract, List.extract_eq_take_drop] at hw
    exact hw ▸ List.take_prefix _ _
  · cases he

theorem past?_of_spans {a b stop : Nat} {w : List Char} (h : Spans text a b w)
    (hs : s.pos ≤ text.size) (hstop : Spans text s.pos stop w) :
    s.past? text a b = some (s.advance w.length) := by
  have hlen : b - a = w.length := by
    have := h.stop_eq
    omega
  have hend : (s.advance w.length).pos = stop := hstop.stop_eq.symm
  have hsame : text.extract a b = text.extract s.pos stop := by
    rw [← Array.toList_inj, h.extract_eq, hstop.extract_eq]
  simp only [Spot.past?, hlen, hend]
  rw [if_pos ⟨hstop.le_size hs, hsame⟩]

/-- Literal text leads over itself. -/
theorem mem_waysAll_chars {w : List Char} :
    e ∈ waysAll strict text (w.map char) s ↔ e = s.advance w.length ∧ Spans text s.pos e.pos w := by
  induction w generalizing s with
  | nil =>
    simp only [List.map_nil, waysAll, List.mem_singleton]
    constructor
    · rintro rfl
      exact ⟨rfl, .nil text _⟩
    · rintro ⟨rfl, -⟩
      rfl
  | cons c w ih =>
    have hchar : ∀ x, x ∈ ways strict text (char c) s ↔
        text[s.pos]? = some c ∧ x = s.advance 1 := by
      intro x
      simp only [char, ways]
      cases text[s.pos]? with
      | none => simp
      | some d =>
        by_cases hd : d = c <;> simp [hd]
    have hadvance : (s.advance 1).advance w.length = s.advance (c :: w).length := by
      simp only [Spot.advance, List.length_cons]
      congr 1
      omega
    rw [List.map_cons, waysAll, List.mem_flatMap, Spans.cons_iff]
    constructor
    · rintro ⟨x, hx, he⟩
      obtain ⟨hc, rfl⟩ := (hchar x).1 hx
      obtain ⟨rfl, hspans⟩ := ih.1 he
      exact ⟨hadvance, hc, hspans⟩
    · rintro ⟨rfl, hc, hspans⟩
      exact ⟨s.advance 1, (hchar _).2 ⟨hc, rfl⟩, ih.2 ⟨hadvance.symm, hspans⟩⟩

end Pattern

namespace Segment

variable {strict : Bool} {text : Array Char} {s e : Spot} {τ : String → String}
  {names names' : List (String × Nat)} {ss : List Segment} {ps : List Pattern}

/-- The groups of names hold the texts that are given for them. -/
def Holds (text : Array Char) (s : Spot) (names : List (String × Nat))
    (τ : String → String) : Prop :=
  ∀ m ∈ names, ∃ a b, s.group? m.2 = some (a, b) ∧ Spans text a b (τ m.1).toList

theorem Holds.congr {σ : String → String} (h : Holds text s names τ)
    (hσ : ∀ m ∈ names, σ m.1 = τ m.1) : Holds text s names σ := by
  intro m hm
  obtain ⟨a, b, hab, hspans⟩ := h m hm
  exact ⟨a, b, hab, by rwa [hσ m hm]⟩

/-- What is remembered stays where a group of a higher number is passed. -/
theorem Holds.ways_group {i : Nat} {p q : Pattern} (h : Holds text s names τ)
    (below : ∀ m ∈ names, m.2 < i) (hq : p.Renumbered (i < ·) q)
    (he : e ∈ ways strict text (.group i q) s) : Holds text e names τ := by
  intro m hm
  obtain ⟨a, b, hab, hspans⟩ := h m hm
  exact ⟨a, b, by rw [hq.group?_below he (below m hm), hab], hspans⟩

/-- The group of a name holds the text that it has led over. -/
theorem Holds.group {i : Nat} {p q : Pattern} {name : String} (h : Holds text s names τ)
    (below : ∀ m ∈ names, m.2 < i) (hq : p.Renumbered (i < ·) q)
    (he : e ∈ ways strict text (.group i q) s) (hspans : Spans text s.pos e.pos (τ name).toList) :
    Holds text e ((name, i) :: names) τ :=
  List.forall_mem_cons.2 ⟨⟨s.pos, e.pos, hq.group?_eq he, hspans⟩, h.ways_group below hq he⟩

/-- A new name can be given any text. -/
theorem exists_given {name : String} (new : name ∉ names.map Prod.fst) (τ : String → String)
    (w : String) : ∃ σ : String → String, σ name = w ∧ ∀ m ∈ names, σ m.1 = τ m.1 := by
  refine ⟨Function.update τ name w, Function.update_self ..,
    fun m hm => Function.update_of_ne ?_ ..⟩
  rintro rfl
  exact new (List.mem_map_of_mem hm)

/-- A group remembers what it has led over. -/
theorem ways_group_spans {i : Nat} {p q : Pattern} (hq : p.Renumbered (i < ·) q)
    (hp : p.isRegular = true) (he : e ∈ ways strict text (.group i q) s) :
    e.group? i = some (s.pos, e.pos) ∧ ∃ w ∈ p.language, Spans text s.pos e.pos w := by
  refine ⟨hq.group?_eq he, ?_⟩
  obtain ⟨x, hx, rfl⟩ := List.mem_map.1 he
  obtain ⟨w, hw, hspans⟩ := within_ways strict text (hq.isRegular_eq.trans hp) _ x hx
  rw [hq.language_eq] at hw
  exact ⟨w, hw, hspans⟩

theorem Composes.suffix (h : Composes names ss ps names') : names <:+ names' := by
  induction h with
  | nil => exact List.suffix_rfl
  | literal _ _ ih => exact ih
  | group _ _ _ _ _ ih => exact (List.suffix_cons _ _).trans ih
  | again _ _ ih => exact ih

theorem mem_names_of_lookup {names : List (String × Nat)} {name : String} {i : Nat}
    (h : names.lookup name = some i) : (name, i) ∈ names := by
  induction names with
  | nil => cases h
  | cons m names ih =>
    rw [List.lookup_cons] at h
    split at h
    · next heq =>
      cases h
      rw [beq_iff_eq] at heq
      rw [heq]
      exact List.mem_cons_self ..
    · exact List.mem_cons_of_mem _ (ih h)

theorem exists_lookup {names : List (String × Nat)} {name : String}
    (h : name ∈ names.map Prod.fst) : ∃ i, names.lookup name = some i := by
  refine Option.ne_none_iff_exists'.1 fun hnone => ?_
  obtain ⟨m, hm, rfl⟩ := List.mem_map.1 h
  have hne := List.lookup_eq_none_iff.1 hnone m hm
  exact absurd rfl (bne_iff_ne.1 hne)

theorem Composes.mem_names (h : Composes names ss ps names') {u : Token} (hu : .token u ∈ ss) :
    u.name ∈ names'.map Prod.fst := by
  induction h with
  | nil => cases hu
  | literal _ _ ih =>
    rcases List.mem_cons.1 hu with hu | hu
    · cases hu
    · exact ih hu
  | @group _ _ _ _ t i _ _ _ _ _ _ hss ih =>
    rcases List.mem_cons.1 hu with hu | hu
    · cases hu
      exact List.mem_map_of_mem (hss.suffix.subset (List.mem_cons_self ..))
    · exact ih hu
  | @again _ _ _ _ t i known hss ih =>
    rcases List.mem_cons.1 hu with hu | hu
    · cases hu
      exact List.mem_map_of_mem (hss.suffix.subset (mem_names_of_lookup known))
    · exact ih hu

/-- Tokens whose names are new are read as patterns of characters that hold what is given for
them. -/
def Fits (names : List (String × Nat)) (ss : List Segment) (τ : String → String) : Prop :=
  ∀ u name, first? name ss = some u → name ∉ names.map Prod.fst →
    ∀ p, alone? u.regex = some p → (τ name).toList ∈ p.language

theorem first?_token (name : String) (t : Token) :
    first? name (.token t :: ss) = if t.name = name then some t else first? name ss := by
  simp only [first?, List.filterMap_cons, token?, List.find?_cons]
  by_cases h : t.name = name <;> simp [h]

/-- The first token of a new name holds what is given for it. -/
theorem fits_token_new {t : Token} {i : Nat} (new : t.name ∉ names.map Prod.fst) :
    Fits names (.token t :: ss) τ ↔
      (∀ p, alone? t.regex = some p → (τ t.name).toList ∈ p.language) ∧
        Fits ((t.name, i) :: names) ss τ := by
  constructor
  · refine fun h => ⟨h t t.name (by rw [first?_token, if_pos rfl]) new,
      fun u name hfirst hnew => ?_⟩
    simp only [List.map_cons, List.mem_cons, not_or] at hnew
    exact h u name (by rw [first?_token, if_neg fun heq => hnew.1 heq.symm, hfirst]) hnew.2
  · rintro ⟨hfirst, hrest⟩ u name hu hnew
    rw [first?_token] at hu
    split at hu
    · next heq =>
      cases hu
      exact heq ▸ hfirst
    · next hne =>
      refine hrest u name hu ?_
      simp only [List.map_cons, List.mem_cons, not_or]
      exact ⟨fun h => hne h.symm, hnew⟩

theorem fits_token_known {t : Token} (known : t.name ∈ names.map Prod.fst) :
    Fits names (.token t :: ss) τ ↔ Fits names ss τ := by
  have hfirst : ∀ name, name ∉ names.map Prod.fst →
      first? name (.token t :: ss) = first? name ss := by
    intro name hnew
    rw [first?_token, if_neg]
    rintro rfl
    exact hnew known
  exact ⟨fun h u name hu hnew => h u name ((hfirst name hnew).trans hu) hnew,
    fun h u name hu hnew => h u name ((hfirst name hnew).symm.trans hu) hnew⟩

theorem token_mem_of_first? {name : String} {u : Token} (h : first? name ss = some u) :
    .token u ∈ ss ∧ u.name = name := by
  refine ⟨?_, by simpa using List.find?_some h⟩
  obtain ⟨s, hs, hu⟩ := List.mem_filterMap.1 (List.mem_of_find?_eq_some h)
  cases s with
  | token t =>
    cases hu
    exact hs
  | literal => cases hu
  | template => cases hu

/-- Every way of the patterns leads over a text that the segments are spelled as. -/
theorem Composes.exists_spelling (h : Composes names ss ps names')
    (hregular : ∀ t p, .token t ∈ ss → alone? t.regex = some p → p.isRegular = true)
    (hs : Holds text s names τ) (he : e ∈ waysAll strict text ps s) :
    ∃ σ, (∀ m ∈ names, σ m.1 = τ m.1) ∧ Holds text e names' σ ∧
      Spans text s.pos e.pos (ss.flatMap (spell σ)) ∧ Fits names ss σ := by
  induction h generalizing s τ with
  | nil names =>
    obtain rfl := List.mem_singleton.1 he
    exact ⟨τ, fun _ _ => rfl, hs, .nil text _, fun u name h => by cases h⟩
  | @literal names names' ss ps w _ ih =>
    have hregular := fun t p ht => hregular t p (List.mem_cons_of_mem _ ht)
    rw [waysAll_append] at he
    obtain ⟨x, hx, he⟩ := List.mem_flatMap.1 he
    obtain ⟨rfl, hspans⟩ := mem_waysAll_chars.1 hx
    have hadvance : Holds text (s.advance w.toList.length) names τ := hs
    obtain ⟨σ, hσ, hholds, hrest, hfits⟩ := ih hregular hadvance he
    refine ⟨σ, hσ, hholds, ?_, hfits⟩
    rw [List.flatMap_cons]
    exact hspans.append hrest
  | @group names names' ss ps t i p q new below read renumbered hss ih =>
    have hp := hregular t p (List.mem_cons_self ..) read
    have hregular := fun t p ht => hregular t p (List.mem_cons_of_mem _ ht)
    obtain ⟨x, hx, he⟩ := List.mem_flatMap.1 he
    obtain ⟨-, w, hw, hspans⟩ := ways_group_spans renumbered hp hx
    obtain ⟨σ, hname, hσ⟩ := exists_given new τ (.ofList w)
    have hholds := (hs.congr hσ).group below renumbered hx (by rwa [hname, String.toList_ofList])
    obtain ⟨σ', hσ', hholds', hrest, hfits⟩ := ih hregular hholds he
    have hword : (σ' t.name).toList = w := by
      rw [hσ' (t.name, i) (List.mem_cons_self ..), hname, String.toList_ofList]
    refine ⟨σ', fun m hm => (hσ' m (List.mem_cons_of_mem _ hm)).trans (hσ m hm), hholds', ?_, ?_⟩
    · rw [List.flatMap_cons, spell, hword]
      exact hspans.append hrest
    · refine (fits_token_new new).2 ⟨fun r hr => ?_, hfits⟩
      rw [read] at hr
      cases hr
      rwa [hword]
  | @again names names' ss ps t i known hss ih =>
    have hregular := fun t p ht => hregular t p (List.mem_cons_of_mem _ ht)
    have hmem := mem_names_of_lookup known
    obtain ⟨x, hx, he⟩ := List.mem_flatMap.1 he
    obtain ⟨a, b, hgroup, hspans⟩ := hs (t.name, i) hmem
    simp only [ways, hgroup, Option.bind_some, Option.mem_toList] at hx
    obtain ⟨rfl, hword⟩ := past?_eq_some hspans hx
    have hadvance : Holds text (s.advance (τ t.name).toList.length) names τ := hs
    obtain ⟨σ, hσ, hholds, hrest, hfits⟩ := ih hregular hadvance he
    refine ⟨σ, hσ, hholds, ?_, (fits_token_known (List.mem_map_of_mem hmem)).2 hfits⟩
    rw [List.flatMap_cons, spell, hσ _ hmem]
    exact hword.append hrest

/-- Over each text that the segments can be spelled as, there is a way of the patterns. -/
theorem Composes.exists_way (h : Composes names ss ps names')
    (hregular : ∀ t p, .token t ∈ ss → alone? t.regex = some p → p.isRegular = true)
    (hs : Holds text s names τ) (hpos : s.pos ≤ text.size) (hfits : Fits names ss τ) {stop : Nat}
    (hspans : Spans text s.pos stop (ss.flatMap (spell τ))) :
    ∃ e ∈ waysAll strict text ps s, e.pos = stop := by
  induction h generalizing s with
  | nil names => exact ⟨s, List.mem_singleton.2 rfl, by simpa using hspans.stop_eq.symm⟩
  | @literal names names' ss ps w _ ih =>
    have hregular := fun t p ht => hregular t p (List.mem_cons_of_mem _ ht)
    rw [List.flatMap_cons] at hspans
    obtain ⟨hw, hrest⟩ := hspans.of_append
    have hadvance : Holds text (s.advance w.toList.length) names τ := hs
    obtain ⟨e, he, hstop⟩ := ih hregular hadvance (hw.le_size hpos) hfits hrest
    rw [waysAll_append]
    exact ⟨e, List.mem_flatMap.2 ⟨_, mem_waysAll_chars.2 ⟨rfl, hw⟩, he⟩, hstop⟩
  | @group names names' ss ps t i p q new below read renumbered hss ih =>
    have hp := hregular t p (List.mem_cons_self ..) read
    have hregular := fun t p ht => hregular t p (List.mem_cons_of_mem _ ht)
    rw [List.flatMap_cons] at hspans
    obtain ⟨hw, hrest⟩ := hspans.of_append
    obtain ⟨hmem, hfits'⟩ := (fits_token_new (i := i) new).1 hfits
    have hmem := hmem p read
    rw [← renumbered.language_eq] at hmem
    obtain ⟨x, hx, hxpos⟩ := covers_ways strict text (renumbered.isRegular_eq.trans hp) _ hmem
      (s.mark (2 * i)) _ hw
    have hway : x.mark (2 * i + 1) ∈ ways strict text (.group i q) s := List.mem_map.2 ⟨x, hx, rfl⟩
    have hpos' : x.pos = s.pos + (spell τ (.token t)).length := hxpos
    have hholds :=
      hs.group below renumbered hway (hpos' ▸ hw : Spans text s.pos x.pos (spell τ (.token t)))
    obtain ⟨e, he, hstop⟩ := ih hregular hholds (hpos' ▸ hw.le_size hpos) hfits' (hpos' ▸ hrest)
    exact ⟨e, List.mem_flatMap.2 ⟨_, hway, he⟩, hstop⟩
  | @again names names' ss ps t i known hss ih =>
    have hregular := fun t p ht => hregular t p (List.mem_cons_of_mem _ ht)
    obtain ⟨a, b, hgroup, hword⟩ := hs (t.name, i) (mem_names_of_lookup known)
    rw [List.flatMap_cons] at hspans
    obtain ⟨hw, hrest⟩ := hspans.of_append
    have hx : s.advance (τ t.name).toList.length ∈ ways strict text (.again i) s := by
      simp only [ways, hgroup, Option.bind_some, Option.mem_toList]
      exact past?_of_spans hword hpos hw
    have hadvance : Holds text (s.advance (τ t.name).toList.length) names τ := hs
    have hfits' := (fits_token_known (List.mem_map_of_mem (mem_names_of_lookup known))).1 hfits
    obtain ⟨e, he, hstop⟩ := ih hregular hadvance (hw.le_size hpos) hfits' hrest
    exact ⟨e, List.mem_flatMap.2 ⟨_, hx, he⟩, hstop⟩

end Segment

end Stencil
