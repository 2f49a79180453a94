import Stencil.Proofs.Template.Agreeing
import Stencil.Proofs.Text.Numerals

/-!
# Repeated tokens in a diagnosis

Where a name occurs again, a parse asks for the same text and a diagnosis for the same value. If no
two places of a name show one value in two texts (`Varies`), all places of a name have one text in
the preferred cut (`exists_texts`), the parse can go along with it (`Composes.follows_cut`), and it
finds no way before it, for where there is a way there is a cut (`Composes.exists_cut`). So the
fields of a diagnosis are those of the parse, or a value is shown in two texts
(`parse_of_diagnose_repeated`); tokens that tell their texts apart by their values never do so
(`not_varies`).
-/

namespace Stencil

open Pattern Pattern.Composite Segment

theorem exists_findSome?_eq {α β γ : Type} {f : α → Option β}
    {g : α → Option γ} {l : List α} {b : β} (hnone : ∀ x ∈ l, f x = none → g x = none)
    (h : l.findSome? f = some b) :
    ∃ x ∈ l, f x = some b ∧ ∀ c, g x = some c → l.findSome? g = some c := by
  induction l with
  | nil => cases h
  | cons x l ih =>
    rw [List.findSome?_cons] at h
    cases hx : f x with
    | some d =>
      rw [hx] at h
      cases h
      exact ⟨x, List.mem_cons_self .., hx, fun c hc => by rw [List.findSome?_cons, hc]⟩
    | none =>
      rw [hx] at h
      obtain ⟨y, hy, hfy, hgy⟩ := ih (fun y hy => hnone y (List.mem_cons_of_mem _ hy)) h
      refine ⟨y, List.mem_cons_of_mem _ hy, hfy, fun c hc => ?_⟩
      rw [List.findSome?_cons, hnone x (List.mem_cons_self ..) hx]
      exact hgy c hc

theorem exists_mem_zip {α β : Type} {l : List α} {m : List β} (hlen : l.length = m.length) {x : α}
    (hx : x ∈ l) : ∃ y, (x, y) ∈ l.zip m := by
  rw [← List.map_fst_zip hlen.le] at hx
  obtain ⟨⟨_, y⟩, hmem, rfl⟩ := List.mem_map.1 hx
  exact ⟨y, hmem⟩

/-! ## Tokens that stand again -/

/-- The second token is the first one again, which is made of characters. -/
structure Token.Repeats (u v : Token) : Prop where
  same : u.same v = true
  composable : u.Composable

/-- Of the texts that the tokens match no two stand for one value. -/
def Token.Distinguishes (u v : Token) : Prop :=
  ∀ ⦃w w' : String⦄ ⦃x : Value⦄, u.matches? w = true → u.matches? w' = true →
    u.readValue w = .ok x → v.readValue w' = .ok x → w = w'

/-- Where a name occurs again, it is that of the same token. -/
def Segment.Repeatable (ss : List Segment) : Prop :=
  ss.Pairwise fun a b => ∀ u v, a = .token u → b = .token v → u.name = v.name → u.Repeats v

/-- The text of a part. -/
def Segment.textAt (text : Array Char) (part : Nat × Nat) : String :=
  .ofList (text.extract part.1 part.2).toList

/-- In a cut, two places of one name show one value in two texts. -/
def Segment.Varies (text : Array Char) (ss : List Segment) (cut : List (Nat × Nat)) : Prop :=
  ∃ u v part part' x, (Segment.token u, part) ∈ ss.zip cut ∧ (Segment.token v, part') ∈ ss.zip cut ∧
    u.name = v.name ∧ u.readValue (textAt text part) = .ok x ∧
      v.readValue (textAt text part') = .ok x ∧
    textAt text part ≠ textAt text part'

namespace Token

variable {strict : Bool} {u v : Token} {p : Pattern} {text : Array Char} {a b : Nat}

theorem Repeats.regex_eq (h : u.Repeats v) : u.regex = v.regex := by
  have hsame := h.same
  simp only [Token.same, Bool.and_eq_true, beq_iff_eq] at hsame
  exact hsame.1.1.1.2

/-- A token whose values are its texts. -/
theorem distinguishes_of_text (hread : ∀ w, u.readValue w = .ok (.text w)) : u.Distinguishes u := by
  intro w w' x _ _ hw hw'
  rw [hread] at hw hw'
  exact Value.text.inj (Except.ok.inj (hw.trans hw'.symm))

/-- A token of integers that are all written with the same number of digits. -/
theorem distinguishes_of_width (hkind : u.kind = .int) {n : Nat}
    (hwidth : ∀ w, u.matches? w = true → w.toList.length = n ∧ ∀ c ∈ w.toList, c.isDigit = true) :
    u.Distinguishes u := by
  intro w w' x hw hw' hx hx'
  have hread : ∀ w x, u.matches? w = true → u.readValue w = .ok x →
      ∃ k, x = .int k ∧ (Decimal.value w.toList : Int) = k.toInt := by
    intro w x hw hx
    rw [readValue, hkind] at hx
    simp only [Kind.int, Kind.readInt] at hx
    cases hk : Decimal.readInt64? w.toList with
    | none => simp [hk] at hx
    | some k =>
      simp only [hk, Except.ok.injEq] at hx
      exact ⟨k, hx.symm, ((Decimal.readInt64?_eq_some_iff (hwidth w hw).2).1 hk).2⟩
  obtain ⟨k, rfl, hk⟩ := hread w x hw hx
  obtain ⟨k', hkk, hk'⟩ := hread w' _ hw' hx'
  cases hkk
  obtain ⟨hlen, hdigits⟩ := hwidth w hw
  obtain ⟨hlen', hdigits'⟩ := hwidth w' hw'
  exact String.toList_inj.1 (Decimal.value_inj (hlen.trans hlen'.symm) hdigits hdigits' (by omega))

/-- A token made of characters ends behind the words of its language. -/
theorem ReadAlike.mem_ends_iff (h : u.ReadAlike strict) (hp : Composite.alone? u.regex = some p)
    (hregular : p.isRegular = true) (ha : a ≤ text.size) :
    b ∈ (Segment.token u).ends text a ↔ ∃ w ∈ p.language, Spans text a b w := by
  rw [h.ends_eq hp ha, List.mem_map]
  constructor
  · rintro ⟨e, he, rfl⟩
    exact within_ways strict text hregular _ e he
  · rintro ⟨w, hw, hspans⟩
    exact covers_ways strict text hregular w hw ⟨a, []⟩ b hspans

end Token

namespace Segment

variable {strict : Bool} {text : Array Char} {s e x : Spot} {a b : Nat} {τ σ : String → String}
  {fields : Fields} {names names' : List (String × Nat)} {ss : List Segment} {ps : List Pattern}
  {cut : List (Nat × Nat)}

theorem ends_leadsOn {y : Segment} (ha : a ≤ text.size) (hb : b ∈ y.ends text a) :
    a ≤ b ∧ b ≤ text.size := by
  unfold ends at hb
  split at hb
  · next p _ =>
    obtain ⟨e, he, rfl⟩ := List.mem_map.1 hb
    exact leadsOn_ways false text p (s := ⟨a, []⟩) ha e he
  · cases hb

/-! ## Ways that keep to the texts of names -/

/-- The groups of the names hold their texts, and a token of such a name can end wherever that text
stands. -/
structure HoldsTexts (text : Array Char) (s : Spot) (names : List (String × Nat))
    (ss : List Segment) (τ : String → String) : Prop where
  holds : Holds text s names τ
  takes : ∀ u, .token u ∈ ss → u.name ∈ names.map Prod.fst → ∀ a b, a ≤ text.size →
    Spans text a b (τ u.name).toList → b ∈ (Segment.token u).ends text a

theorem HoldsTexts.tail {y : Segment} (h : HoldsTexts text s names (y :: ss) τ) {n : Nat} :
    HoldsTexts text (s.advance n) names ss τ :=
  ⟨h.holds, fun u hu => h.takes u (List.mem_cons_of_mem _ hu)⟩

/-- The group of a new token holds what it has led over. -/
theorem HoldsTexts.group {t : Token} {i : Nat} {p q : Pattern}
    (h : HoldsTexts text s names (.token t :: ss) σ)
    (halike : ∀ u, .token u ∈ Segment.token t :: ss → u.ReadAlike strict)
    (hrepeat : Repeatable (.token t :: ss)) (below : ∀ m ∈ names, m.2 < i)
    (read : Composite.alone? t.regex = some p) (renumbered : p.Renumbered (i < ·) q)
    (hs : s.pos ≤ text.size) (hx : x ∈ ways strict text (.group i q) s)
    (hτ : ∀ m ∈ names, τ m.1 = σ m.1) (ht : (τ t.name).toList = (text.extract s.pos x.pos).toList) :
    HoldsTexts text x ((t.name, i) :: names) ss τ := by
  obtain ⟨hle, hsize⟩ := leadsOn_ways strict text _ hs x hx
  have hspans : Spans text s.pos x.pos (τ t.name).toList := ht ▸ Spans.extract hle hsize
  refine ⟨(h.holds.congr hτ).group below renumbered hx hspans, fun u hu hname a b ha hab => ?_⟩
  by_cases heq : t.name = u.name
  · have hrepeats : t.Repeats u := (List.pairwise_cons.1 hrepeat).1 _ hu t u rfl rfl heq
    obtain ⟨-, p', hp', hregular, -⟩ := hrepeats.composable
    rw [read] at hp'
    cases hp'
    have hend : x.pos ∈ (Segment.token t).ends text s.pos := by
      rw [(halike t (List.mem_cons_self ..)).ends_eq_group read renumbered hs]
      exact List.mem_map_of_mem hx
    obtain ⟨w, hw, hword⟩ :=
      ((halike t (List.mem_cons_self ..)).mem_ends_iff read hregular hs).1 hend
    rw [← heq, ← hword.unique hspans] at hab
    have hread : Composite.alone? u.regex = some p := hrepeats.regex_eq ▸ read
    exact ((halike u (List.mem_cons_of_mem _ hu)).mem_ends_iff hread hregular ha).2 ⟨w, hw, hab⟩
  · rcases List.mem_cons.1 hname with hname | hname
    · exact absurd hname.symm heq
    · obtain ⟨m, hm, hmu⟩ := List.mem_map.1 hname
      rw [← hmu, hτ m hm, hmu] at hab
      exact h.takes u (List.mem_cons_of_mem _ hu) hname a b ha hab

/-- A new name can be given what the group of its token has led over. -/
theorem HoldsTexts.exists_group {t : Token} {i : Nat} {p q : Pattern}
    (h : HoldsTexts text s names (.token t :: ss) σ) (new : t.name ∉ names.map Prod.fst)
    (halike : ∀ u, .token u ∈ Segment.token t :: ss → u.ReadAlike strict)
    (hrepeat : Repeatable (.token t :: ss)) (below : ∀ m ∈ names, m.2 < i)
    (read : Composite.alone? t.regex = some p) (renumbered : p.Renumbered (i < ·) q)
    (hs : s.pos ≤ text.size) (hx : x ∈ ways strict text (.group i q) s) :
    ∃ τ, HoldsTexts text x ((t.name, i) :: names) ss τ := by
  obtain ⟨τ, hname, hτ⟩ := exists_given new σ (.ofList (text.extract s.pos x.pos).toList)
  exact ⟨τ, h.group halike hrepeat below read renumbered hs hx hτ
    (by rw [hname, String.toList_ofList])⟩

/-- Where there is a way, there is a cut. -/
theorem Composes.exists_cut (h : Composes names ss ps names')
    (halike : ∀ u, .token u ∈ ss → u.ReadAlike strict) (hrepeat : Repeatable ss)
    (hs : s.pos ≤ text.size) (hheld : HoldsTexts text s names ss σ)
    (he : e ∈ waysAll strict text ps s) : ∃ cut, cut ∈ cuts text ss s.pos := by
  have hcons : ∀ {y : Segment} {ss : List Segment} {a b : Nat}, b ∈ y.ends text a →
      (∃ cut, cut ∈ cuts text ss b) → ∃ cut, cut ∈ cuts text (y :: ss) a := by
    rintro y ss a b hb ⟨cut, hcut⟩
    exact ⟨(a, b) :: cut, List.mem_flatMap.2 ⟨b, hb, List.mem_map_of_mem hcut⟩⟩
  induction h generalizing s σ with
  | nil => exact ⟨[], List.mem_singleton.2 rfl⟩
  | @literal names names' ss ps w _ ih =>
    rw [waysAll_append] at he
    obtain ⟨x, hx, he⟩ := List.mem_flatMap.1 he
    obtain ⟨rfl, hspans⟩ := mem_waysAll_chars.1 hx
    have hend : s.pos + w.toList.length ∈ (Segment.literal w).ends text s.pos := by
      rw [ends_literal, if_pos hspans.isPrefix]
      exact List.mem_singleton.2 rfl
    exact hcons hend (ih (fun u hu => halike u (List.mem_cons_of_mem _ hu))
      (List.pairwise_cons.1 hrepeat).2 (hspans.le_size hs) hheld.tail he)
  | @group names names' ss ps t i p q new below read renumbered hss ih =>
    obtain ⟨x, hx, he⟩ := List.mem_flatMap.1 he
    have hend : x.pos ∈ (Segment.token t).ends text s.pos := by
      rw [(halike t (List.mem_cons_self ..)).ends_eq_group read renumbered hs]
      exact List.mem_map_of_mem hx
    obtain ⟨τ, hheld'⟩ := hheld.exists_group new halike hrepeat below read renumbered hs hx
    exact hcons hend (ih (fun u hu => halike u (List.mem_cons_of_mem _ hu))
      (List.pairwise_cons.1 hrepeat).2 (leadsOn_ways strict text _ hs x hx).2 hheld' he)
  | @again names names' ss ps t i known hss ih =>
    have hmem := mem_names_of_lookup known
    obtain ⟨x, hx, he⟩ := List.mem_flatMap.1 he
    obtain ⟨a, b, hgroup, hspans⟩ := hheld.holds (t.name, i) hmem
    simp only [ways, hgroup, Option.bind_some, Option.mem_toList] at hx
    obtain ⟨rfl, hword⟩ := past?_eq_some hspans hx
    have hend := hheld.takes t (List.mem_cons_self ..) (List.mem_map_of_mem hmem) s.pos _ hs hword
    exact hcons hend (ih (fun u hu => halike u (List.mem_cons_of_mem _ hu))
      (List.pairwise_cons.1 hrepeat).2 (hword.le_size hs) hheld.tail he)

theorem Composes.waysAll_eq_nil (h : Composes names ss ps names')
    (halike : ∀ u, .token u ∈ ss → u.ReadAlike strict) (hrepeat : Repeatable ss)
    (hs : s.pos ≤ text.size) (hheld : HoldsTexts text s names ss σ)
    (hcuts : cuts text ss s.pos = []) : waysAll strict text ps s = [] := by
  refine List.eq_nil_iff_forall_not_mem.2 fun e he => ?_
  obtain ⟨cut, hcut⟩ := h.exists_cut halike hrepeat hs hheld he
  rw [hcuts] at hcut
  cases hcut

/-! ## Cuts that keep to the texts of names -/

/-- The part of a text is the text of the token's name, if the segment is one. -/
def Shows (text : Array Char) (τ : String → String) (y : Segment) (part : Nat × Nat) : Prop :=
  ∀ u, y = .token u → (text.extract part.1 part.2).toList = (τ u.name).toList

/-- If the preferred cut gives each name one text, the preferred way goes along with it. -/
theorem Composes.follows_cut (h : Composes names ss ps names')
    (halike : ∀ u, .token u ∈ ss → u.ReadAlike strict) (hrepeat : Repeatable ss)
    (hs : s.pos ≤ text.size) (hheld : HoldsTexts text s names ss τ)
    (hcut : (cuts text ss s.pos).head? = some cut) (hshows : List.Forall₂ (Shows text τ) ss cut) :
    ∃ e, (waysAll strict text ps s).head? = some e ∧ e.pos = cutEnd s.pos cut ∧
      Holds text e names' τ ∧ Spans text s.pos e.pos (ss.flatMap (spell τ)) := by
  induction h generalizing s cut with
  | nil =>
    cases hcut
    exact ⟨s, rfl, rfl, hheld.holds, .nil text _⟩
  | @literal names names' ss ps w _ ih =>
    rw [cuts, ends_literal] at hcut
    split at hcut
    · next hstarts =>
      rw [List.flatMap_singleton, List.head?_map] at hcut
      obtain ⟨rest, hrest, rfl⟩ := Option.map_eq_some_iff.1 hcut
      have hword : Spans text s.pos (s.pos + w.toList.length) w.toList := ⟨hstarts, rfl⟩
      have hheld' : HoldsTexts text (s.advance w.toList.length) names ss τ := hheld.tail
      obtain ⟨e, he, hpos, hholds, hspans⟩ := ih (fun u hu => halike u (List.mem_cons_of_mem _ hu))
        (List.pairwise_cons.1 hrepeat).2 (hword.le_size hs) hheld' hrest
        (List.forall₂_cons.1 hshows).2
      refine ⟨e, ?_, hpos, hholds, ?_⟩
      · rw [waysAll_append, waysAll_chars, if_pos hstarts, List.flatMap_singleton, he]
      · rw [List.flatMap_cons]
        exact hword.append hspans
    · cases hcut
  | @group names names' ss ps t i p q new below read renumbered hss ih =>
    have hrest : ∀ u, .token u ∈ ss → u.ReadAlike strict := fun u hu =>
      halike u (List.mem_cons_of_mem _ hu)
    have hleads := leadsOn_ways strict text (.group i q) hs
    rw [cuts, (halike t (List.mem_cons_self ..)).ends_eq_group read renumbered hs, List.flatMap_map,
      List.head?_flatMap] at hcut
    -- Where there is no cut behind a way of the token, there is no way behind it.
    obtain ⟨x, hx, hfirst, hways⟩ :=
      exists_findSome?_eq (g := fun x => (waysAll strict text ps x).head?) (fun x hx hnone => by
        rw [List.head?_eq_none_iff, List.map_eq_nil_iff] at hnone
        obtain ⟨σ, hheld'⟩ := hheld.exists_group new halike hrepeat below read renumbered hs hx
        rw [hss.waysAll_eq_nil hrest (List.pairwise_cons.1 hrepeat).2 (hleads x hx).2 hheld' hnone]
        rfl) hcut
    rw [List.head?_map] at hfirst
    obtain ⟨rest, hbehind, rfl⟩ := Option.map_eq_some_iff.1 hfirst
    obtain ⟨hshown, hshownRest⟩ := List.forall₂_cons.1 hshows
    have ht := (hshown t rfl).symm
    obtain ⟨e, he, hpos, hholds, hspans⟩ :=
      ih hrest (List.pairwise_cons.1 hrepeat).2 (hleads x hx).2
        (hheld.group halike hrepeat below read renumbered hs hx (fun _ _ => rfl) ht)
          hbehind hshownRest
    refine ⟨e, ?_, hpos, hholds, ?_⟩
    · rw [waysAll, List.head?_flatMap]
      exact hways e he
    · rw [List.flatMap_cons, spell, ht]
      exact (Spans.extract (hleads x hx).1 (hleads x hx).2).append hspans
  | @again names names' ss ps t i known hss ih =>
    rw [cuts, List.head?_flatMap] at hcut
    obtain ⟨b, hb, hfirst⟩ := List.exists_of_findSome?_eq_some hcut
    rw [List.head?_map] at hfirst
    obtain ⟨rest, hrest, rfl⟩ := Option.map_eq_some_iff.1 hfirst
    obtain ⟨hle, hsize⟩ := ends_leadsOn hs hb
    obtain ⟨hshown, hshownRest⟩ := List.forall₂_cons.1 hshows
    have hword : Spans text s.pos b (τ t.name).toList := hshown t rfl ▸ Spans.extract hle hsize
    obtain ⟨a, c, hgroup, hheldWord⟩ := hheld.holds (t.name, i) (mem_names_of_lookup known)
    have hway : ways strict text (.again i) s = [s.advance (τ t.name).toList.length] := by
      simp only [ways, hgroup, Option.bind_some, past?_of_spans hheldWord hs hword]
      rfl
    have hheld' : HoldsTexts text (s.advance (τ t.name).toList.length) names ss τ := hheld.tail
    obtain rfl := hword.stop_eq
    obtain ⟨e, he, hpos, hholds, hspans⟩ := ih (fun u hu => halike u (List.mem_cons_of_mem _ hu))
      (List.pairwise_cons.1 hrepeat).2 hsize hheld' hrest hshownRest
    refine ⟨e, ?_, hpos, hholds, ?_⟩
    · rw [waysAll, hway, List.flatMap_singleton, he]
    · rw [List.flatMap_cons, spell]
      exact hword.append hspans

theorem forall₂_of_mem_cuts (ha : a ≤ text.size) (h : cut ∈ cuts text ss a) :
    List.Forall₂ (fun y part => part.1 ≤ text.size ∧ part.2 ∈ y.ends text part.1) ss cut := by
  induction ss generalizing a cut with
  | nil =>
    obtain rfl := List.mem_singleton.1 h
    exact .nil
  | cons y ss ih =>
    obtain ⟨b, hb, h⟩ := List.mem_flatMap.1 h
    obtain ⟨cut, hcut, rfl⟩ := List.mem_map.1 h
    exact .cons ⟨ha, hb⟩ (ih (ends_leadsOn ha hb).2 hcut)

/-- In a cut whose parts stand for the values of fields, each name has one text, unless two places
of one name show their value in two texts. -/
theorem exists_texts (hreads : List.Forall₂ (Reads text fields) ss cut)
    (hvaries : ¬ Varies text ss cut) : ∃ τ, List.Forall₂ (Shows text τ) ss cut := by
  obtain ⟨hlen, hall⟩ := List.forall₂_iff_zip.1 hreads
  have hone : ∀ n, ∃ w, ∀ u part, (Segment.token u, part) ∈ ss.zip cut → u.name = n →
      textAt text part = w := by
    intro n
    by_cases hplace : ∃ u part, (Segment.token u, part) ∈ ss.zip cut ∧ u.name = n
    · obtain ⟨u, part, hmem, rfl⟩ := hplace
      refine ⟨textAt text part, fun v part' hmem' hname => ?_⟩
      obtain ⟨x, hx, hget⟩ := hall hmem u rfl
      obtain ⟨x', hx', hget'⟩ := hall hmem' v rfl
      obtain rfl : x' = x := by
        rw [hname, hget] at hget'
        exact (Option.some.inj hget').symm
      by_contra hne
      exact hvaries ⟨v, u, part', part, x', hmem', hmem, hname, hx', hx, hne⟩
    · exact ⟨"", fun u part hmem hname => absurd ⟨u, part, hmem, hname⟩ hplace⟩
  choose τ hτ using hone
  refine ⟨τ, List.forall₂_iff_zip.2 ⟨hlen, fun hmem u hu => ?_⟩⟩
  subst hu
  rw [← hτ u.name u _ hmem rfl, textAt, String.toList_ofList]

/-- Two places that show one value show one text, if the tokens tell their texts apart by their
values. -/
theorem textAt_eq_of_distinguishes {u v : Token} {part part' : Nat × Nat}
    {value : Value} (hrepeats : u.Repeats v) (hdist : u.Distinguishes v) (hu : u.ReadAlike strict)
    (hv : v.ReadAlike strict)
    (hpart : part.1 ≤ text.size ∧ part.2 ∈ (Segment.token u).ends text part.1)
    (hpart' : part'.1 ≤ text.size ∧ part'.2 ∈ (Segment.token v).ends text part'.1)
    (hread : u.readValue (textAt text part) = .ok value)
    (hread' : v.readValue (textAt text part') = .ok value) :
    textAt text part = textAt text part' := by
  obtain ⟨-, p, hp, hregular, hmatches⟩ := hrepeats.composable
  obtain ⟨w, hw, hspans⟩ := (hu.mem_ends_iff hp hregular hpart.1).1 hpart.2
  obtain ⟨w', hw', hspans'⟩ :=
    (hv.mem_ends_iff (hrepeats.regex_eq ▸ hp) hregular hpart'.1).1 hpart'.2
  refine hdist ((hmatches _).2 ?_) ((hmatches _).2 ?_) hread hread'
  · rwa [textAt, String.toList_ofList, hspans.extract_eq]
  · rwa [textAt, String.toList_ofList, hspans'.extract_eq]

/-- No cut shows a value in two texts, if tokens of one name tell their texts apart by their
values. -/
theorem not_varies (halike : ∀ u, .token u ∈ ss → u.ReadAlike strict) (hrepeat : Repeatable ss)
    (hdist : ss.Pairwise fun a b => ∀ u v, a = .token u → b = .token v →
      u.name = v.name → u.Distinguishes v)
    (ha : a ≤ text.size) (hcut : cut ∈ cuts text ss a) : ¬ Varies text ss cut := by
  have hparts := forall₂_of_mem_cuts ha hcut
  clear hcut
  induction hparts with
  | nil =>
    rintro ⟨u, v, part, part', x, hu, -⟩
    cases hu
  | @cons y first ss cut hfirst hparts ih =>
    obtain ⟨hrepeatFirst, hrepeatRest⟩ := List.pairwise_cons.1 hrepeat
    obtain ⟨hdistFirst, hdistRest⟩ := List.pairwise_cons.1 hdist
    -- Each later place of the first segment's name shows the text of the first segment.
    have hlater : ∀ u v part x, y = .token u → (Segment.token v, part) ∈ ss.zip cut →
        u.name = v.name → u.readValue (textAt text first) = .ok x →
        v.readValue (textAt text part) = .ok x → textAt text first = textAt text part := by
      rintro u v part x rfl hmem hname hx hx'
      have hv := (List.of_mem_zip hmem).1
      exact textAt_eq_of_distinguishes (hrepeatFirst _ hv u v rfl rfl hname)
        (hdistFirst _ hv u v rfl rfl hname) (halike u (List.mem_cons_self ..))
        (halike v (List.mem_cons_of_mem _ hv)) hfirst ((List.forall₂_iff_zip.1 hparts).2 hmem) hx
        hx'
    rintro ⟨u, v, part, part', x, hu, hv, hname, hx, hx', hne⟩
    rw [List.zip_cons_cons, List.mem_cons, Prod.mk.injEq] at hu hv
    rcases hu with ⟨hu, rfl⟩ | hu
    · rcases hv with ⟨-, rfl⟩ | hv
      · exact hne rfl
      · exact hne (hlater u v part' x hu.symm hv hname hx hx')
    · rcases hv with ⟨hv, rfl⟩ | hv
      · exact hne (hlater v u part x hv.symm hu hname.symm hx' hx).symm
      · exact ih (fun w hw => halike w (List.mem_cons_of_mem _ hw)) hrepeatRest hdistRest
          ⟨u, v, part, part', x, hu, hv, hname, hx, hx', hne⟩

end Segment

/-! ## Parsing what is diagnosed -/

namespace Template

variable {t : Template} {s : String} {fields : Fields}

/-- The diagnosis of a text shows one value of a name in two texts. -/
def Varies (t : Template) (s : String) : Prop :=
  ∃ cut, (cuts (t.kind.prepare s.toList).toArray t.flat 0).head? = some cut ∧
    Segment.Varies (t.kind.prepare s.toList).toArray t.flat cut

/-- **The fields of a diagnosis are those of the parse, with one text for each name, or the
diagnosis shows one value of a name in two texts**, if each token means the same to both and a name
that occurs again is that of the same token. -/
theorem parse_of_diagnose_repeated {name : String} {kind : TemplateKind} {segments : List Segment}
    (h : create name kind segments = .ok t)
    (htokens : ∀ u, .token u ∈ t.flat → u.ReadAlike t.whole.pattern.needsBacktracking)
    (hrepeat : Repeatable t.flat) (hlimit : ∀ why, t.parse s ≠ .error (.givenUp ⟨t.name, why⟩))
    (hdiagnose : t.diagnose s = .ok fields) :
    (t.parse s = .ok fields ∧ ∃ τ, t.flat.flatMap (spell τ) = t.kind.prepare s.toList ∧
      ∀ u, .token u ∈ t.flat → ∃ v, u.readValue (τ u.name) = .ok v ∧ fields.get? u.name = some v) ∨
        t.Varies s := by
  obtain ⟨cut, hcut, hend, hreads⟩ := exists_cut_of_diagnose htokens hdiagnose
  obtain ⟨ps, hps, hpattern⟩ := exists_composes_of_readAlike h htokens
  by_cases hvaries : Segment.Varies (t.kind.prepare s.toList).toArray t.flat cut
  · exact .inr ⟨cut, hcut, hvaries⟩
  generalize hchars : t.kind.prepare s.toList = cs at hcut hend hreads hvaries
  -- The preferred cut has one text for each name, and the preferred way goes along with it.
  obtain ⟨τ, hτ⟩ := exists_texts hreads hvaries
  have hheld : HoldsTexts cs.toArray ⟨0, []⟩ [] t.flat τ :=
    ⟨fun m hm => (nomatch hm), fun u _ hname => (nomatch hname)⟩
  obtain ⟨e, he, hpos, hholds, hspans⟩ :=
    hps.follows_cut htokens hrepeat (Nat.zero_le _) hheld hcut hτ
  have hstop : e.pos = cs.toArray.size := hpos.trans hend
  obtain ⟨hlen, hread⟩ := List.forall₂_iff_zip.1 hreads
  obtain ⟨-, hshows⟩ := List.forall₂_iff_zip.1 hτ
  have hvalues : readTokens (t.whole.groupText? ⟨0, e⟩ cs.toArray) (t.tokens false) .empty =
      .ok fields := by
    refine readTokens_of_cut hreads (fun x => diagnose_name hdiagnose) fun j u x hu hx => ?_
    have hmem : (Segment.token u, x) ∈ t.flat.zip cut :=
      List.mem_of_getElem? (List.getElem?_zip_eq_some.2 ⟨hu, hx⟩)
    rw [groupText?_eq hholds (hps.mem_names (List.mem_of_getElem? hu)), hshows hmem u rfl,
      String.ofList_toList]
  refine .inl ⟨?_, τ, ?_, fun u hu => ?_⟩
  · rw [parse_eq_of_way hpattern (fun _ => hlimit) (congrArg List.toArray hchars) he hstop, hvalues]
    rfl
  · rw [hstop] at hspans
    exact Spans.whole_iff.1 hspans
  · obtain ⟨part, hmem⟩ := exists_mem_zip hlen hu
    obtain ⟨v, hv, hget⟩ := hread hmem u rfl
    rw [hshows hmem u rfl, String.ofList_toList] at hv
    exact ⟨v, hv, hget⟩

/-! ## Two templates

A number of two digits that stands twice, and numbers of any width, outside the reach of the
theorem: one that is written in two ways is the same to the diagnosis. -/

/-- A token of two digits. -/
def twoDigits : Token :=
  ⟨"n", .int, "[0-9]\x7b2,2\x7d",
    ⟨.concat [.check .textStart, .repeated (.one (.range '0' '9')) 2 (some 2) true,
      .check .textEnd], []⟩,
    .typed (some .int), "Must be a 2-digit integer", none⟩

/-- That number twice. -/
def twoDigitsTwice : Template :=
  ⟨"t", .standard, [.token twoDigits, .literal "_", .token twoDigits],
    ⟨.concat [.check .textStart, .group 1 (.repeated (.one (.range '0' '9')) 2 (some 2) true),
      .char '_', .again 1, .check .textEnd], [("n", 1)]⟩,
    ⟨.concat [.check .textStart, .group 1 (.repeated (.one (.range '0' '9')) 2 (some 2) true),
      .char '_', .again 1], [("n", 1)]⟩⟩

/-- A token of integers. -/
def number : Token :=
  ⟨"n", .int, "[0-9]+",
    ⟨.concat [.check .textStart, .repeated (.one (.range '0' '9')) 1 none true, .check .textEnd],
      []⟩,
    .typed (some .int), "Must be an integer", none⟩

/-- That number twice. -/
def numberTwice : Template :=
  ⟨"t", .standard, [.token number, .literal "_", .token number],
    ⟨.concat [.check .textStart, .group 1 (.repeated (.one (.range '0' '9')) 1 none true),
      .char '_', .again 1, .check .textEnd], [("n", 1)]⟩,
    ⟨.concat [.check .textStart, .group 1 (.repeated (.one (.range '0' '9')) 1 none true),
      .char '_', .again 1], [("n", 1)]⟩⟩

theorem ofOptions_twoDigits : Token.ofOptions "n" .int { TokenOptions.ofKind "int" with
    padmin := some 2, padmax := some 2, padstrict := some true } = .ok twoDigits := by
  generalize ho : { TokenOptions.ofKind "int" with
    padmin := some 2, padmax := some 2, padstrict := some true } = o
  have hregex : Kind.int.regex "n" o = .ok twoDigits.regex := by subst ho; decide +kernel
  have hdescription : Kind.int.description o = twoDigits.description := by subst ho; decide +kernel
  have hrule : Kind.int.renderRule o = .ok twoDigits.rule := by subst ho; rfl
  have hdefault : o.default = none := by subst ho; rfl
  simp only [Token.ofOptions, hregex, hrule, hdescription, hdefault]
  rfl

theorem alone?_twoDigits :
    Reader.alone? twoDigits.regex = some (.repeated (.one (.range '0' '9')) 2 (some 2) true) ∧
      Composite.alone? twoDigits.regex = some (.repeated (.one (.range '0' '9')) 2 (some 2) true) :=
  ⟨rfl, rfl⟩

theorem repeats_twoDigits : twoDigits.Repeats twoDigits :=
  ⟨by simp [Token.same],
    Token.composable_of_alone rfl rfl alone?_twoDigits.1 alone?_twoDigits.2 rfl⟩

theorem distinguishes_twoDigits : twoDigits.Distinguishes twoDigits := by
  refine Token.distinguishes_of_width (n := 2) rfl fun w hw => ?_
  obtain ⟨k, hk, hpow⟩ :=
    mem_language_repeated.1 ((twoDigits.matches?_iff rfl alone?_twoDigits.1 rfl w).1 hw)
  obtain ⟨hlen, hall⟩ := mem_language_one_pow.1 hpow
  have hk := hk 2 rfl
  refine ⟨by omega, fun c hc => ?_⟩
  have hc := hall c hc
  simp only [CharSet.mem, Bool.and_eq_true, decide_eq_true_eq] at hc
  simp only [Char.isDigit, Bool.and_eq_true, decide_eq_true_eq]
  exact hc

theorem eq_twoDigits {u : Token} (hu : .token u ∈ twoDigitsTwice.flat) : u = twoDigits := by
  have hflat : twoDigitsTwice.flat = [.token twoDigits, .literal "_", .token twoDigits] := rfl
  simpa [hflat] using hu

/-- What holds of the number and itself holds of its places. -/
theorem pairwise_twoDigits {P : Token → Token → Prop} (h : P twoDigits twoDigits) :
    twoDigitsTwice.flat.Pairwise fun a b => ∀ u v, a = .token u → b = .token v →
    u.name = v.name → P u v := by
  refine List.pairwise_of_forall_mem_list fun a ha b hb u v hu hv _ => ?_
  obtain rfl : u = twoDigits := eq_twoDigits (hu ▸ ha)
  obtain rfl : v = twoDigits := eq_twoDigits (hv ▸ hb)
  exact h

theorem diagnose_twoDigitsTwice :
    twoDigitsTwice.diagnose "07_07" = .ok (NameMap.empty.insert "n" (.int 7)) := by
  have hflat : twoDigitsTwice.flat = [.token twoDigits, .literal "_", .token twoDigits] := rfl
  have hgroups : ∃ e, Expression.read (groupsRegex twoDigitsTwice.flat) = .ok e := by
    have htext : groupsRegex twoDigitsTwice.flat =
        "^(?P<s0>[0-9]\x7b2,2\x7d)(?P<s1>_)(?P<s2>[0-9]\x7b2,2\x7d)" :=
      (groupsRegex_of_le (by decide)).trans rfl
    rw [htext]
    exact ⟨⟨.concat [.check .textStart,
      .group 1 (.repeated (.one (.range '0' '9')) 2 (some 2) true), .group 2 (.char '_'),
      .group 3 (.repeated (.one (.range '0' '9')) 2 (some 2) true)], [("s2", 3), ("s1", 2),
      ("s0", 1)]⟩, rfl⟩
  have hcut :
      (cuts (twoDigitsTwice.kind.prepare "07_07".toList).toArray twoDigitsTwice.flat 0).head? =
        some [(0, 2), (2, 3), (3, 5)] := by decide +kernel
  refine (diagnose_iff_cut (fun u hu => ?_) fun x hx => ?_).2
    ⟨by simp [hflat], hgroups, [(0, 2), (2, 3), (3, 5)], hcut, rfl, ?_⟩
  · rw [eq_twoDigits hu]
    rfl
  · rw [NameMap.get?_insert] at hx
    by_cases hn : "n" = x
    · exact ⟨twoDigits, by simp [hflat], hn⟩
    · rw [if_neg hn] at hx
      cases hx
  · rw [hflat]
    refine .cons (fun u hu => ?_) (.cons (fun u hu => by cases hu) (.cons (fun u hu => ?_) .nil))
    · cases hu
      exact ⟨.int 7, rfl, rfl⟩
    · cases hu
      exact ⟨.int 7, rfl, rfl⟩

theorem parse_of_diagnose_repeated_twoDigitsTwice :
    Token.ofOptions "n" .int { TokenOptions.ofKind "int" with
        padmin := some 2, padmax := some 2, padstrict := some true } = .ok twoDigits ∧
      create "t" .standard [.token twoDigits, .literal "_", .token twoDigits] = .ok twoDigitsTwice ∧
      twoDigitsTwice.diagnose "07_07" = .ok (NameMap.empty.insert "n" (.int 7)) ∧
      twoDigitsTwice.parse "07_07" = .ok (NameMap.empty.insert "n" (.int 7)) := by
  have hcreate : create "t" .standard [.token twoDigits, .literal "_", .token twoDigits] =
      .ok twoDigitsTwice := rfl
  have halike : ∀ u, .token u ∈ twoDigitsTwice.flat → u.ReadAlike true := fun u hu => by
    rw [eq_twoDigits hu]
    exact Token.readAlike_of_alone rfl alone?_twoDigits.1 alone?_twoDigits.2 fun _ => rfl
  have hrepeat : Repeatable twoDigitsTwice.flat := pairwise_twoDigits repeats_twoDigits
  have hvaries : ¬ twoDigitsTwice.Varies "07_07" := by
    rintro ⟨cut, hcut, hvaries⟩
    exact not_varies halike hrepeat (pairwise_twoDigits distinguishes_twoDigits) (Nat.zero_le _)
      (List.mem_of_mem_head? hcut) hvaries
  have hlimit : ∀ why, twoDigitsTwice.parse "07_07" ≠
      .error (.givenUp ⟨twoDigitsTwice.name, why⟩) := by
    intro why
    cases why <;> decide +kernel
  exact ⟨ofOptions_twoDigits, hcreate, diagnose_twoDigitsTwice,
    ((parse_of_diagnose_repeated hcreate halike hrepeat hlimit
      diagnose_twoDigitsTwice).resolve_right hvaries).1⟩

/-- The diagnosis takes two ways to write a number for the same, and the parse does not. -/
theorem diagnose_numberTwice :
    Token.ofOptions "n" .int (.ofKind "int") = .ok number ∧
      create "t" .standard [.token number, .literal "_", .token number] = .ok numberTwice ∧
      numberTwice.diagnose "1_01" = .ok (NameMap.empty.insert "n" (.int 1)) ∧
      numberTwice.parse "1_01" = .error (.mismatch numberTwice.display "1_01") := by
  have hflat : numberTwice.flat = [.token number, .literal "_", .token number] := rfl
  have hgroups : ∃ e, Expression.read (groupsRegex numberTwice.flat) = .ok e := by
    have htext : groupsRegex numberTwice.flat = "^(?P<s0>[0-9]+)(?P<s1>_)(?P<s2>[0-9]+)" :=
      (groupsRegex_of_le (by decide)).trans rfl
    rw [htext]
    exact ⟨⟨.concat [.check .textStart, .group 1 (.repeated (.one (.range '0' '9')) 1 none true),
      .group 2 (.char '_'), .group 3 (.repeated (.one (.range '0' '9')) 1 none true)],
      [("s2", 3), ("s1", 2), ("s0", 1)]⟩, rfl⟩
  have hcut : (cuts (numberTwice.kind.prepare "1_01".toList).toArray numberTwice.flat 0).head? =
      some [(0, 1), (1, 2), (2, 4)] := by decide +kernel
  refine ⟨rfl, rfl, ?_, by decide +kernel⟩
  refine (diagnose_iff_cut (fun u hu => ?_) fun x hx => ?_).2
    ⟨by simp [hflat], hgroups, [(0, 1), (1, 2), (2, 4)], hcut, rfl, ?_⟩
  · obtain rfl : u = number := by simpa [hflat] using hu
    rfl
  · rw [NameMap.get?_insert] at hx
    by_cases hn : "n" = x
    · exact ⟨number, by simp [hflat], hn⟩
    · rw [if_neg hn] at hx
      cases hx
  · rw [hflat]
    refine .cons (fun u hu => ?_) (.cons (fun u hu => by cases hu) (.cons (fun u hu => ?_) .nil))
    · cases hu
      exact ⟨.int 1, rfl, rfl⟩
    · cases hu
      exact ⟨.int 1, rfl, rfl⟩

end Template

end Stencil
