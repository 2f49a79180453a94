import Mathlib.Data.List.Pairwise
import Stencil.Proofs.Template.FormattedText
import Stencil.Proofs.Template.Repeating

/-!
# What is parsed is diagnosed

A parse asks for the end of the text and for the same text again where a name is repeated, and takes
back what it has tried until it comes there. A diagnosis asks for neither and keeps to its preferred
cut. So it gives the fields of a parse if this cut happens to cover the text with one text for each
name (`Template.Covers`): the parse goes along with it then (`diagnose_of_covers`). In a delimited
template whose tokens go as far as they can (`Token.Exhausts`) the preferred cut is always such a
one (`covers_of_delimited`), so all that is parsed is diagnosed with the same fields.
-/

namespace Stencil

open Pattern Pattern.Composite Segment

/-- A text that stands before a character outside a class is not shorter than one of the class at
the same place. -/
theorem Spans.length_le_of_stop {text : Array Char} {a b : Nat} {inside : Char → Bool}
    {w d : List Char} (hw : Spans text a b w) (hd : d <+: text.toList.drop a)
    (hinside : ∀ c ∈ d, inside c = true) (hstop : ∀ c, text[b]? = some c → inside c = false) :
    d.length ≤ w.length := by
  by_contra hlong
  have hspans : Spans text a (a + d.length) (d.take w.length ++ d.drop w.length) := by
    rw [List.take_append_drop]
    exact ⟨hd, rfl⟩
  obtain ⟨c, rest, hrest⟩ := List.exists_cons_of_ne_nil (l := d.drop w.length) (by
    rw [Ne, List.drop_eq_nil_iff]
    omega)
  have hnext := hspans.of_append.2
  rw [hrest, List.length_take, Nat.min_eq_left (by omega), ← hw.stop_eq, Spans.cons_iff] at hnext
  have hc : inside c = true := hinside c (List.mem_of_mem_drop (hrest ▸ List.mem_cons_self ..))
  rw [hstop c hnext.1] at hc
  cases hc

/-! ## Tokens that go as far as they can -/

/-- Where a text of the token stands and no character of the class follows, the token's preferred
end is behind it. -/
def Token.Exhausts (inside : Char → Bool) (u : Token) : Prop :=
  ∀ (text : Array Char) (a b : Nat) (w : String), a ≤ text.size → u.matches? w = true →
    Spans text a b w.toList → (∀ c, text[b]? = some c → inside c = false) →
      ((Segment.token u).ends text a).head? = some b

namespace Token

variable {u v : Token} {inside : Char → Bool} {text : Array Char} {a b : Nat}

/-- Padded tokens go as far as letters and digits go. -/
theorem IsPadded.exhausts (h : u.IsPadded) : u.Exhausts Char.isAlphanum := by
  intro text a b w ha hw hspans hstop
  obtain ⟨sh, htext⟩ := h.exists_shape
  obtain ⟨hplain, -⟩ := alone?_shape htext (ordered_of_read htext h.valid)
  have hword := (u.matches?_iff h.valid hplain sh.isRegular_pattern w).1 hw
  have hreaches := Shape.reaches (s := ⟨a, []⟩) hword hspans ha hstop
  have hway := hreaches.head?_ways
  rw [ways_eq_of_loopsConsume sh.loopsConsume_pattern ha] at hway
  simp only [ends, Segment.alone?, hplain, List.head?_map, hway, Option.map_some, hspans.stop_eq]
  rfl

/-- A token of choices tries them as literals, in their order. -/
theorem ends_choices {cs : List Value} (hne : cs ≠ []) (hregex : u.regex = Kind.choicesRegex cs) :
    (Segment.token u).ends text a = cs.flatMap fun c =>
      (Segment.literal c.display).ends text a := by
  simp only [ends, Segment.alone?, hregex, (alone?_choices hne).1]
  rw [ways_choice (by simpa using hne), List.flatMap_map, List.map_flatMap]

/-- A token of choices goes as far as their characters go, if no choice is the beginning of a later
one. -/
theorem exhausts_choices {cs : List Value} (hu : u.Valid) (hne : cs ≠ [])
    (hregex : u.regex = Kind.choicesRegex cs)
    (hinside : ∀ c ∈ cs, ∀ d ∈ c.display.toList, inside d = true)
    (hordered : cs.Pairwise fun c d => c.display.toList <+: d.display.toList →
      c.display = d.display) :
    u.Exhausts inside := by
  intro text a b w ha hw hspans hstop
  rw [u.matches?_iff hu (hregex ▸ (alone?_choices hne).1) (isRegular_choice fun p hp => by
    obtain ⟨c, -, rfl⟩ := List.mem_map.1 hp
    exact isRegular_ofChars _), mem_language_choice (by simpa using hne)] at hw
  obtain ⟨p, hp, hw⟩ := hw
  obtain ⟨c, hc, rfl⟩ := List.mem_map.1 hp
  rw [mem_language_ofChars] at hw
  rw [ends_choices hne hregex, List.head?_flatMap]
  clear hne hregex hp
  induction cs with
  | nil => cases hc
  | cons d cs ih =>
    obtain ⟨hfirst, hrest⟩ := List.pairwise_cons.1 hordered
    rw [List.findSome?_cons]
    by_cases hd : d.display.toList <+: text.toList.drop a
    · -- The first choice that stands in the text is not longer than the word, and so, by the
      -- order, it is the word.
      have hlen : d.display.toList.length = w.toList.length := by
        have hle := hspans.length_le_of_stop hd (hinside d (List.mem_cons_self ..)) hstop
        rcases List.mem_cons.1 hc with rfl | hc
        · rw [hw]
        · rw [hw, hfirst c hc (hw ▸ List.prefix_of_prefix_length_le hd hspans.isPrefix hle)]
      rw [ends_literal, if_pos hd, List.head?_cons, hlen, ← hspans.stop_eq]
    · rw [ends_literal, if_neg hd, List.head?_nil]
      refine ih (fun c hc => hinside c (List.mem_cons_of_mem _ hc)) hrest
        ((List.mem_cons.1 hc).resolve_left ?_)
      rintro rfl
      exact hd (hw ▸ hspans.isPrefix)

/-- A diagnosis and a parse try the same ends of a derived token. -/
theorem IsDerived.readAlike (h : u.IsDerived) (strict : Bool) : u.ReadAlike strict := by
  obtain ⟨p, hplain, hcomposite, -, hloops⟩ := h.exists_alone
  exact readAlike_of_alone h.isIdentifier_name hplain hcomposite fun _ => hloops

/-- Tokens of one expression match the same texts. -/
theorem Composable.matches?_eq (hu : u.Composable) (hv : v.Composable) (hregex : u.regex = v.regex)
    (w : String) : u.matches? w = v.matches? w := by
  obtain ⟨-, p, hp, -, hmatches⟩ := hu
  obtain ⟨-, q, hq, -, hmatches'⟩ := hv
  rw [hregex, hq] at hp
  cases hp
  rw [Bool.eq_iff_iff, hmatches, hmatches']

end Token

/-! ## Cuts of delimited segments -/

namespace Segment

variable {inside : Char → Bool} {text : Array Char} {τ : String → String}
  {ss : List Segment} {s : Segment} {cut : List (Nat × Nat)} {u v : Token} {a b : Nat}

/-- The preferred end of the first segment and the preferred cut of the others, if there is one. -/
theorem head?_cuts_cons (hb : (s.ends text a).head? = some b)
    (hcut : (cuts text ss b).head? = some cut) :
    (cuts text (s :: ss) a).head? = some ((a, b) :: cut) := by
  obtain ⟨bs, hbs⟩ := List.head?_eq_some_iff.1 hb
  rw [cuts, hbs, List.head?_flatMap, List.findSome?_cons, List.head?_map, hcut]
  rfl

/-- The preferred cut of delimited segments goes along with the texts that they are spelled with. -/
theorem DelimitedBy.exists_cut (h : DelimitedBy inside ss) (hflat : ∀ y ∈ ss, y.isTemplate = false)
    (hexhausts : ∀ u, .token u ∈ ss → u.Exhausts inside)
    (hfits : ∀ u, .token u ∈ ss → u.matches? (τ u.name) = true) (ha : a ≤ text.size)
    (hspans : Spans text a text.size (ss.flatMap (spell τ))) :
    ∃ cut, (cuts text ss a).head? = some cut ∧ cutEnd a cut = text.size ∧
      List.Forall₂ (Shows text τ) ss cut := by
  induction ss generalizing a with
  | nil => exact ⟨[], rfl, hspans.stop_eq.symm, .nil⟩
  | cons y ss ih =>
    rw [List.flatMap_cons] at hspans
    obtain ⟨hfirst, hrest⟩ := hspans.of_append
    obtain ⟨cut, hcut, hend, hshows⟩ := ih h.tail (fun z hz => hflat z (List.mem_cons_of_mem _ hz))
      (fun u hu => hexhausts u (List.mem_cons_of_mem _ hu))
      (fun u hu => hfits u (List.mem_cons_of_mem _ hu)) (hfirst.le_size ha) hrest
    have hb : (y.ends text a).head? = some (a + (spell τ y).length) := by
      cases y with
      | literal w =>
        have hw : w.toList <+: text.toList.drop a := hfirst.isPrefix
        rw [ends_literal, if_pos hw]
        rfl
      | token u =>
        exact hexhausts u (List.mem_cons_self ..) text a _ (τ u.name) ha
          (hfits u (List.mem_cons_self ..)) hfirst (stops_at hrest (h.stops_spell τ))
      | template => cases hflat _ (List.mem_cons_self ..)
    refine ⟨_, head?_cuts_cons hb hcut, hend, .cons (fun u hu => ?_) hshows⟩
    subst hu
    exact hfirst.extract_eq

theorem Repeatable.regex_eq (h : Repeatable ss) (hu : .token u ∈ ss) (hv : .token v ∈ ss)
    (hname : u.name = v.name) : u.regex = v.regex := by
  have hsame : ss.Pairwise fun a b => ∀ u v, a = .token u → b = .token v →
      u.name = v.name → u.regex = v.regex :=
    h.imp fun hrepeats u v hu hv hname => (hrepeats u v hu hv hname).regex_eq
  have hsymm : Std.Symm fun a b : Segment => ∀ u v, a = .token u → b = .token v →
      u.name = v.name → u.regex = v.regex :=
    ⟨fun a b hab u v hu hv hname => (hab v u hv hu hname.symm).symm⟩
  refine hsame.forall_of_forall (fun a _ u v hu hv _ => ?_) hu hv u v rfl rfl hname
  rw [Segment.token.inj (hu.symm.trans hv)]

/-- Tokens of one name that are the same may stand again. -/
theorem repeatable_of_same (htokens : ∀ u, .token u ∈ ss → u.Composable)
    (hsame : ∀ u v, .token u ∈ ss → .token v ∈ ss → u.name = v.name → u.same v = true) :
    Repeatable ss := by
  refine List.pairwise_of_forall_mem_list fun a ha b hb u v hu hv hname => ?_
  subst hu hv
  exact ⟨hsame u v ha hb hname, htokens u ha⟩

/-- Where no name occurs twice, none stands again. -/
theorem repeatable_of_nodup (hdistinct : ((ss.filterMap token?).map Token.name).Nodup) :
    Repeatable ss := by
  rw [List.Nodup, List.pairwise_map, List.pairwise_filterMap] at hdistinct
  refine hdistinct.imp fun hne u v hu hv hname => ?_
  subst hu hv
  exact absurd hname (hne u rfl v rfl)

/-- Where no name occurs twice, the parts of a cut are texts of the names. -/
theorem exists_texts_of_nodup (hdistinct : ((ss.filterMap token?).map Token.name).Nodup)
    (hlen : ss.length = cut.length) : ∃ τ, List.Forall₂ (Shows text τ) ss cut := by
  induction ss generalizing cut with
  | nil =>
    obtain rfl := List.length_eq_zero_iff.1 hlen.symm
    exact ⟨fun _ => "", .nil⟩
  | cons y ss ih =>
    obtain ⟨part, cut, rfl⟩ := List.exists_cons_of_length_eq_add_one hlen.symm
    replace hlen : ss.length = cut.length := Nat.succ.inj hlen
    cases y with
    | literal | template =>
      obtain ⟨τ, hτ⟩ := ih hdistinct hlen
      exact ⟨τ, .cons (fun u hu => nomatch hu) hτ⟩
    | token t =>
      rw [List.filterMap_cons_some (by rfl), List.map_cons] at hdistinct
      obtain ⟨hfresh, hrest⟩ := List.nodup_cons.1 hdistinct
      obtain ⟨τ, hτ⟩ := ih hrest hlen
      obtain ⟨hlength, hshows⟩ := List.forall₂_iff_zip.1 hτ
      refine ⟨Function.update τ t.name (textAt text part), .cons (fun u hu => ?_)
        (List.forall₂_iff_zip.2 ⟨hlength, fun hmem u hu => ?_⟩)⟩
      · cases hu
        rw [Function.update_self, textAt, String.toList_ofList]
      · subst hu
        have hne : u.name ≠ t.name := fun heq => hfresh (heq ▸ List.mem_map_of_mem
          (List.mem_filterMap.2 ⟨_, (List.of_mem_zip hmem).1, rfl⟩))
        rw [Function.update_of_ne hne]
        exact hshows hmem u rfl

end Segment

/-! ## Diagnosing what is parsed -/

namespace Template

variable {t : Template} {s : String} {fields : Fields}

/-- The preferred cut of a text covers it, with one text for each name. -/
def Covers (t : Template) (s : String) : Prop :=
  ∃ cut τ, (cuts (t.kind.prepare s.toList).toArray t.flat 0).head? = some cut ∧
    cutEnd 0 cut = (t.kind.prepare s.toList).length ∧
    List.Forall₂ (Shows (t.kind.prepare s.toList).toArray τ) t.flat cut

/-- A diagnosis that gives fields has covered the text, or it shows one value of a name in two
texts. -/
theorem covers_or_varies {strict : Bool} (htokens : ∀ u, .token u ∈ t.flat → u.ReadAlike strict)
    (h : t.diagnose s = .ok fields) : t.Covers s ∨ t.Varies s := by
  obtain ⟨cut, hcut, hend, hreads⟩ := exists_cut_of_diagnose htokens h
  by_cases hvaries : Segment.Varies (t.kind.prepare s.toList).toArray t.flat cut
  · exact .inr ⟨cut, hcut, hvaries⟩
  · obtain ⟨τ, hτ⟩ := exists_texts hreads hvaries
    exact .inl ⟨cut, τ, hcut, by rw [hend, List.size_toArray], hτ⟩

/-- Where no name occurs twice, all that is asked for is that the preferred cut covers the text. -/
theorem covers_iff_of_nodup (hdistinct : ((t.tokens false).map Token.name).Nodup) :
    t.Covers s ↔ ∃ cut, (cuts (t.kind.prepare s.toList).toArray t.flat 0).head? = some cut ∧
      cutEnd 0 cut = (t.kind.prepare s.toList).length := by
  constructor
  · rintro ⟨cut, -, hcut, hend, -⟩
    exact ⟨cut, hcut, hend⟩
  · rintro ⟨cut, hcut, hend⟩
    have hparts := forall₂_of_mem_cuts (Nat.zero_le _) (List.mem_of_mem_head? hcut)
    obtain ⟨τ, hτ⟩ := exists_texts_of_nodup hdistinct hparts.length_eq
    exact ⟨cut, τ, hcut, hend, hτ⟩

section

variable {name : String} {kind : TemplateKind} {segments : List Segment}

/-- If the preferred cut covers the text, the parse goes along with it, and so its fields are read
from the cut. -/
theorem diagnose_of_covers (h : create name kind segments = .ok t)
    (htokens : ∀ u, .token u ∈ t.flat → u.ReadAlike t.whole.pattern.needsBacktracking)
    (hrepeat : Repeatable t.flat)
    (hvalues : ∀ u v, .token u ∈ t.flat → .token v ∈ t.flat → u.name = v.name →
      ∀ w, u.readValue w = v.readValue w)
    (hne : t.flat ≠ []) (hgroups : ∃ e, Expression.read (groupsRegex t.flat) = .ok e)
    (hparse : t.parse s = .ok fields) (hcovers : t.Covers s) : t.diagnose s = .ok fields := by
  obtain ⟨cut, τ, hcut, hend, hτ⟩ := hcovers
  obtain ⟨ps, hps, hpattern⟩ := exists_composes_of_readAlike h htokens
  have hlimit : ∀ why, t.parse s ≠ .error (.givenUp ⟨t.name, why⟩) := fun why => by simp [hparse]
  have hheld : HoldsTexts (t.kind.prepare s.toList).toArray ⟨0, []⟩ [] t.flat τ :=
    ⟨fun m hm => (nomatch hm), fun u _ hname => (nomatch hname)⟩
  obtain ⟨e, he, hpos, hholds, -⟩ := hps.follows_cut htokens hrepeat (Nat.zero_le _) hheld hcut hτ
  have hread := parse_eq_of_way hpattern (fun _ => hlimit) rfl he (hpos.trans hend)
  rw [hparse, eq_comm, mapError_eq_ok] at hread
  have hfields :=
    readTokens_fields (fun u hu => groupText?_eq hholds (hps.mem_names (token_mem_flat.1 hu))) hread
  refine (diagnose_iff_cut (fun u hu => (htokens u hu).isSome_plain) fun x hx => ?_).2
    ⟨hne, hgroups, cut, hcut, hend, ?_⟩
  · obtain ⟨u, hu, hname⟩ := (hfields x).1.1 hx
    exact ⟨u, token_mem_flat.1 hu, hname⟩
  · obtain ⟨hlen, hshows⟩ := List.forall₂_iff_zip.1 hτ
    refine List.forall₂_iff_zip.2 ⟨hlen, fun hmem u hu => ?_⟩
    subst hu
    have hu := (List.of_mem_zip hmem).1
    obtain ⟨v, hv⟩ := exists_first? hu
    obtain ⟨hmemv, hname⟩ := token_mem_of_first? hv
    rw [hshows hmem u rfl, String.ofList_toList, hvalues u v hu hmemv hname.symm]
    exact (hfields u.name).2 v hv

/-- What a delimited template parses is covered by the preferred cut, if its tokens go as far as
they can. -/
theorem covers_of_delimited {inside : Char → Bool} (h : create name kind segments = .ok t)
    (htokens : ∀ u, .token u ∈ t.flat → u.Composable) (hrepeat : Repeatable t.flat)
    (hdelimited : DelimitedBy inside t.flat)
    (hexhausts : ∀ u, .token u ∈ t.flat → u.Exhausts inside) (hparse : t.parse s = .ok fields) :
    t.Covers s := by
  obtain ⟨τ, hτ, -⟩ := exists_spells_of_parse h htokens hparse
  have hfits : ∀ u, .token u ∈ t.flat → u.matches? (τ u.name) = true := fun u hu => by
    obtain ⟨v, hv⟩ := exists_first? hu
    obtain ⟨hmem, hname⟩ := token_mem_of_first? hv
    rw [(htokens u hu).matches?_eq (htokens v hmem) (hrepeat.regex_eq hu hmem hname.symm)]
    exact hτ.matched u.name v hv
  obtain ⟨cut, hcut, hend, hshows⟩ :=
    hdelimited.exists_cut (not_isTemplate_flattenAll t.segments) hexhausts hfits (Nat.zero_le _)
      (Spans.whole_iff.2 (by rw [hτ.spelled]))
  exact ⟨cut, τ, hcut, by rw [hend, List.size_toArray], hshows⟩

/-- **What is parsed is diagnosed with the same fields exactly where the preferred cut covers the
text**, for as long as there is a segment and the expression of the groups can be read, and never
with other fields, unless the diagnosis shows one value of a name in two texts. In a delimited
template whose tokens go as far as they can all that is parsed is diagnosed with the same fields. -/
theorem diagnose_of_parse (h : create name kind segments = .ok t)
    (htokens : ∀ u, .token u ∈ t.flat → u.ReadAlike t.whole.pattern.needsBacktracking)
    (hrepeat : Repeatable t.flat)
    (hvalues : ∀ u v, .token u ∈ t.flat → .token v ∈ t.flat → u.name = v.name →
      ∀ w, u.readValue w = v.readValue w)
    (hparse : t.parse s = .ok fields) :
    (¬ t.Varies s →
      (t.diagnose s = .ok fields ↔
        t.flat ≠ [] ∧ (∃ e, Expression.read (groupsRegex t.flat) = .ok e) ∧ t.Covers s) ∧
      ∀ gs, t.diagnose s = .ok gs → gs = fields) ∧
    ∀ inside, DelimitedBy inside t.flat →
      (∀ u, .token u ∈ t.flat → u.Composable ∧ u.Exhausts inside) →
      (t.diagnose s = .ok fields ↔
        t.flat ≠ [] ∧ ∃ e, Expression.read (groupsRegex t.flat) = .ok e) := by
  have hcovered : t.flat ≠ [] → (∃ e, Expression.read (groupsRegex t.flat) = .ok e) → t.Covers s →
      t.diagnose s = .ok fields := fun hne hgroups =>
    diagnose_of_covers h htokens hrepeat hvalues hne hgroups hparse
  refine ⟨fun hvaries => ⟨⟨fun hdiagnose => ?_, ?_⟩, fun gs hdiagnose => ?_⟩,
    fun inside hdelimited hall => ⟨groups_of_diagnose, ?_⟩⟩
  · obtain ⟨hne, hgroups⟩ := groups_of_diagnose hdiagnose
    exact ⟨hne, hgroups, (covers_or_varies htokens hdiagnose).resolve_right hvaries⟩
  · rintro ⟨hne, hgroups, hcovers⟩
    exact hcovered hne hgroups hcovers
  · obtain ⟨hne, hgroups⟩ := groups_of_diagnose hdiagnose
    have hsame := hcovered hne hgroups ((covers_or_varies htokens hdiagnose).resolve_right hvaries)
    exact Except.ok.inj (hdiagnose.symm.trans hsame)
  · rintro ⟨hne, hgroups⟩
    exact hcovered hne hgroups (covers_of_delimited h (fun u hu => (hall u hu).1) hrepeat hdelimited
      (fun u hu => (hall u hu).2) hparse)

/-- Where no name occurs twice, the preferred cut has to cover the text and nothing more. -/
theorem diagnose_iff_of_nodup (h : create name kind segments = .ok t)
    (htokens : ∀ u, .token u ∈ t.flat → u.ReadAlike t.whole.pattern.needsBacktracking)
    (hdistinct : ((t.tokens false).map Token.name).Nodup) (hparse : t.parse s = .ok fields) :
    t.diagnose s = .ok fields ↔ t.flat ≠ [] ∧ (∃ e, Expression.read (groupsRegex t.flat) = .ok e) ∧
      ∃ cut, (cuts (t.kind.prepare s.toList).toArray t.flat 0).head? = some cut ∧
        cutEnd 0 cut = (t.kind.prepare s.toList).length := by
  rw [← covers_iff_of_nodup hdistinct]
  constructor
  · intro hdiagnose
    obtain ⟨hne, hgroups⟩ := groups_of_diagnose hdiagnose
    obtain ⟨cut, hcut, hend, -⟩ := exists_cut_of_diagnose htokens hdiagnose
    exact ⟨hne, hgroups, (covers_iff_of_nodup hdistinct).2 ⟨cut, hcut,
      by rw [hend, List.size_toArray]⟩⟩
  · rintro ⟨hne, hgroups, hcovers⟩
    have hsame : ∀ u v, .token u ∈ t.flat → .token v ∈ t.flat → u.name = v.name →
        u = v := fun u v hu hv =>
      List.inj_on_of_nodup_map hdistinct (token_mem_flat.2 hu) (token_mem_flat.2 hv)
    refine diagnose_of_covers h htokens (repeatable_of_nodup hdistinct)
      (fun u v hu hv hname w => ?_) hne hgroups hparse hcovers
    rw [hsame u v hu hv hname]

/-- Derived tokens are read alike, and what a delimited template of them parses is diagnosed with
the same fields, if they go as far as they can: those of classes do (`Token.IsPadded.exhausts`), and
those of choices none of which is the beginning of a later one (`Token.exhausts_choices`). -/
theorem diagnose_of_parse_derived {inside : Char → Bool} (h : create name kind segments = .ok t)
    (htokens : ∀ u, .token u ∈ t.flat → u.IsDerived)
    (hsame : ∀ u v, .token u ∈ t.flat → .token v ∈ t.flat → u.name = v.name → u.same v = true)
    (hdelimited : DelimitedBy inside t.flat)
    (hexhausts : ∀ u, .token u ∈ t.flat → u.Exhausts inside) (hne : t.flat ≠ [])
    (hgroups : ∃ e, Expression.read (groupsRegex t.flat) = .ok e)
    (hparse : t.parse s = .ok fields) : t.diagnose s = .ok fields := by
  have hcomposable : ∀ u, .token u ∈ t.flat → u.Composable := fun u hu => (htokens u hu).composable
  have hrepeat := repeatable_of_same hcomposable hsame
  refine diagnose_of_covers h (fun u hu => (htokens u hu).readAlike _) hrepeat
    (fun u v hu hv hname w => ?_) hne hgroups hparse (covers_of_delimited h hcomposable hrepeat
      hdelimited hexhausts hparse)
  rw [(htokens u hu).eq_of_same (htokens v hv) (hsame u v hu hv hname)]

/-- So it is in every delimited template of padded tokens. -/
theorem diagnose_of_parse_padded (h : create name kind segments = .ok t)
    (htokens : ∀ u, .token u ∈ t.flat → u.IsPadded)
    (hsame : ∀ u v, .token u ∈ t.flat → .token v ∈ t.flat → u.name = v.name → u.same v = true)
    (hdelimited : Delimited t.flat) (hne : t.flat ≠ [])
    (hgroups : ∃ e, Expression.read (groupsRegex t.flat) = .ok e)
    (hparse : t.parse s = .ok fields) : t.diagnose s = .ok fields :=
  diagnose_of_parse_derived h (fun u hu => (htokens u hu).isDerived) hsame hdelimited
    (fun u hu => (htokens u hu).exhausts) hne hgroups hparse

end

/-! ## Two templates

A nested template whose word stands twice, and a token the preferred choice of which is too short:
the diagnosis does not come back to the other one. -/

theorem diagnose_of_parse_fileInDirectory :
    create "t" .standard fileSegments = .ok fileInDirectory ∧
      fileInDirectory.parse "ab/ab.txt" = .ok (NameMap.empty.insert "w" (.text "ab")) ∧
      fileInDirectory.diagnose "ab/ab.txt" = .ok (NameMap.empty.insert "w" (.text "ab")) := by
  have hcreate : create "t" .standard fileSegments = .ok fileInDirectory := rfl
  have hparse : fileInDirectory.parse "ab/ab.txt" =
      .ok (NameMap.empty.insert "w" (.text "ab")) := by decide +kernel
  have hflat : fileInDirectory.flat = [.token word, .literal "/", .token word, .literal ".txt"] :=
    rfl
  have hgroups : ∃ e, Expression.read (groupsRegex fileInDirectory.flat) = .ok e := by
    have htext : groupsRegex fileInDirectory.flat =
        "^(?P<s0>[a-zA-Z]+)(?P<s1>/)(?P<s2>[a-zA-Z]+)(?P<s3>\\.txt)" :=
      (groupsRegex_of_le (by decide)).trans rfl
    rw [htext]
    exact ⟨⟨.concat [.check .textStart,
      .group 1 (.repeated (.one (.union (.range 'a' 'z') (.range 'A' 'Z'))) 1 none true),
      .group 2 (.char '/'),
      .group 3 (.repeated (.one (.union (.range 'a' 'z') (.range 'A' 'Z'))) 1 none true),
      .group 4 (.concat [.char '.', .char 't', .char 'x', .char 't'])],
      [("s3", 4), ("s2", 3), ("s1", 2), ("s0", 1)]⟩, rfl⟩
  have hword : ∀ u, .token u ∈ fileInDirectory.flat → u.IsPadded := fun u hu =>
    eq_word hu ▸ isPadded_word
  have hrepeat : Repeatable fileInDirectory.flat :=
    repeatable_of_same (fun u hu => (hword u hu).composable) fun u v hu hv _ => by
      rw [eq_word hu, eq_word hv]
      decide
  have hvalues : ∀ u v, .token u ∈ fileInDirectory.flat → .token v ∈ fileInDirectory.flat →
      u.name = v.name → ∀ w, u.readValue w = v.readValue w := fun u v hu hv _ w => by
    rw [eq_word hu, eq_word hv]
  obtain ⟨-, hdelimited⟩ :=
    diagnose_of_parse hcreate (fun u hu => (hword u hu).isDerived.readAlike _) hrepeat hvalues
      hparse
  refine ⟨hcreate, hparse, (hdelimited Char.isAlphanum delimited_fileInDirectory ?_).2 ?_⟩
  · exact fun u hu => ⟨(hword u hu).composable, (hword u hu).exhausts⟩
  · exact ⟨by simp [hflat], hgroups⟩

/-- That token alone. -/
def shortOrLongAlone : Template :=
  ⟨"t", .standard, [.token shortOrLong],
    ⟨.concat [.check .textStart,
      .group 1 (.alt (.one (.range 'a' 'a'))
        (.seq (.one (.range 'a' 'a')) (.one (.range 'b' 'b')))),
      .check .textEnd], [("x", 1)]⟩,
    ⟨.concat [.check .textStart,
      .group 1 (.alt (.one (.range 'a' 'a'))
        (.seq (.one (.range 'a' 'a')) (.one (.range 'b' 'b'))))],
      [("x", 1)]⟩⟩

/-- The longer text is parsed, and diagnosed as the shorter one with a remainder. -/
theorem diagnose_shortOrLong :
    Token.ofOptions "x" .text
        { TokenOptions.ofKind "str" with choices := some [.text "a", .text "ab"] } =
          .ok shortOrLong ∧
      create "t" .standard [.token shortOrLong] = .ok shortOrLongAlone ∧
      shortOrLongAlone.parse "ab" = .ok (NameMap.empty.insert "x" (.text "ab")) ∧
      shortOrLongAlone.diagnose "ab" =
        .error ⟨.excess, 1, 1, NameMap.empty.insert "x" (.text "a")⟩ := by
  have hwhole : shortOrLongAlone.whole.searchComposite "ab".toList.toArray =
      .found ⟨0, ⟨2, [(3, 2), (2, 0)]⟩⟩ := by
    have hanchored : Anchored shortOrLongAlone.whole.pattern := anchored_concat _
    rw [Expression.searchComposite, if_neg (by decide), hanchored.search_eq rfl]
    rfl
  have hparse : shortOrLongAlone.parse "ab" = .ok (NameMap.empty.insert "x" (.text "ab")) := by
    have hprepare : (shortOrLongAlone.kind.prepare "ab".toList).toArray = "ab".toList.toArray := rfl
    simp only [parse, matchWith, hprepare, hwhole]
    rfl
  have hname : groupName 0 = "s0" := groupName_of_lt (by decide)
  have hgroups : Expression.read (groupsRegex [.token shortOrLong]) =
      .ok ⟨shortOrLongAlone.leading.pattern, [("s0", 1)]⟩ := by
    have htext : groupsRegex [.token shortOrLong] = "^(?P<s0>(?:a|ab))" :=
      (groupsRegex_of_le (by decide)).trans rfl
    rw [htext]
    rfl
  have hleading : search "ab".toList.toArray shortOrLongAlone.leading.pattern =
      some ⟨0, ⟨1, [(3, 1), (2, 0)]⟩⟩ := by
    have hanchored : Anchored shortOrLongAlone.leading.pattern := anchored_concat _
    rw [hanchored.search_eq rfl]
    rfl
  refine ⟨rfl, rfl, hparse, ?_⟩
  have hflat : shortOrLongAlone.flat = [.token shortOrLong] := rfl
  have hprepare : (shortOrLongAlone.kind.prepare "ab".toList).toArray = "ab".toList.toArray := rfl
  simp only [diagnose, hflat, hprepare, List.length_singleton, diagnoseFrom, List.take_succ_cons,
    List.take_nil, hgroups, hleading, diagnoseMatch, Nat.zero_add, readGroups, hname]
  rfl

end Template

end Stencil
