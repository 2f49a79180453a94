import Stencil.Proofs.Pattern.PlainReading
import Stencil.Proofs.Template.Grouping
import Stencil.Proofs.Template.Parsing

/-!
# What a diagnosis finds

A diagnosis matches the groups of the segments without regard to what follows, and gives fields if
its first match comes to the end of the text and each group stands for its value
(`diagnose_iff_agrees`). Where all tokens are read alone, the match is a cut: the segments are cut
out of the text one behind the other, the preferred ends first (`diagnose_iff_cut`).
-/

namespace Stencil

open Pattern

/-! ## Cuts -/

namespace Segment

/-- Where a flat segment can end in a text that is tried from a position, the preferred ends
first. -/
def ends (text : Array Char) (s : Segment) (a : Nat) : List Nat :=
  match s.alone? with
  | some p => (ways false text p ⟨a, []⟩).map Spot.pos
  | none => []

/-- How flat segments can be cut out of a text from a position on: the beginning and the end of
each, the preferred cuts first. -/
def cuts (text : Array Char) : List Segment → Nat → List (List (Nat × Nat))
  | [], _ => [[]]
  | s :: ss, a => (s.ends text a).flatMap fun b => (cuts text ss b).map ((a, b) :: ·)

/-- Where a cut ends that begins at a position. -/
def cutEnd (a : Nat) : List (Nat × Nat) → Nat
  | [] => a
  | c :: cut => cutEnd c.2 cut

/-- The part of a text stands for the value of a token, if the segment is one. -/
def Reads (text : Array Char) (fields : Fields) (s : Segment) (part : Nat × Nat) : Prop :=
  ∀ u, s = .token u →
    ∃ v, u.readValue (.ofList (text.extract part.1 part.2).toList) = .ok v ∧
      fields.get? u.name = some v

end Segment

open Segment

theorem forall₂_flatMap {α β γ : Type} {R : β → γ → Prop} {f : α → List β}
    {g : α → List γ} {l : List α} (h : ∀ x ∈ l, List.Forall₂ R (f x) (g x)) :
    List.Forall₂ R (l.flatMap f) (l.flatMap g) := by
  induction l with
  | nil => exact .nil
  | cons x l ih =>
    rw [List.flatMap_cons, List.flatMap_cons]
    exact List.rel_append (h x (List.mem_cons_self ..))
      (ih fun y hy => h y (List.mem_cons_of_mem _ hy))

namespace Template

section

variable {Stands : Segment → Pattern → Prop} {text : Array Char}
  {ss : List Segment} {ps : List Pattern} {names names' : List (String × Nat)} {k : Nat}

theorem Groups.lookup_eq (h : Groups Stands k names ss ps names') {j : Nat} (hj : j < k) :
    names'.lookup (groupName j) = names.lookup (groupName j) := by
  induction h with
  | nil => rfl
  | @cons k i _ _ _ _ _ _ _ _ _ _ _ ih =>
    have hne : (groupName j == groupName k) = false := by
      rw [beq_eq_false_iff_ne]
      intro heq
      have := groupName_inj.1 heq
      omega
    rw [ih (Nat.lt_succ_of_lt hj), List.lookup_cons, hne]

theorem Groups.asksAgain (h : Groups Stands k names ss ps names') :
    ∀ p ∈ ps, p.asksAgain = false := by
  induction h with
  | nil => simp
  | cons _ renumbered _ _ ih =>
    intro p hp
    rcases List.mem_cons.1 hp with rfl | hp
    · exact renumbered.asksAgain_eq
    · exact ih p hp

/-- A spot has passed the groups of segments, and they hold the parts of a cut. -/
structure Passes (k : Nat) (names names' : List (String × Nat)) (ss : List Segment) (s e : Spot)
    (cut : List (Nat × Nat)) : Prop where
  pos_eq : e.pos = cutEnd s.pos cut
  before : ∀ m ∈ names, e.group? m.2 = s.group? m.2
  length_eq : cut.length = ss.length
  part : ∀ j x, cut[j]? = some x → (names'.lookup (groupName (k + j))).bind e.group? = some x

/-- The group of one more segment before the others. -/
theorem Passes.cons {i : Nat} {p q : Pattern} {s x e : Spot} {cut : List (Nat × Nat)}
    (h : Passes (k + 1) ((groupName k, i) :: names) names' ss x e cut)
    (hss : Groups Stands (k + 1) ((groupName k, i) :: names) ss ps names')
    (hq : p.Renumbered (i < ·) q) (hbelow : ∀ m ∈ names, m.2 < i)
    (hx : x ∈ ways false text (.group i q) s) (t : Segment) :
    Passes k names names' (t :: ss) s e ((s.pos, x.pos) :: cut) := by
  refine ⟨h.pos_eq, fun m hm => ?_, ?_, fun j y hy => ?_⟩
  · rw [h.before m (List.mem_cons_of_mem _ hm), hq.group?_below hx (hbelow m hm)]
  · rw [List.length_cons, List.length_cons, h.length_eq]
  · cases j with
    | zero =>
      cases hy
      have hlookup : names'.lookup (groupName k) = some i := by
        rw [hss.lookup_eq (Nat.lt_succ_self k)]
        simp
      rw [Nat.add_zero, hlookup, Option.bind_some, h.before _ (List.mem_cons_self ..),
        hq.group?_eq hx]
    | succ j =>
      have hnext : k + (j + 1) = k + 1 + j := by omega
      rw [hnext]
      exact h.part j y hy

/-- The ways of the groups are the cuts, in the same order. -/
theorem Groups.forall₂_cuts (h : Groups (fun s p => s.alone? = some p) k names ss ps names')
    (text : Array Char) (s : Spot) :
    List.Forall₂ (Passes k names names' ss s) (waysAll false text ps s) (cuts text ss s.pos) := by
  induction h generalizing s with
  | nil k names => exact .cons ⟨rfl, fun _ _ => rfl, rfl, by simp⟩ .nil
  | @cons k i names names' t ss p q ps stands renumbered below hss ih =>
    have hends : t.ends text s.pos = (ways false text (.group i q) s).map Spot.pos := by
      rw [Segment.ends, stands]
      exact (renumbered.pos_ways_group false text s).symm
    rw [waysAll, cuts, hends, List.flatMap_map]
    refine forall₂_flatMap fun x hx => ?_
    rw [List.forall₂_map_right_iff]
    exact (ih x).imp fun e cut he => he.cons hss renumbered below hx t

end

/-! ## Reading the groups -/

/-- Fields keep the values of others. -/
def Keeps (fs gs : Fields) : Prop := ∀ ⦃x v⦄, fs.get? x = some v → gs.get? x = some v

section

variable {text : Array Char} {group? : Nat → Option (Nat × Nat)} {s : Segment}
  {ss : List Segment} {k : Nat} {fs gs : Fields} {x : String} {v : Value}

theorem Keeps.insert (h : fs.get? x = none) : Keeps fs (fs.insert x v) := by
  intro y w hy
  rw [NameMap.get?_insert, if_neg]
  · exact hy
  · rintro rfl
    rw [h] at hy
    cases hy

theorem Keeps.of_insert (h : Keeps fs gs) (hx : gs.get? x = some v) : Keeps (fs.insert x v) gs := by
  intro y w hy
  rw [NameMap.get?_insert] at hy
  split at hy
  · next heq =>
    cases hy
    rw [← heq, hx]
  · exact h hy

theorem Keeps.isSome (h : Keeps fs gs) (hx : (fs.get? x).isSome = true) :
    (gs.get? x).isSome = true := by
  obtain ⟨v, hv⟩ := Option.isSome_iff_exists.1 hx
  exact Option.isSome_of_eq_some (h hv)

theorem reads_mono {part : Nat × Nat} (h : Reads text fs s part) (hkeeps : Keeps fs gs) :
    Reads text gs s part := by
  intro u hu
  obtain ⟨v, hv, hget⟩ := h u hu
  exact ⟨v, hv, hkeeps hget⟩

/-- A segment that is read adds the value of its group, and nothing else. -/
theorem step_of_readGroups (h : readGroups text group? k (s :: ss) fs = .ok gs) :
    ∃ fs', readGroups text group? (k + 1) ss fs' = .ok gs ∧ Keeps fs fs' ∧
      (∀ part, group? k = some part → Reads text fs' s part) ∧
      ∀ x, (fs'.get? x).isSome = true →
        (fs.get? x).isSome = true ∨ ∃ u, s = .token u ∧ u.name = x ∧ (group? k).isSome = true := by
  cases s with
  | literal => exact ⟨fs, h, fun _ _ h => h, fun _ _ _ hu => (nomatch hu), fun _ hx => .inl hx⟩
  | template => exact ⟨fs, h, fun _ _ h => h, fun _ _ _ hu => (nomatch hu), fun _ hx => .inl hx⟩
  | token t =>
    rw [readGroups] at h
    split at h
    · next hnone =>
      refine ⟨fs, h, fun _ _ h => h, fun part hpart => ?_, fun _ hx => .inl hx⟩
      rw [hnone] at hpart
      cases hpart
    next start stop hgroup =>
    split at h
    · cases h
    next v hv =>
    split at h
    · next hnew =>
      refine ⟨_, h, .insert hnew, fun part hpart u hu => ?_, fun x hx => ?_⟩
      · cases hu
        rw [hgroup] at hpart
        cases hpart
        exact ⟨v, hv, by rw [NameMap.get?_insert, if_pos rfl]⟩
      · rw [NameMap.get?_insert] at hx
        by_cases hname : t.name = x
        · exact .inr ⟨t, rfl, hname, Option.isSome_of_eq_some hgroup⟩
        · rw [if_neg hname] at hx
          exact .inl hx
    · next previous hprevious =>
      split at h
      · next heq =>
        refine ⟨fs, h, fun _ _ h => h, fun part hpart u hu => ?_, fun _ hx => .inl hx⟩
        cases hu
        rw [hgroup] at hpart
        cases hpart
        exact ⟨v, hv, heq ▸ hprevious⟩
      · cases h

/-- A name that has a value keeps it. -/
theorem readGroups_keeps (h : readGroups text group? k ss fs = .ok gs) : Keeps fs gs := by
  induction ss generalizing k fs with
  | nil =>
    cases h
    exact fun _ _ h => h
  | cons s ss ih =>
    obtain ⟨fs', hrest, hkeeps, -⟩ := step_of_readGroups h
    exact fun _ _ hx => ih hrest (hkeeps hx)

/-- What is read gives each group its value. -/
theorem reads_of_readGroups (h : readGroups text group? k ss fs = .ok gs)
    {i : Nat} {part : Nat × Nat} (hs : ss[i]? = some s) (hpart : group? (k + i) = some part) :
    Reads text gs s part := by
  induction ss generalizing k fs i with
  | nil => simp at hs
  | cons s ss ih =>
    obtain ⟨fs', hrest, -, hreads, -⟩ := step_of_readGroups h
    cases i with
    | zero =>
      cases hs
      exact reads_mono (hreads part hpart) (readGroups_keeps hrest)
    | succ i =>
      refine ih hrest hs ?_
      rw [Nat.add_right_comm]
      exact hpart

/-- What is read are values of tokens whose groups took part. -/
theorem held_of_readGroups (h : readGroups text group? k ss fs = .ok gs)
    (hx : (gs.get? x).isSome = true) :
    (fs.get? x).isSome = true ∨
      ∃ i u, ss[i]? = some (.token u) ∧ u.name = x ∧ (group? (k + i)).isSome = true := by
  induction ss generalizing k fs with
  | nil =>
    cases h
    exact .inl hx
  | cons s ss ih =>
    obtain ⟨fs', hrest, -, -, hheld⟩ := step_of_readGroups h
    obtain hx | ⟨i, u, hu, hname, hgroup⟩ := ih hrest
    · obtain hx | ⟨u, rfl, hname, hgroup⟩ := hheld x hx
      · exact .inl hx
      · exact .inr ⟨0, u, rfl, hname, hgroup⟩
    · refine .inr ⟨i + 1, u, hu, hname, ?_⟩
      rwa [Nat.add_right_comm] at hgroup

/-- If the group of a segment stands for a value of fields, then it is read. -/
theorem step_of_reads (ss : List Segment)
    (hpart : ∀ part, group? k = some part → Reads text gs s part) (hfs : Keeps fs gs) :
    ∃ fs', readGroups text group? k (s :: ss) fs = readGroups text group? (k + 1) ss fs' ∧
      Keeps fs' gs ∧ ∀ u, s = .token u → (group? k).isSome = true →
      (fs'.get? u.name).isSome = true := by
  cases s with
  | literal => exact ⟨fs, rfl, hfs, by simp⟩
  | template => exact ⟨fs, rfl, hfs, by simp⟩
  | token t =>
    cases hgroup : group? k with
    | none =>
      refine ⟨fs, ?_, hfs, by simp⟩
      rw [readGroups]
      simp only [hgroup]
    | some part =>
      obtain ⟨v, hv, hget⟩ := hpart part hgroup t rfl
      cases hprevious : fs.get? t.name with
      | none =>
        refine ⟨fs.insert t.name v, ?_, hfs.of_insert hget, fun u hu _ => ?_⟩
        · rw [readGroups]
          simp only [hgroup, hv, hprevious]
        · cases hu
          rw [NameMap.get?_insert, if_pos rfl]
          rfl
      | some previous =>
        obtain rfl : previous = v := by
          have hboth := hfs hprevious
          rw [hget] at hboth
          exact (Option.some.inj hboth).symm
        refine ⟨fs, ?_, hfs, fun u hu _ => ?_⟩
        · rw [readGroups]
          simp only [hgroup, hv, hprevious, if_pos]
        · cases hu
          exact Option.isSome_of_eq_some hprevious

/-- If the groups stand for the values of fields, these are read. -/
theorem readGroups_of_reads
    (hreads : ∀ i s part, ss[i]? = some s → group? (k + i) = some part → Reads text gs s part)
    (hfs : Keeps fs gs) :
    ∃ hs, readGroups text group? k ss fs = .ok hs ∧ Keeps hs gs ∧
      ∀ i u, ss[i]? = some (.token u) → (group? (k + i)).isSome = true →
        (hs.get? u.name).isSome = true := by
  induction ss generalizing k fs with
  | nil => exact ⟨fs, rfl, hfs, by simp⟩
  | cons s ss ih =>
    obtain ⟨fs', heq, hfs', hfirst⟩ := step_of_reads ss (hreads 0 s · rfl) hfs
    obtain ⟨hs, hread, hle, hall⟩ := ih (k := k + 1) (fun i s part hs hpart => by
      rw [Nat.add_right_comm] at hpart
      exact hreads (i + 1) s part hs hpart) hfs'
    refine ⟨hs, heq.trans hread, hle, fun i u hu hgroup => ?_⟩
    cases i with
    | zero =>
      cases hu
      exact (readGroups_keeps hread).isSome (hfirst u rfl hgroup)
    | succ i =>
      refine hall i u hu ?_
      rw [Nat.add_right_comm]
      exact hgroup

/-- The groups of segments stand for the values of fields, and each of the fields is of a token
whose group took part. -/
structure Agrees (text : Array Char) (group? : Nat → Option (Nat × Nat)) (ss : List Segment)
    (fields : Fields) :
    Prop where
  reads : ∀ i s part, ss[i]? = some s → group? i = some part → Reads text fields s part
  held : ∀ x, (fields.get? x).isSome = true →
    ∃ i u, ss[i]? = some (.token u) ∧ u.name = x ∧ (group? i).isSome = true

theorem readGroups_eq_ok_iff {fields : Fields} :
    readGroups text group? 0 ss .empty = .ok fields ↔ Agrees text group? ss fields := by
  constructor
  · intro h
    refine ⟨fun i s part hs hpart => ?_, fun x hx => ?_⟩
    · exact reads_of_readGroups h hs (by rw [Nat.zero_add]; exact hpart)
    · obtain hnone | ⟨i, u, hu, hname, hgroup⟩ := held_of_readGroups h hx
      · cases hnone
      · rw [Nat.zero_add] at hgroup
        exact ⟨i, u, hu, hname, hgroup⟩
  · rintro ⟨hreads, hheld⟩
    have hempty : Keeps .empty fields := fun x v hx => by cases hx
    obtain ⟨gs, hgs, hle, hall⟩ := readGroups_of_reads (k := 0) (fun i s part hs hpart => by
      rw [Nat.zero_add] at hpart
      exact hreads i s part hs hpart) hempty
    have hsame : gs = fields := by
      refine NameMap.ext_get? fun x => ?_
      cases hx : gs.get? x with
      | some v => rw [hle hx]
      | none =>
        cases hfx : fields.get? x with
        | none => rfl
        | some v =>
          obtain ⟨i, u, hu, rfl, hgroup⟩ := hheld x (by rw [hfx]; rfl)
          have hsome := hall i u hu (by rw [Nat.zero_add]; exact hgroup)
          rw [hx] at hsome
          cases hsome
    rw [hgs, hsame]

/-- Where all groups took part, these are the parts of a cut. -/
theorem agrees_iff_forall₂ {fields : Fields} {cut : List (Nat × Nat)}
    (hlen : cut.length = ss.length) (hpart : ∀ j x, cut[j]? = some x → group? j = some x)
    (hnames : ∀ x, (fields.get? x).isSome = true → ∃ u, .token u ∈ ss ∧ u.name = x) :
    Agrees text group? ss fields ↔ List.Forall₂ (Reads text fields) ss cut := by
  have hgroup : ∀ i (hi : i < cut.length), group? i = some (cut.get ⟨i, hi⟩) := fun i hi =>
    hpart i _ (List.getElem?_eq_getElem hi)
  rw [List.forall₂_iff_get]
  constructor
  · rintro ⟨hreads, -⟩
    exact ⟨hlen.symm, fun i hi hi' => hreads i _ _ (List.getElem?_eq_getElem hi) (hgroup i hi')⟩
  · rintro ⟨-, hreads⟩
    refine ⟨fun i s part hs hgrouped => ?_, fun x hx => ?_⟩
    · obtain ⟨hi, rfl⟩ := List.getElem?_eq_some_iff.1 hs
      rw [hgroup i (hlen ▸ hi)] at hgrouped
      cases hgrouped
      exact hreads i hi (hlen ▸ hi)
    · obtain ⟨u, hu, hname⟩ := hnames x hx
      obtain ⟨i, hi, hget⟩ := List.getElem_of_mem hu
      refine ⟨i, u, hget ▸ List.getElem?_eq_getElem hi, hname, ?_⟩
      rw [hgroup i (hlen ▸ hi)]
      rfl

end

/-! ## Diagnosing -/

/-- A diagnosis of fewer segments than there are finds a mismatch. -/
theorem diagnoseFrom_ne_ok {text : Array Char} {segments : List Segment} {count : Nat}
    (h : count < segments.length) (fields : Fields) :
    diagnoseFrom text segments count ≠ .ok fields := by
  induction count with
  | zero => simp [diagnoseFrom]
  | succ count ih =>
    rw [diagnoseFrom]
    split
    · simp
    · split
      · exact ih (by omega)
      · obtain ⟨next, hnext⟩ : ∃ s, segments[count + 1]? = some s := ⟨_, List.getElem?_eq_getElem h⟩
        intro hmatch
        obtain ⟨fs, -, hthrow⟩ := bind_eq_ok.1 hmatch
        simp only [hnext] at hthrow
        cases hthrow

/-- A match of all segments gives the fields if it ends with the text and its groups stand for their
values. -/
theorem diagnoseMatch_eq_ok_iff {text : Array Char} {group? : Nat → Option (Nat × Nat)}
    {ss : List Segment} {fields : Fields} {stop : Nat} (hstop : stop ≤ text.size) :
    diagnoseMatch text ss ss.length group? stop = .ok fields ↔
      stop = text.size ∧ Agrees text group? ss fields := by
  have hbeyond : ss[ss.length]? = none := List.getElem?_eq_none (Nat.le_refl _)
  have hend : byteOffset text.toList stop = byteLength text.toList ↔ stop = text.size :=
    byteOffset_eq_byteLength_iff hstop
  simp only [diagnoseMatch, List.take_length, hbeyond, hend]
  constructor
  · intro hmatch
    obtain ⟨gs, hgs, hend⟩ := bind_eq_ok.1 hmatch
    split at hend
    · next hsize =>
      cases hend
      exact ⟨hsize, readGroups_eq_ok_iff.1 hgs⟩
    · cases hend
  · rintro ⟨hsize, hagrees⟩
    rw [readGroups_eq_ok_iff.2 hagrees]
    simp only [bind, Except.bind, if_pos hsize]
    rfl

/-- A diagnosis gives fields exactly if there is a segment and the first match of the expression of
all segments is one of the whole text whose groups stand for the fields. -/
theorem diagnose_iff_agrees {t : Template} {s : String} {fields : Fields} :
    t.diagnose s = .ok fields ↔ t.flat ≠ [] ∧ ∃ e f, Expression.read (groupsRegex t.flat) = .ok e ∧
      search (t.kind.prepare s.toList).toArray e.pattern = some f ∧
      f.stop.pos = (t.kind.prepare s.toList).length ∧
      Agrees (t.kind.prepare s.toList).toArray (fun i => e.named? f (groupName i))
        t.flat fields := by
  unfold diagnose
  generalize t.kind.prepare s.toList = cs
  generalize t.flat = ss
  simp only
  cases hlen : ss.length with
  | zero =>
    obtain rfl := List.length_eq_zero_iff.1 hlen
    exact iff_of_false (by simp [diagnoseFrom]) fun h => h.1 rfl
  | succ n =>
    have hne : ss ≠ [] := List.ne_nil_of_length_eq_add_one hlen
    rw [diagnoseFrom, ← hlen, List.take_length]
    cases he : Expression.read (groupsRegex ss) with
    | error fault =>
      refine iff_of_false (by simp) ?_
      rintro ⟨-, e, f, he, -⟩
      cases he
    | ok e =>
      simp only
      cases hf : search cs.toArray e.pattern with
      | none =>
        refine iff_of_false (diagnoseFrom_ne_ok (by omega) fields) ?_
        rintro ⟨-, e', f, he, hsearch, -⟩
        cases he
        rw [hf] at hsearch
        cases hsearch
      | some f =>
        simp only
        have hagain := asksAgain_of_isPlain (Expression.isPlain_of_read he)
        rw [diagnoseMatch_eq_ok_iff (search_le hagain hf), List.size_toArray]
        constructor
        · rintro ⟨hend, hagrees⟩
          exact ⟨hne, e, f, rfl, hf, hend, hagrees⟩
        · rintro ⟨-, e', f', he, hsearch, hend, hagrees⟩
          cases he
          rw [hf] at hsearch
          cases hsearch
          exact ⟨hend, hagrees⟩

/-- A diagnosis that gives fields has a segment, and could read the expression of the groups. -/
theorem groups_of_diagnose {t : Template} {s : String} {fields : Fields}
    (h : t.diagnose s = .ok fields) :
    t.flat ≠ [] ∧ ∃ e, Expression.read (groupsRegex t.flat) = .ok e := by
  obtain ⟨hne, e, -, he, -⟩ := diagnose_iff_agrees.1 h
  exact ⟨hne, e, he⟩

theorem asksAgain_concat {ps : List Pattern} (h : ∀ p ∈ ps, p.asksAgain = false) :
    (concat ps).asksAgain = false :=
  @concat_of_forall (·.asksAgain = false) rfl (fun hp hq => Bool.or_eq_false_iff.2 ⟨hp, hq⟩) ps h

/-- Searching with the expression of groups finds the first of their ways. -/
theorem Groups.search_eq {Stands : Segment → Pattern → Prop} {ss : List Segment}
    {ps : List Pattern} {e : Expression} (h : Groups Stands 0 [] ss ps e.names)
    (hpattern : e.pattern = .concat (.check .textStart :: ps)) (text : Array Char) :
    search text e.pattern = (waysAll false text ps ⟨0, []⟩).head?.map (⟨0, ·⟩) := by
  have hagain : e.pattern.asksAgain = false := by
    rw [hpattern]
    refine asksAgain_concat fun p hp => ?_
    rcases List.mem_cons.1 hp with rfl | hp
    · rfl
    · exact h.asksAgain p hp
  have hways : ways false text e.pattern ⟨0, []⟩ = waysAll false text ps ⟨0, []⟩ := by
    have hstart : (⟨0, []⟩ : Spot).satisfies text .textStart = true := rfl
    rw [hpattern, ways_concat, waysAll, ways, if_pos hstart, List.flatMap_singleton]
  have hanchored : Anchored e.pattern := hpattern ▸ anchored_concat _
  rw [hanchored.search_eq hagain, hways]

/-- Searching with the expression of all segments finds the preferred cut, if there is one. -/
theorem search_groups (text : Array Char) {ss : List Segment} {e : Expression}
    (hread : ∀ s ∈ ss, s.alone?.isSome = true) (h : Expression.read (groupsRegex ss) = .ok e) :
    match search text e.pattern with
    | none => (cuts text ss 0).head? = none
    | some f =>
      ∃ cut, (cuts text ss 0).head? = some cut ∧ f.stop.pos = cutEnd 0 cut ∧
        cut.length = ss.length ∧ ∀ j x, cut[j]? = some x → e.named? f (groupName j) = some x := by
  have hstands : ∀ s ∈ ss, ∃ p, s.alone? = some p ∧
      Reader.ReadsInside s.ownRegex p := fun s hs => by
    obtain ⟨p, hp⟩ := Option.isSome_iff_exists.1 (hread s hs)
    exact ⟨p, hp, readsInside_of_alone? hp⟩
  obtain ⟨ps, hps, hpattern⟩ := read_groups hstands h
  have hcuts : List.Forall₂ _ _ (cuts text ss 0) := hps.forall₂_cuts text ⟨0, []⟩
  rw [hps.search_eq hpattern]
  generalize waysAll false text ps ⟨0, []⟩ = es at hcuts
  generalize cuts text ss 0 = cs at hcuts
  cases hcuts with
  | nil => rfl
  | @cons x cut _ _ hx _ =>
    refine ⟨cut, rfl, hx.pos_eq, hx.length_eq, fun j y hy => ?_⟩
    have hpart := hx.part j y hy
    rw [Nat.zero_add] at hpart
    exact hpart

/-- Where all tokens are read alone, this is the preferred cut of the segments out of the text. -/
theorem diagnose_iff_cut {t : Template} {s : String} {fields : Fields}
    (htokens : ∀ u, .token u ∈ t.flat → (Reader.alone? u.regex).isSome = true)
    (hnames : ∀ x, (fields.get? x).isSome = true → ∃ u, .token u ∈ t.flat ∧ u.name = x) :
    t.diagnose s = .ok fields ↔
      t.flat ≠ [] ∧ (∃ e, Expression.read (groupsRegex t.flat) = .ok e) ∧
        ∃ cut, (cuts (t.kind.prepare s.toList).toArray t.flat 0).head? = some cut ∧
          cutEnd 0 cut = (t.kind.prepare s.toList).length ∧
          List.Forall₂ (Reads (t.kind.prepare s.toList).toArray fields) t.flat cut := by
  have hread : ∀ s ∈ t.flat, s.alone?.isSome = true := by
    intro s hs
    cases s with
    | literal => rfl
    | token u => exact htokens u hs
    | template =>
      have hflat := Segment.not_isTemplate_flattenAll t.segments _ hs
      cases hflat
  rw [diagnose_iff_agrees]
  generalize t.kind.prepare s.toList = cs
  generalize t.flat = ss at hread hnames
  refine and_congr_right fun _ => ?_
  constructor
  · rintro ⟨e, f, he, hf, hend, hagrees⟩
    have hsearch := search_groups cs.toArray hread he
    rw [hf] at hsearch
    obtain ⟨cut, hcut, hstop, hlen, hpart⟩ := hsearch
    exact ⟨⟨e, he⟩, cut, hcut, hstop ▸ hend, (agrees_iff_forall₂ hlen hpart hnames).1 hagrees⟩
  · rintro ⟨⟨e, he⟩, cut', hcut', hend, hreads⟩
    have hsearch := search_groups cs.toArray hread he
    cases hf : search cs.toArray e.pattern with
    | none =>
      rw [hf] at hsearch
      rw [hsearch] at hcut'
      cases hcut'
    | some f =>
      rw [hf] at hsearch
      obtain ⟨cut, hcut, hstop, hlen, hpart⟩ := hsearch
      rw [hcut] at hcut'
      cases hcut'
      exact ⟨e, f, he, hf, hstop.trans hend, (agrees_iff_forall₂ hlen hpart hnames).2 hreads⟩

end Template

end Stencil
