import Stencil.Path.Glob
import Stencil.Proofs.Path.Canonical

/-!
# What wildcards stand for

In a text without brackets and double stars, each star stands for a text without separators and each
question mark for a character that is none (`Fills`). The signs of a component stand for the names
that it can be filled in as (`matchSigns_iff`), and a pattern has one component for each component
of the text behind its base (`read_rooted`, `read_relative`).
-/

namespace Stencil.Path

variable {cs ds xs ys : List Char}

/-! ## Signs -/

/-- A text in which no bracket and no double star stands. -/
def Starred : List Char → Prop
  | [] => True
  | c :: cs => c ≠ '[' ∧ (c = '*' → cs.head? ≠ some '*') ∧ Starred cs

instance decidableStarred : (cs : List Char) → Decidable (Starred cs)
  | [] => .isTrue trivial
  | c :: cs =>
    have := decidableStarred cs
    inferInstanceAs (Decidable (c ≠ '[' ∧ (c = '*' → cs.head? ≠ some '*') ∧ Starred cs))

theorem Starred.of_append (h : Starred (cs ++ ds)) : Starred cs ∧ Starred ds := by
  induction cs with
  | nil => exact ⟨trivial, h⟩
  | cons c cs ih =>
    obtain ⟨hbracket, hstar, hrest⟩ := h
    obtain ⟨hcs, hds⟩ := ih hrest
    refine ⟨⟨hbracket, fun hc hhead => hstar hc ?_, hcs⟩, hds⟩
    have happend : (cs ++ ds).head? = some '*' := by rw [List.head?_append, hhead]; rfl
    exact happend

/-- The sign of a character. -/
def signOf (c : Char) : GlobSign :=
  if c = '*' then .anyText else if c = '?' then .anyChar else .char c

theorem signOf_question : signOf '?' = .anyChar := rfl

theorem signOf_other {c : Char} (hstar : c ≠ '*') (hquestion : c ≠ '?') : signOf c = .char c := by
  rw [signOf, if_neg hstar, if_neg hquestion]

/-- Each character is a sign. -/
theorem readSigns_eq (h : Starred cs) (start : Bool) :
    readSigns start cs = .ok (cs.map signOf) := by
  induction cs generalizing start with
  | nil =>
    rw [readSigns]
    rfl
  | cons c cs ih =>
    obtain ⟨hbracket, hstar, hcs⟩ := h
    have ih := ih hcs
    rw [List.map_cons]
    by_cases hc : c = '*'
    · subst hc
      have hhead := hstar rfl
      cases cs with
      | nil => rw [readSigns, ih] <;> simp [signOf, Except.map]
      | cons d cs =>
        have hd : d ≠ '*' := by simpa using hhead
        rw [readSigns, ih] <;> simp [signOf, Except.map, hd]
    · by_cases hquestion : c = '?'
      · subst hquestion
        rw [readSigns, ih]
        rfl
      · rw [readSigns, ih] <;> simp [signOf, Except.map, hc, hquestion, hbracket]

/-! ## Filling in -/

/-- The second text is the first one with a text without separators in the place of each star, and
with a character that is no separator in the place of each question mark; either sign may also stand
for itself. -/
inductive Fills : List Char → List Char → Prop
  | nil : Fills [] []
  | char {cs ds : List Char} (c : Char) : Fills cs ds → Fills (c :: cs) (c :: ds)
  | one {cs ds : List Char} {d : Char} : isSeparator d = false → Fills cs ds →
      Fills ('?' :: cs) (d :: ds)
  | text {cs ds w : List Char} : (∀ c ∈ w, isSeparator c = false) → Fills cs ds →
      Fills ('*' :: cs) (w ++ ds)

/-- Characters that stand for themselves alone. -/
def Bare (cs : List Char) : Prop := '*' ∉ cs ∧ '?' ∉ cs

namespace Fills

theorem refl (cs : List Char) : Fills cs cs := by
  induction cs with
  | nil => exact .nil
  | cons c cs ih => exact .char c ih

theorem append (h : Fills cs ds) (h' : Fills xs ys) : Fills (cs ++ xs) (ds ++ ys) := by
  induction h with
  | nil => exact h'
  | char c _ ih => exact .char c ih
  | one hd _ ih => exact .one hd ih
  | text hw _ ih =>
    rw [List.append_assoc]
    exact .text hw ih

/-- What two texts behind each other are filled in as. -/
theorem of_append (h : Fills (cs ++ xs) ds) : ∃ u v, ds = u ++ v ∧ Fills cs u ∧ Fills xs v := by
  induction cs generalizing ds with
  | nil => exact ⟨[], ds, rfl, .nil, h⟩
  | cons c cs ih =>
    generalize hy : c :: cs ++ xs = zs at h
    cases h with
    | nil => cases hy
    | char c h =>
      cases hy
      obtain ⟨u, v, rfl, hu, hv⟩ := ih h
      exact ⟨c :: u, v, rfl, .char c hu, hv⟩
    | @one _ _ d hd h =>
      cases hy
      obtain ⟨u, v, rfl, hu, hv⟩ := ih h
      exact ⟨d :: u, v, rfl, .one hd hu, hv⟩
    | @text _ _ w hw h =>
      cases hy
      obtain ⟨u, v, rfl, hu, hv⟩ := ih h
      exact ⟨w ++ u, v, (List.append_assoc ..).symm, .text hw hu, hv⟩

theorem eq_of_bare (hbare : Bare cs) (h : Fills cs ds) : ds = cs := by
  induction h with
  | nil => rfl
  | char c _ ih =>
    rw [ih ⟨fun hc => hbare.1 (List.mem_cons_of_mem _ hc),
      fun hc => hbare.2 (List.mem_cons_of_mem _ hc)⟩]
  | one => exact absurd (List.mem_cons_self ..) hbare.2
  | text => exact absurd (List.mem_cons_self ..) hbare.1

/-- It is filled in component by component. -/
theorem forall₂_splitOnP (h : Fills cs ds) :
    List.Forall₂ Fills (cs.splitOnP isSeparator) (ds.splitOnP isSeparator) := by
  have hstar : isSeparator '*' = false := rfl
  have hquestion : isSeparator '?' = false := rfl
  induction h with
  | nil => exact .cons .nil .nil
  | @char cs ds c _ ih =>
    rw [List.splitOnP_cons_eq_if_modifyHead, List.splitOnP_cons_eq_if_modifyHead]
    split
    · exact .cons .nil ih
    · generalize cs.splitOnP isSeparator = ps at ih
      generalize ds.splitOnP isSeparator = qs at ih
      cases ih with
      | nil => exact .nil
      | cons hpq hrest => exact .cons (.char c hpq) hrest
  | @one cs ds d hd _ ih =>
    rw [List.splitOnP_cons_eq_if_modifyHead, List.splitOnP_cons_eq_if_modifyHead,
      if_neg (by simp [hquestion]), if_neg (by simp [hd])]
    generalize cs.splitOnP isSeparator = ps at ih
    generalize ds.splitOnP isSeparator = qs at ih
    cases ih with
    | nil => exact .nil
    | cons hpq hrest => exact .cons (.one hd hpq) hrest
  | @text cs ds w hw _ ih =>
    rw [List.splitOnP_cons_eq_if_modifyHead, splitOnP_append hw, if_neg (by simp [hstar])]
    generalize cs.splitOnP isSeparator = ps at ih
    generalize ds.splitOnP isSeparator = qs at ih
    cases ih with
    | nil => exact .nil
    | cons hpq hrest => exact .cons (.text hw hpq) hrest

end Fills

/-! ## Matching -/

theorem matchSigns_anyText {signs : List GlobSign} :
    matchSigns (.anyText :: signs) ds = true ↔ ∃ u v, ds = u ++ v ∧ matchSigns signs v = true := by
  induction ds with
  | nil =>
    rw [matchSigns]
    constructor
    · exact fun h => ⟨[], [], rfl, h⟩
    · rintro ⟨u, v, huv, h⟩
      obtain ⟨rfl, rfl⟩ := List.append_eq_nil_iff.1 huv.symm
      exact h
  | cons d ds ih =>
    rw [matchSigns, Bool.or_eq_true, ih]
    constructor
    · rintro (h | ⟨u, v, rfl, h⟩)
      · exact ⟨[], d :: ds, rfl, h⟩
      · exact ⟨d :: u, v, rfl, h⟩
    · rintro ⟨u, v, huv, h⟩
      cases u with
      | nil => exact .inl (huv ▸ h)
      | cons e u => exact .inr ⟨u, v, (List.cons.inj huv).2, h⟩

/-- The signs of a text stand for the texts without separators that it can be filled in as. -/
theorem matchSigns_iff (hds : ∀ c ∈ ds, isSeparator c = false) :
    matchSigns (cs.map signOf) ds = true ↔ Fills cs ds := by
  constructor
  · intro h
    induction cs generalizing ds with
    | nil =>
      rw [List.map_nil, matchSigns, decide_eq_true_eq] at h
      exact h ▸ .nil
    | cons c cs ih =>
      rw [List.map_cons] at h
      by_cases hc : c = '*'
      · subst hc
        obtain ⟨u, v, rfl, hv⟩ := matchSigns_anyText.1 h
        exact .text (fun c hc => hds c (List.mem_append_left _ hc))
          (ih (fun c hc => hds c (List.mem_append_right _ hc)) hv)
      · by_cases hquestion : c = '?'
        · subst hquestion
          cases ds with
          | nil => simp [signOf_question, matchSigns] at h
          | cons d ds =>
            rw [signOf_question, matchSigns] at h
            exact .one (hds d (List.mem_cons_self ..))
              (ih (fun c hc => hds c (List.mem_cons_of_mem _ hc)) h)
        · rw [signOf_other hc hquestion] at h
          cases ds with
          | nil => simp [matchSigns] at h
          | cons d ds =>
            rw [matchSigns, Bool.and_eq_true, decide_eq_true_eq] at h
            obtain ⟨rfl, h⟩ := h
            exact .char c (ih (fun c hc => hds c (List.mem_cons_of_mem _ hc)) h)
  · intro h
    clear hds
    induction h with
    | nil =>
      rw [List.map_nil, matchSigns]
      rfl
    | @char cs ds c _ ih =>
      rw [List.map_cons]
      by_cases hc : c = '*'
      · subst hc
        exact matchSigns_anyText.2 ⟨['*'], ds, rfl, ih⟩
      · by_cases hquestion : c = '?'
        · subst hquestion
          rw [signOf_question, matchSigns]
          exact ih
        · rw [signOf_other hc hquestion, matchSigns, ih]
          simp
    | one _ _ ih =>
      rw [List.map_cons, signOf_question, matchSigns]
      exact ih
    | @text cs ds w _ _ ih => exact matchSigns_anyText.2 ⟨w, ds, rfl, ih⟩

/-! ## Components -/

/-- The component of a text. -/
def componentOf (cs : List Char) : GlobComponent :=
  if '*' ∈ cs ∨ '?' ∈ cs then .wild (cs.map signOf) else .literal (.ofList cs)

theorem componentOf_wild (h : ¬ Bare cs) : componentOf cs = .wild (cs.map signOf) := by
  rw [Bare, ← not_or, not_not] at h
  exact if_pos h

theorem componentOf_bare (h : Bare cs) : componentOf cs = .literal (.ofList cs) :=
  if_neg (not_or.2 h)

theorem mapM_char? (h : Bare cs) : (cs.map signOf).mapM GlobSign.char? = some cs := by
  induction cs with
  | nil => rfl
  | cons c cs ih =>
    obtain ⟨hstar, hquestion⟩ := h
    rw [List.mem_cons, not_or] at hstar hquestion
    rw [List.map_cons, signOf_other (Ne.symm hstar.1) (Ne.symm hquestion.1), List.mapM_cons,
      ih ⟨hstar.2, hquestion.2⟩]
    rfl

theorem mapM_char?_of_not_bare (h : ¬ Bare cs) : (cs.map signOf).mapM GlobSign.char? = none := by
  induction cs with
  | nil => exact absurd ⟨List.not_mem_nil, List.not_mem_nil⟩ h
  | cons c cs ih =>
    rw [List.map_cons, List.mapM_cons]
    by_cases hc : c = '*'
    · subst hc
      rfl
    by_cases hquestion : c = '?'
    · subst hquestion
      rfl
    have hcs : ¬ Bare cs := fun hbare =>
      h ⟨List.not_mem_cons_of_ne_of_not_mem (Ne.symm hc) hbare.1,
        List.not_mem_cons_of_ne_of_not_mem (Ne.symm hquestion) hbare.2⟩
    rw [signOf_other hc hquestion, ih hcs]
    rfl

theorem readComponent_eq (h : Starred cs) : readComponent cs = .ok (componentOf cs) := by
  have hdouble : cs ≠ ['*', '*'] := by
    rintro rfl
    exact h.2.1 rfl rfl
  rw [readComponent, if_neg hdouble, readSigns_eq h]
  by_cases hbare : Bare cs
  · rw [componentOf_bare hbare, Except.map, mapM_char? hbare]
  · rw [componentOf_wild hbare, Except.map, mapM_char?_of_not_bare hbare]

/-! ## Patterns -/

variable {parts rest : List (List Char)} {n : Nat}

theorem starred_of_mem_intercalate (h : Starred (['/'].intercalate parts)) :
    ∀ part ∈ parts, Starred part := by
  induction parts with
  | nil => exact fun part hpart => nomatch hpart
  | cons part parts ih =>
    cases parts with
    | nil =>
      rw [List.intercalate_singleton] at h
      exact fun x hx => List.mem_singleton.1 hx ▸ h
    | cons next parts =>
      rw [List.intercalate_cons_cons] at h
      obtain ⟨hfirst, hrest⟩ := h.of_append
      exact List.forall_mem_cons.2 ⟨hfirst.of_append.1, ih hrest⟩

theorem mapM_readComponent (h : ∀ part ∈ parts, Starred part) :
    parts.mapM readComponent = .ok (parts.map componentOf) := by
  induction parts with
  | nil => rfl
  | cons part parts ih =>
    obtain ⟨hpart, hparts⟩ := List.forall_mem_cons.1 h
    rw [List.mapM_cons, readComponent_eq hpart, ih hparts]
    rfl

theorem splitOn_intercalate (hne : parts ≠ []) (h : ∀ part ∈ parts, Solid part) :
    (['/'].intercalate parts).splitOn '/' = parts := by
  refine List.splitOn_intercalate '/' (fun part hpart hslash => ?_) hne
  have hseparator := (h part hpart).not_isSeparator '/' hslash
  cases hseparator

/-- The directory that a path starts from: the root, or one above the present one by so many. -/
def baseOf (absolute : Bool) (n : Nat) : String :=
  if absolute then "/" else if n = 0 then "."
    else .ofList (['/'].intercalate (List.replicate n ['.', '.']))

theorem takeBase_replicate (h : rest.head? ≠ some ['.', '.']) :
    takeBase (List.replicate n ['.', '.'] ++ rest) = (List.replicate n ['.', '.'], rest) := by
  induction n with
  | zero =>
    rw [List.replicate_zero, List.nil_append]
    unfold takeBase
    split
    · exact absurd rfl h
    · rfl
  | succ n ih => rw [List.replicate_succ, List.cons_append, takeBase, ih]

theorem solid_replicate_append (h : ∀ part ∈ rest, Solid part) :
    ∀ part ∈ List.replicate n ['.', '.'] ++ rest, Solid part := by
  intro part hpart
  rcases List.mem_append.1 hpart with hpart | hpart
  · exact List.eq_of_mem_replicate hpart ▸ solid_up
  · exact h part hpart

theorem read_rooted (h : Starred ('/' :: ['/'].intercalate rest))
    (hrest : ∀ part ∈ rest, Solid part) :
    Glob.read (.ofList ('/' :: ['/'].intercalate rest)) =
      .ok ⟨baseOf true 0, rest.map componentOf⟩ := by
  have hsplit : ((['/'].intercalate rest).splitOn '/').filter (· ≠ []) = rest := by
    by_cases hne : rest = []
    · rw [hne]
      rfl
    · rw [splitOn_intercalate hne hrest]
      exact List.filter_eq_self.2 fun part hpart => by simpa using (hrest part hpart).ne_nil
  unfold Glob.read
  simp only [String.toList_ofList, readSigns_eq h, hsplit,
    mapM_readComponent (starred_of_mem_intercalate h.2.2)]
  rfl

theorem read_relative (hne : List.replicate n ['.', '.'] ++ rest ≠ [])
    (h : Starred (['/'].intercalate (List.replicate n ['.', '.'] ++ rest)))
    (hrest : ∀ part ∈ rest, Solid part) (hhead : rest.head? ≠ some ['.', '.']) :
    Glob.read (.ofList (['/'].intercalate (List.replicate n ['.', '.'] ++ rest))) =
      .ok ⟨baseOf false n, rest.map componentOf⟩ := by
  have hsolid : ∀ part ∈ List.replicate n ['.', '.'] ++ rest, Solid part :=
    solid_replicate_append hrest
  have hstarred : ∀ part ∈ rest, Starred part := fun part hpart =>
    starred_of_mem_intercalate h part (List.mem_append_right _ hpart)
  obtain ⟨c, cs, hjoined, hc⟩ := exists_head_intercalate hne hsolid
  have hsplit := splitOn_intercalate hne hsolid
  have hbase : (if List.replicate n ['.', '.'] = [] then "." else
      String.ofList (['/'].intercalate (List.replicate n ['.', '.']))) = baseOf false n := by
    simp [baseOf]
  unfold Glob.read
  simp only [String.toList_ofList, readSigns_eq h]
  rw [hjoined] at hsplit ⊢
  split
  · next heq =>
    cases heq
    cases hc
  · simp only [hsplit, takeBase_replicate hhead, mapM_readComponent hstarred, hbase]
    rfl

end Stencil.Path
