import Stencil.Proofs.Path.Normal

/-!
# Canonical paths

The normal forms are the paths of two forms: a slash and plain components behind it, or a relative
path that goes up first, as often as it needs, and then down through plain components
(`normalize_canonical`). What makes them so is an invariant of the components that are kept
(`Settled`): every further component keeps it (`settled_pushComponent`), and components for which it
holds are all kept (`foldl_settled`).
-/

namespace Stencil.Path

variable {absolute other : Bool} {kept parts : List (List Char)} {part last cs : List Char}

/-! ## One more component -/

/-- A component vanishes, goes up, or stands for itself. -/
theorem component_cases (part : List Char) :
    (part = [] ∨ part = ['.']) ∨ part = ['.', '.'] ∨ Ordinary part := by
  unfold Ordinary
  tauto

theorem pushComponent_blank (h : part = [] ∨ part = ['.']) :
    pushComponent absolute kept part = kept := by
  rcases h with rfl | rfl <;> rfl

theorem pushComponent_up_up : pushComponent absolute (['.', '.'] :: kept) ['.', '.'] =
    if absolute then ['.', '.'] :: kept else ['.', '.'] :: ['.', '.'] :: kept := rfl

/-- An ordinary component is taken back. -/
theorem pushComponent_up (h : Ordinary last) :
    pushComponent absolute (last :: kept) ['.', '.'] = kept :=
  if_neg h.2.2

/-! ## Components that are kept -/

/-- A component that can stand between separators. -/
structure Solid (part : List Char) : Prop where
  ne_nil : part ≠ []
  not_isSeparator : ∀ c ∈ part, isSeparator c = false

/-- A component that stands for itself. -/
structure Plain (part : List Char) : Prop where
  ordinary : Ordinary part
  not_isSeparator : ∀ c ∈ part, isSeparator c = false

theorem Plain.solid (h : Plain part) : Solid part := ⟨h.ordinary.1, h.not_isSeparator⟩

theorem solid_up : Solid ['.', '.'] := ⟨List.cons_ne_nil _ _, by simp [isSeparator]⟩

/-- What can be kept, the latest first: plain components, and in front of them two dots any number
of times, though never in an absolute path. -/
inductive Settled (absolute : Bool) : List (List Char) → Prop
  | ups (n : Nat) : (absolute = true → n = 0) → Settled absolute (List.replicate n ['.', '.'])
  | plain {part : List Char} {kept : List (List Char)} :
    Plain part → Settled absolute kept → Settled absolute (part :: kept)

theorem settled_nil : Settled absolute [] := .ups 0 fun _ => rfl

/-- Every component keeps it so. -/
theorem settled_pushComponent (hpart : ∀ c ∈ part, isSeparator c = false)
    (h : Settled absolute kept) : Settled absolute (pushComponent absolute kept part) := by
  rcases component_cases part with hblank | rfl | hordinary
  · rwa [pushComponent_blank hblank]
  · cases h with
    | ups n hn =>
      cases n with
      | zero =>
        cases absolute
        · exact .ups 1 (by simp)
        · exact settled_nil
      | succ n =>
        have hrelative : absolute = false := by simpa using hn
        subst hrelative
        exact .ups (n + 2) (by simp)
    | plain hlast hbefore => rwa [pushComponent_up hlast.ordinary]
  · rw [pushComponent_ordinary hordinary]
    exact .plain ⟨hordinary, hpart⟩ h

theorem settled_foldl (hparts : ∀ part ∈ parts, ∀ c ∈ part, isSeparator c = false)
    (h : Settled absolute kept) : Settled absolute (parts.foldl (pushComponent absolute) kept) := by
  induction parts generalizing kept with
  | nil => exact h
  | cons part parts ih =>
    exact ih (fun x hx => hparts x (List.mem_cons_of_mem _ hx))
      (settled_pushComponent (hparts part (List.mem_cons_self ..)) h)

theorem settled_keep (hparts : ∀ part ∈ parts, ∀ c ∈ part, isSeparator c = false) :
    Settled absolute (keep absolute parts).reverse := by
  rw [keep, List.reverse_reverse]
  exact settled_foldl hparts settled_nil

namespace Settled

theorem tail (h : Settled absolute (part :: kept)) : Settled absolute kept := by
  generalize hx : part :: kept = xs at h
  cases h with
  | ups n hn =>
    cases n with
    | zero => cases hx
    | succ n =>
      cases hx
      exact .ups n fun habsolute => absurd (hn habsolute) (Nat.succ_ne_zero n)
  | plain hpart hkept =>
    cases hx
    exact hkept

theorem of_append (h : Settled absolute (parts ++ kept)) : Settled absolute kept := by
  induction parts with
  | nil => exact h
  | cons part parts ih => exact ih h.tail

/-- Where the component keeps it so, it is kept. -/
theorem pushComponent_eq (h : Settled absolute (part :: kept)) :
    pushComponent absolute kept part = part :: kept := by
  generalize hx : part :: kept = xs at h
  cases h with
  | ups n hn =>
    cases n with
    | zero => cases hx
    | succ n =>
      have hrelative : absolute = false := by simpa using hn
      cases hx
      cases n <;> subst hrelative <;> rfl
  | plain hpart =>
    cases hx
    exact pushComponent_ordinary hpart.ordinary

theorem solid (h : Settled absolute kept) : ∀ part ∈ kept, Solid part := by
  induction h with
  | ups n =>
    intro part hpart
    rw [List.eq_of_mem_replicate hpart]
    exact solid_up
  | plain hpart _ ih => exact List.forall_mem_cons.2 ⟨hpart.solid, ih⟩

end Settled

/-- Components for which it holds are all kept. -/
theorem foldl_settled (h : Settled absolute (parts.reverse ++ kept)) :
    parts.foldl (pushComponent absolute) kept = parts.reverse ++ kept := by
  induction parts generalizing kept with
  | nil => rfl
  | cons part parts ih =>
    rw [List.reverse_cons, List.append_assoc, List.singleton_append] at h ⊢
    rw [List.foldl_cons, h.of_append.pushComponent_eq]
    exact ih h

theorem settled_iff : Settled absolute kept ↔ ∃ n rest, kept = rest ++ List.replicate n ['.', '.'] ∧
    (absolute = true → n = 0) ∧ ∀ part ∈ rest, Plain part := by
  constructor
  · intro h
    induction h with
    | ups n hn => exact ⟨n, [], rfl, hn, by simp⟩
    | @plain part _ hpart _ ih =>
      obtain ⟨n, rest, rfl, hn, hrest⟩ := ih
      exact ⟨n, part :: rest, rfl, hn, List.forall_mem_cons.2 ⟨hpart, hrest⟩⟩
  · rintro ⟨n, rest, rfl, hn, hrest⟩
    induction rest with
    | nil => exact .ups n hn
    | cons part rest ih =>
      obtain ⟨hpart, hrest⟩ := List.forall_mem_cons.1 hrest
      exact .plain hpart (ih hrest)

/-! ## Texts of components -/

/-- The path of these components. -/
def spell (absolute : Bool) (parts : List (List Char)) : List Char :=
  let joined := ['/'].intercalate parts
  if absolute then '/' :: joined else if joined = [] then ['.'] else joined

theorem normalizeChars_eq_spell (cs : List Char) :
    normalizeChars cs = spell (isAbsolute cs) (components cs) := rfl

theorem settled_components (cs : List Char) : Settled (isAbsolute cs) (components cs).reverse :=
  settled_keep fun _ hpart _ hc => not_isSeparator_of_mem_splitOnP hpart hc

theorem splitOnP_intercalate (hne : parts ≠ []) (h : ∀ part ∈ parts, Solid part) :
    (['/'].intercalate parts).splitOnP isSeparator = parts := by
  induction parts with
  | nil => exact absurd rfl hne
  | cons part parts ih =>
    obtain ⟨hpart, hparts⟩ := List.forall_mem_cons.1 h
    cases parts with
    | nil =>
      rw [List.intercalate_singleton]
      exact List.splitOnP_eq_singleton hpart.not_isSeparator
    | cons next parts =>
      rw [List.intercalate_cons_cons, List.append_assoc, List.singleton_append,
        List.splitOnP_append_cons_of_forall_mem hpart.not_isSeparator '/' rfl,
        ih (List.cons_ne_nil _ _) hparts]

/-- What is joined begins with the first character of the first component. -/
theorem exists_head_intercalate (hne : parts ≠ []) (h : ∀ part ∈ parts, Solid part) :
    ∃ c cs, ['/'].intercalate parts = c :: cs ∧ isSeparator c = false := by
  obtain ⟨part, parts, rfl⟩ := List.exists_cons_of_ne_nil hne
  have hpart := h part (List.mem_cons_self ..)
  obtain ⟨c, part, rfl⟩ := List.exists_cons_of_ne_nil hpart.ne_nil
  have hc := hpart.not_isSeparator c (List.mem_cons_self ..)
  cases parts with
  | nil => exact ⟨c, part, List.intercalate_singleton, hc⟩
  | cons next parts => exact ⟨c, _, List.intercalate_cons_cons, hc⟩

theorem isAbsolute_spell (h : ∀ part ∈ parts, Solid part) :
    isAbsolute (spell absolute parts) = absolute := by
  cases absolute with
  | true => rfl
  | false =>
    by_cases hne : parts = []
    · rw [hne]
      rfl
    · obtain ⟨c, cs, hjoined, hc⟩ := exists_head_intercalate hne h
      rw [spell, hjoined]
      exact hc

/-- To go on with the components of a path is to go on with the path. -/
theorem foldl_splitOnP_spell (h : ∀ part ∈ parts, Solid part) (kept : List (List Char)) :
    ((spell absolute parts).splitOnP isSeparator).foldl (pushComponent other) kept =
      parts.foldl (pushComponent other) kept := by
  by_cases hne : parts = []
  · subst hne
    cases absolute <;> rfl
  · obtain ⟨c, cs, hjoined, -⟩ := exists_head_intercalate hne h
    have hsplit := splitOnP_intercalate hne h
    cases absolute with
    | true =>
      have hslash : ('/' :: ['/'].intercalate parts).splitOnP isSeparator = [] :: parts := by
        rw [List.splitOnP_cons_eq_if_modifyHead, if_pos (by decide), hsplit]
      rw [spell, if_pos rfl, hslash]
      rfl
    | false => rw [spell, if_neg Bool.false_ne_true, if_neg (by simp [hjoined]), hsplit]

theorem components_spell (h : Settled absolute parts.reverse) :
    components (spell absolute parts) = parts := by
  have hsolid : ∀ part ∈ parts, Solid part := fun part hpart =>
    h.solid part (List.mem_reverse.2 hpart)
  have hkept : parts.foldl (pushComponent absolute) [] = parts.reverse ++ [] :=
    foldl_settled (by rwa [List.append_nil])
  rw [components, isAbsolute_spell hsolid, foldl_splitOnP_spell hsolid, hkept, List.append_nil,
    List.reverse_reverse]

theorem normalizeChars_spell (h : Settled absolute parts.reverse) :
    normalizeChars (spell absolute parts) = spell absolute parts := by
  rw [normalizeChars_eq_spell, components_spell h,
    isAbsolute_spell fun part hpart => h.solid part (List.mem_reverse.2 hpart)]

theorem isAbsolute_normalizeChars (cs : List Char) :
    isAbsolute (normalizeChars cs) = isAbsolute cs :=
  isAbsolute_spell fun part hpart => (settled_components cs).solid part (List.mem_reverse.2 hpart)

theorem components_normalizeChars (cs : List Char) :
    components (normalizeChars cs) = components cs :=
  components_spell (settled_components cs)

/-! ## The two forms -/

/-- An absolute path in canonical form: a slash, and plain components with a slash between each
two. -/
def IsRooted (cs : List Char) : Prop :=
  ∃ parts, (∀ part ∈ parts, Plain part) ∧ cs = '/' :: ['/'].intercalate parts

/-- A relative path in canonical form: a single dot, or two dots any number of times and plain
components behind them, one component at least, with a slash between each two. -/
def IsRelative (cs : List Char) : Prop :=
  cs = ['.'] ∨ ∃ n parts, (∀ part ∈ parts, Plain part) ∧ List.replicate n ['.', '.'] ++ parts ≠ [] ∧
    cs = ['/'].intercalate (List.replicate n ['.', '.'] ++ parts)

theorem isRooted_iff :
    IsRooted cs ↔ ∃ parts, Settled true parts.reverse ∧ cs = spell true parts := by
  constructor
  · rintro ⟨parts, hparts, rfl⟩
    exact ⟨parts, settled_iff.2 ⟨0, parts.reverse, by simp, fun _ => rfl, by simpa using hparts⟩,
      rfl⟩
  · rintro ⟨parts, hparts, rfl⟩
    obtain ⟨n, rest, hrest, hn, hplain⟩ := settled_iff.1 hparts
    rw [hn rfl, List.replicate_zero, List.append_nil] at hrest
    subst hrest
    exact ⟨parts, by simpa using hplain, rfl⟩

theorem isRelative_iff :
    IsRelative cs ↔ ∃ parts, Settled false parts.reverse ∧ cs = spell false parts := by
  constructor
  · rintro (rfl | ⟨n, parts, hparts, hne, rfl⟩)
    · exact ⟨[], settled_nil, rfl⟩
    · have hsettled : Settled false (List.replicate n ['.', '.'] ++ parts).reverse :=
        settled_iff.2 ⟨n, parts.reverse, by simp, by simp, by simpa using hparts⟩
      obtain ⟨c, cs, hjoined, -⟩ :=
        exists_head_intercalate hne fun part hpart => hsettled.solid part (List.mem_reverse.2 hpart)
      exact ⟨_, hsettled, by rw [spell, if_neg Bool.false_ne_true, if_neg (by simp [hjoined])]⟩
  · rintro ⟨parts, hparts, rfl⟩
    by_cases hne : parts = []
    · exact .inl (by rw [hne]; rfl)
    obtain ⟨n, rest, hrest, -, hplain⟩ := settled_iff.1 hparts
    obtain ⟨c, cs, hjoined, -⟩ :=
      exists_head_intercalate hne fun part hpart => hparts.solid part (List.mem_reverse.2 hpart)
    have heq : parts = List.replicate n ['.', '.'] ++ rest.reverse := by
      rw [← List.reverse_reverse parts, hrest]
      simp
    refine .inr ⟨n, rest.reverse, by simpa using hplain, heq ▸ hne, ?_⟩
    rw [spell, if_neg Bool.false_ne_true, if_neg (by simp [hjoined]), heq]

/-- A normal form has the form of its kind. -/
theorem form_normalizeChars (cs : List Char) :
    if isAbsolute cs = true then IsRooted (normalizeChars cs)
      else IsRelative (normalizeChars cs) := by
  have hsettled := settled_components cs
  rw [normalizeChars_eq_spell]
  cases habsolute : isAbsolute cs with
  | true => exact isRooted_iff.2 ⟨_, habsolute ▸ hsettled, rfl⟩
  | false => exact isRelative_iff.2 ⟨_, habsolute ▸ hsettled, rfl⟩

/-- A path is in normal form if it has one of the two forms. -/
theorem normalizeChars_eq_self_iff : normalizeChars cs = cs ↔ IsRooted cs ∨ IsRelative cs := by
  constructor
  · intro h
    have hform := form_normalizeChars cs
    rw [h] at hform
    split at hform
    · exact .inl hform
    · exact .inr hform
  · rw [isRooted_iff, isRelative_iff]
    rintro (⟨parts, hparts, rfl⟩ | ⟨parts, hparts, rfl⟩) <;> exact normalizeChars_spell hparts

theorem isAbsolute_iff_head? :
    isAbsolute cs = true ↔ cs.head? = some '/' ∨ cs.head? = some '\\' := by
  cases cs with
  | nil => simp [isAbsolute]
  | cons c cs => simp [isAbsolute, isSeparator_iff]

/-- A normal form is absolute if it begins with a slash. -/
theorem head?_normalizeChars : (normalizeChars cs).head? = some '/' ↔ isAbsolute cs = true := by
  rw [← isAbsolute_normalizeChars, isAbsolute_iff_head?]
  refine ⟨.inl, fun h => h.resolve_right fun hback => ?_⟩
  exact backslash_not_mem_normalizeChars cs (List.mem_of_mem_head? hback)

theorem toList_normalize (s : String) : (normalize s).toList = normalizeChars s.toList :=
  String.toList_ofList

theorem normalize_eq_self_iff {s : String} :
    normalize s = s ↔ IsRooted s.toList ∨ IsRelative s.toList := by
  rw [← normalizeChars_eq_self_iff, ← toList_normalize, String.toList_inj]

/-- **Normal forms are the canonical paths.** A normal form holds no backslash, and begins with a
slash if the path begins with a slash of either kind. If it does, it is a slash and components that
are neither empty nor one or two dots, with a slash between each two. If it does not, it is a single
dot, or two dots any number of times and such components behind them. All paths of these two forms
are in normal form, and no others are. So a normal form is in normal form. -/
theorem normalize_canonical (s : String) :
    '\\' ∉ (normalize s).toList ∧
      ((normalize s).toList.head? = some '/' ↔
        s.toList.head? = some '/' ∨ s.toList.head? = some '\\') ∧
      (if (normalize s).toList.head? = some '/' then IsRooted (normalize s).toList
        else IsRelative (normalize s).toList) ∧
      (normalize s = s ↔ IsRooted s.toList ∨ IsRelative s.toList) ∧
      normalize (normalize s) = normalize s := by
  refine ⟨?_, ?_, ?_, normalize_eq_self_iff, ?_⟩
  · rw [toList_normalize]
    exact backslash_not_mem_normalizeChars _
  · rw [toList_normalize, head?_normalizeChars, isAbsolute_iff_head?]
  · simp only [toList_normalize, head?_normalizeChars]
    exact form_normalizeChars s.toList
  · have hagain : normalizeChars (normalizeChars s.toList) = normalizeChars s.toList :=
      normalizeChars_spell (settled_components s.toList)
    rw [normalize, toList_normalize, hagain, normalize]

/-- Dots are resolved, and what leads above the root vanishes, but not what leads above the present
directory. -/
example : normalize "/../a//./b/..\\c" = "/a/c" ∧ normalize "a/./../../b/" = "../b" := by
  decide +kernel

end Stencil.Path
