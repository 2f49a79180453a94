import Stencil.Path.Normal
import Mathlib.Data.List.Forall2

/-!
# What normalization takes away

A normal form holds no backslash. Every component that normalization drops or takes back goes with a
slash, so a path without backslashes is in normal form as soon as its normal form has as many
slashes and as many dots (`normalizeChars_eq_self`). Normalization looks at a component only to see
if it is empty or made of dots: words of letters and digits may be exchanged in a path in normal
form (`Similar.normalizeChars_eq_self`).
-/

namespace Stencil.Path

variable {absolute : Bool} {kept parts : List (List Char)} {part cs : List Char} {c : Char}

/-! ## Splitting at separators -/

theorem isSeparator_iff : isSeparator c = true ↔ c = '/' ∨ c = '\\' := by simp [isSeparator]

/-- Between separators stands what is none. -/
theorem not_isSeparator_of_mem_splitOnP (hpart : part ∈ cs.splitOnP isSeparator) (hc : c ∈ part) :
    isSeparator c = false := by
  induction cs generalizing part with
  | nil =>
    rw [List.splitOnP_nil, List.mem_singleton] at hpart
    subst hpart
    cases hc
  | cons d cs ih =>
    rw [List.splitOnP_cons_eq_if_modifyHead] at hpart
    split at hpart
    · rcases List.mem_cons.1 hpart with rfl | hpart
      · cases hc
      · exact ih hpart hc
    · next hd =>
      obtain ⟨first, rest, hsplit⟩ :=
        List.exists_cons_of_ne_nil (List.splitOnP_ne_nil isSeparator cs)
      rw [hsplit, List.modifyHead_cons] at hpart
      rcases List.mem_cons.1 hpart with rfl | hpart
      · rcases List.mem_cons.1 hc with rfl | hc
        · simpa using hd
        · exact ih (hsplit ▸ List.mem_cons_self ..) hc
      · exact ih (hsplit ▸ List.mem_cons_of_mem _ hpart) hc

/-- Without backslashes, components are joined as they were. -/
theorem intercalate_splitOnP (h : '\\' ∉ cs) :
    ['/'].intercalate (cs.splitOnP isSeparator) = cs := by
  have hsame : cs.splitOnP isSeparator = cs.splitOn '/' := by
    rw [List.splitOn_eq_splitOnP]
    induction cs with
    | nil => rfl
    | cons d cs ih =>
      obtain ⟨hd, hcs⟩ := not_or.1 (List.mem_cons.not.1 h)
      have hsep : isSeparator d = (d == '/') := by simp [isSeparator, Ne.symm hd]
      rw [List.splitOnP_cons_eq_if_modifyHead, List.splitOnP_cons_eq_if_modifyHead, hsep, ih hcs]
  rw [hsame, List.intercalate_splitOn]

theorem splitOnP_of_count (hback : '\\' ∉ cs) (hslash : cs.count '/' = 0) :
    cs.splitOnP isSeparator = [cs] := by
  refine List.splitOnP_eq_singleton fun c hc => ?_
  rw [Bool.eq_false_iff]
  intro hsep
  rcases isSeparator_iff.1 hsep with rfl | rfl
  · exact List.count_eq_zero.1 hslash hc
  · exact hback hc

/-- What stands before the first separator is put before the first component. -/
theorem splitOnP_append {w : List Char} (hw : ∀ c ∈ w, isSeparator c = false) (cs : List Char) :
    (w ++ cs).splitOnP isSeparator = (cs.splitOnP isSeparator).modifyHead (w ++ ·) := by
  obtain ⟨first, rest, hsplit⟩ := List.exists_cons_of_ne_nil (List.splitOnP_ne_nil isSeparator cs)
  induction w with
  | nil => simp [hsplit]
  | cons d w ih =>
    have ih := ih fun c hc => hw c (List.mem_cons_of_mem _ hc)
    have hd := hw d (List.mem_cons_self ..)
    rw [List.cons_append, List.splitOnP_cons_eq_if_modifyHead, if_neg (by simp [hd]), ih, hsplit]
    rfl

/-- A path starts at the root if there is a separator in front of its first component. -/
theorem isAbsolute_iff_splitOnP :
    isAbsolute cs = true ↔ ∃ part parts, cs.splitOnP isSeparator = [] :: part :: parts := by
  cases cs with
  | nil => simp [isAbsolute]
  | cons c cs =>
    obtain ⟨first, rest, hsplit⟩ := List.exists_cons_of_ne_nil (List.splitOnP_ne_nil isSeparator cs)
    rw [isAbsolute, List.splitOnP_cons_eq_if_modifyHead, hsplit]
    by_cases hc : isSeparator c = true <;> simp [hc]

/-! ## Components that are kept -/

/-- The sum of a measure of components. -/
def total (size : List Char → Nat) : List (List Char) → Nat
  | [] => 0
  | part :: parts => size part + total size parts

section

variable {size : List Char → Nat}

@[simp] theorem total_nil : total size [] = 0 := rfl

@[simp] theorem total_cons (part : List Char) (parts : List (List Char)) :
    total size (part :: parts) = size part + total size parts := rfl

theorem total_reverse_append (parts kept : List (List Char)) :
    total size (parts.reverse ++ kept) = total size parts + total size kept := by
  induction parts generalizing kept with
  | nil => rw [List.reverse_nil, List.nil_append, total_nil, Nat.zero_add]
  | cons part parts ih =>
    rw [List.reverse_cons, List.append_assoc, List.singleton_append, ih, total_cons, total_cons]
    omega

theorem pushComponent_cases (absolute : Bool) (kept : List (List Char)) (part : List Char) :
    pushComponent absolute kept part = part :: kept ∨
      total size (pushComponent absolute kept part) ≤ total size kept := by
  unfold pushComponent
  split
  · exact .inr (Nat.le_refl _)
  split
  · cases kept with
    | nil => cases absolute <;> simp
    | cons last before =>
      simp only
      split
      · cases absolute <;> simp
      · exact .inr (by rw [total_cons]; omega)
  · exact .inl rfl

/-- All components are kept, or their measure gets less. -/
theorem foldl_pushComponent_cases (hsize : ∀ p, 0 < size p) (absolute : Bool)
    (parts kept : List (List Char)) :
    parts.foldl (pushComponent absolute) kept = parts.reverse ++ kept ∨
      total size (parts.foldl (pushComponent absolute) kept) <
        total size parts + total size kept := by
  induction parts generalizing kept with
  | nil => exact .inl rfl
  | cons part parts ih =>
    have hpart := hsize part
    rw [List.foldl_cons, total_cons]
    rcases @pushComponent_cases size absolute kept part with hpush | hpush
    · rw [hpush]
      refine (ih (part :: kept)).imp (fun heq => ?_) fun hlt => ?_
      · rw [heq, List.reverse_cons, List.append_assoc]
        rfl
      · rw [total_cons] at hlt
        omega
    · right
      rcases ih (pushComponent absolute kept part) with heq | hlt
      · rw [heq, total_reverse_append]
        omega
      · omega

/-- The components that are kept of a list, in order. -/
def keep (absolute : Bool) (parts : List (List Char)) : List (List Char) :=
  (parts.foldl (pushComponent absolute) []).reverse

theorem keep_cases (hsize : ∀ p, 0 < size p) (absolute : Bool) (parts : List (List Char)) :
    keep absolute parts = parts ∨ total size (keep absolute parts) < total size parts := by
  refine (foldl_pushComponent_cases hsize absolute parts []).imp (fun heq => ?_) fun hlt => ?_
  · rw [keep, heq, List.append_nil, List.reverse_reverse]
  · have hreverse := @total_reverse_append size (parts.foldl (pushComponent absolute) []) []
    rw [List.append_nil] at hreverse
    rwa [keep, hreverse]

end

theorem total_one (parts : List (List Char)) : total (fun _ => 1) parts = parts.length := by
  induction parts with
  | nil => rfl
  | cons part parts ih => rw [total_cons, ih, List.length_cons, Nat.add_comm]

/-- The slashes in a component and the one at its end. -/
def slashes (part : List Char) : Nat := part.count '/' + 1

/-- All components but the last end at a slash. -/
theorem count_intercalate (h : parts ≠ []) :
    (['/'].intercalate parts).count '/' + 1 = total slashes parts := by
  induction parts with
  | nil => exact absurd rfl h
  | cons part parts ih =>
    cases parts with
    | nil => simp [slashes]
    | cons next parts =>
      have ih := ih (List.cons_ne_nil _ _)
      rw [List.intercalate_cons_cons, List.count_append, List.count_append, total_cons, ← ih,
        slashes]
      simp only [List.count_singleton_self]
      omega

/-- A single component that is not kept is empty or made of dots. -/
theorem eq_of_keep_singleton (h : keep absolute [part] = []) :
    part = [] ∨ part = ['.'] ∨ (absolute = true ∧ part = ['.', '.']) := by
  rw [keep, List.foldl_cons, List.foldl_nil, List.reverse_eq_nil_iff, pushComponent] at h
  split at h
  · next hempty =>
    simp only [Bool.or_eq_true, decide_eq_true_eq] at hempty
    exact hempty.imp_right .inl
  split at h
  · next hdots =>
    cases absolute
    · cases h
    · exact .inr (.inr ⟨rfl, hdots⟩)
  · cases h

/-- If no slash is lost, no component is lost. -/
theorem keep_eq_of_count (hback : '\\' ∉ cs) (hne : keep absolute (cs.splitOnP isSeparator) ≠ [])
    (hcount : (['/'].intercalate (keep absolute (cs.splitOnP isSeparator))).count '/' =
      cs.count '/') :
    keep absolute (cs.splitOnP isSeparator) = cs.splitOnP isSeparator := by
  have hpos : ∀ part, 0 < slashes part := fun _ => Nat.succ_pos _
  refine (keep_cases hpos absolute _).resolve_right fun hlt => ?_
  have hkept := count_intercalate hne
  have hall := count_intercalate (List.splitOnP_ne_nil isSeparator cs)
  rw [intercalate_splitOnP hback] at hall
  omega

/-! ## Normal forms -/

theorem mem_pushComponent {x : List Char} (h : x ∈ pushComponent absolute kept part) :
    x = part ∨ x ∈ kept := by
  unfold pushComponent at h
  split at h
  · exact .inr h
  split at h
  · cases kept with
    | nil => cases absolute <;> simp_all
    | cons last before =>
      simp only at h
      split at h
      · cases absolute
        · exact List.mem_cons.1 h
        · exact .inr h
      · exact .inr (List.mem_cons_of_mem _ h)
  · exact List.mem_cons.1 h

theorem mem_foldl_pushComponent {x : List Char}
    (h : x ∈ parts.foldl (pushComponent absolute) kept) : x ∈ parts ∨ x ∈ kept := by
  induction parts generalizing kept with
  | nil => exact .inr h
  | cons part parts ih =>
    rcases ih h with hx | hx
    · exact .inl (List.mem_cons_of_mem _ hx)
    · rcases mem_pushComponent hx with rfl | hx
      · exact .inl (List.mem_cons_self ..)
      · exact .inr hx

theorem mem_intercalate (h : c ∈ ['/'].intercalate parts) : c = '/' ∨ ∃ part ∈ parts, c ∈ part := by
  induction parts with
  | nil => cases h
  | cons part parts ih =>
    cases parts with
    | nil => exact .inr ⟨part, List.mem_cons_self .., by simpa using h⟩
    | cons next parts =>
      rw [List.intercalate_cons_cons, List.mem_append, List.mem_append, List.mem_singleton] at h
      rcases h with (h | h) | h
      · exact .inr ⟨part, List.mem_cons_self .., h⟩
      · exact .inl h
      · exact (ih h).imp_right fun ⟨x, hx, hc⟩ => ⟨x, List.mem_cons_of_mem _ hx, hc⟩

/-- A normal form holds no backslash. -/
theorem backslash_not_mem_normalizeChars (cs : List Char) : '\\' ∉ normalizeChars cs := by
  have hjoined : '\\' ∉ ['/'].intercalate (components cs) := by
    intro h
    rcases mem_intercalate h with h | ⟨part, hpart, h⟩
    · cases h
    · rcases mem_foldl_pushComponent (List.mem_reverse.1 hpart) with hpart | hpart
      · have hsep := not_isSeparator_of_mem_splitOnP hpart h
        cases hsep
      · cases hpart
  unfold normalizeChars
  simp only
  split
  · simpa using hjoined
  · split
    · simp
    · exact hjoined

/-- A path without backslashes begins at the root or does not. -/
theorem normalizeChars_eq_or (hback : '\\' ∉ cs) :
    (∃ rest, cs = '/' :: rest ∧ '\\' ∉ rest ∧
      normalizeChars cs = '/' :: ['/'].intercalate (keep true (rest.splitOnP isSeparator))) ∨
    (isAbsolute cs = false ∧ normalizeChars cs =
      if ['/'].intercalate (keep false (cs.splitOnP isSeparator)) = [] then ['.']
      else ['/'].intercalate (keep false (cs.splitOnP isSeparator))) := by
  cases habs : isAbsolute cs with
  | false => exact .inr ⟨rfl, by rw [normalizeChars, components, habs]; rfl⟩
  | true =>
    cases cs with
    | nil => cases habs
    | cons c rest =>
      rcases isSeparator_iff.1 habs with rfl | rfl
      · refine .inl ⟨rest, rfl, fun h => hback (List.mem_cons_of_mem _ h), ?_⟩
        have hsplit : ('/' :: rest).splitOnP isSeparator = [] :: rest.splitOnP isSeparator := by
          rw [List.splitOnP_cons_eq_if_modifyHead, if_pos (by decide)]
        rw [normalizeChars, components, habs, hsplit]
        rfl
      · exact absurd (List.mem_cons_self ..) hback

/-- A path without separators that comes to nothing is empty or the present directory. -/
theorem eq_of_intercalate_keep_eq_nil (hback : '\\' ∉ cs) (hslash : cs.count '/' = 0)
    (hempty : ['/'].intercalate (keep false (cs.splitOnP isSeparator)) = []) :
    cs = [] ∨ cs = ['.'] := by
  have hsingle := splitOnP_of_count hback hslash
  by_cases hnil : keep false (cs.splitOnP isSeparator) = []
  · rw [hsingle] at hnil
    rcases eq_of_keep_singleton hnil with rfl | rfl | ⟨hfalse, -⟩
    · exact .inl rfl
    · exact .inr rfl
    · cases hfalse
  · have hkept := keep_eq_of_count hback hnil (by rw [hempty, hslash]; rfl)
    rw [hkept, intercalate_splitOnP hback] at hempty
    exact .inl hempty

/-- A path that normalization takes no slash and no dot from is in normal form. -/
theorem normalizeChars_eq_self (hback : '\\' ∉ cs)
    (hslash : (normalizeChars cs).count '/' = cs.count '/')
    (hdot : (normalizeChars cs).count '.' = cs.count '.') : normalizeChars cs = cs := by
  obtain ⟨rest, rfl, hrest, hnormal⟩ | ⟨-, hnormal⟩ := normalizeChars_eq_or hback
  · rw [hnormal] at hslash hdot ⊢
    rw [List.count_cons_self, List.count_cons_self, Nat.add_right_cancel_iff] at hslash
    by_cases hnil : keep true (rest.splitOnP isSeparator) = []
    · rw [hnil] at hslash hdot
      rw [splitOnP_of_count hrest hslash.symm] at hnil ⊢
      rcases eq_of_keep_singleton hnil with rfl | rfl | ⟨-, rfl⟩
      · rfl
      · cases hdot
      · cases hdot
    · rw [keep_eq_of_count hrest hnil hslash, intercalate_splitOnP hrest]
  · rw [hnormal] at hslash hdot ⊢
    split at hslash
    · next hempty =>
      rw [if_pos hempty] at hdot ⊢
      -- The normal form of the empty path has a dot more.
      rcases eq_of_intercalate_keep_eq_nil hback hslash.symm hempty with rfl | rfl
      · cases hdot
      · rfl
    · next hempty =>
      have hnil : keep false (cs.splitOnP isSeparator) ≠ [] := fun h => hempty (by rw [h]; rfl)
      rw [if_neg hempty, keep_eq_of_count hback hnil hslash, intercalate_splitOnP hback]

/-! ## Words in paths -/

/-- A component that is not empty and not made of dots. -/
def Ordinary (part : List Char) : Prop := part ≠ [] ∧ part ≠ ['.'] ∧ part ≠ ['.', '.']

theorem Ordinary.cons (h : Ordinary part) (c : Char) : Ordinary (c :: part) := by
  refine ⟨List.cons_ne_nil _ _, fun heq => ?_, fun heq => ?_⟩
  · exact h.1 (List.cons.inj heq).2
  · exact h.2.1 (List.cons.inj heq).2

theorem pushComponent_ordinary (h : Ordinary part) :
    pushComponent absolute kept part = part :: kept := by
  simp [pushComponent, h.1, h.2.1, h.2.2]

/-- Components between which normalization makes no difference. -/
def Alike (p q : List Char) : Prop := p = q ∨ (Ordinary p ∧ Ordinary q)

theorem Alike.cons {p q : List Char} (h : Alike p q) (c : Char) : Alike (c :: p) (c :: q) :=
  h.imp (fun heq => by rw [heq]) fun ⟨hp, hq⟩ => ⟨hp.cons c, hq.cons c⟩

theorem Alike.eq_nil_iff {p q : List Char} (h : Alike p q) : p = [] ↔ q = [] := by
  obtain rfl | ⟨hp, hq⟩ := h
  · exact Iff.rfl
  · exact iff_of_false hp.1 hq.1

theorem Alike.eq_dots_iff {p q : List Char} (h : Alike p q) : p = ['.', '.'] ↔ q = ['.', '.'] := by
  obtain rfl | ⟨hp, hq⟩ := h
  · exact Iff.rfl
  · exact iff_of_false hp.2.2 hq.2.2

variable {ps qs kept' : List (List Char)} {ds : List Char}

/-- Whatever holds between alike components is kept with them. -/
theorem pushComponent_alike {R : List Char → List Char → Prop} (hR : ∀ p q, R p q → Alike p q)
    {p q : List Char} (h : R p q) (hkept : List.Forall₂ R kept kept') :
    List.Forall₂ R (pushComponent absolute kept p) (pushComponent absolute kept' q) := by
  obtain rfl | ⟨hp, hq⟩ := hR p q h
  · unfold pushComponent
    split
    · exact hkept
    split
    · cases hkept with
      | nil =>
        cases absolute
        · exact .cons h .nil
        · exact .nil
      | @cons last last' before before' hlast hbefore =>
        simp only [(hR last last' hlast).eq_dots_iff]
        split
        · cases absolute
          · exact .cons h (.cons hlast hbefore)
          · exact .cons hlast hbefore
        · exact hbefore
    · exact .cons h hkept
  · rw [pushComponent_ordinary hp, pushComponent_ordinary hq]
    exact .cons h hkept

theorem keep_alike {R : List Char → List Char → Prop} (hR : ∀ p q, R p q → Alike p q)
    (absolute : Bool) (h : List.Forall₂ R ps qs) :
    List.Forall₂ R (keep absolute ps) (keep absolute qs) := by
  have hfoldl : ∀ {kept kept'}, List.Forall₂ R kept kept' →
      List.Forall₂ R (ps.foldl (pushComponent absolute) kept)
      (qs.foldl (pushComponent absolute) kept') := by
    induction h with
    | nil => exact fun hkept => hkept
    | cons hpq _ ih => exact fun hkept => ih (pushComponent_alike hR hpq hkept)
  exact List.rel_reverse (hfoldl .nil)

theorem keep_eq_of_alike (h : List.Forall₂ Alike ps qs) (hqs : keep absolute qs = qs) :
    keep absolute ps = ps := by
  refine (@keep_cases (fun _ => 1) (fun _ => Nat.one_pos) absolute ps).resolve_right fun hlt => ?_
  have hkept := (keep_alike (fun _ _ h => h) absolute h).length_eq
  rw [hqs, ← h.length_eq] at hkept
  rw [total_one, total_one, hkept] at hlt
  exact Nat.lt_irrefl _ hlt

/-- A word of ASCII letters and digits. -/
def Word (w : List Char) : Prop := w ≠ [] ∧ ∀ c ∈ w, c.isAlphanum = true

theorem Word.ordinary {w : List Char} (h : Word w) (cs : List Char) : Ordinary (w ++ cs) := by
  obtain ⟨d, w, rfl⟩ := List.exists_cons_of_ne_nil h.1
  have hd : d ≠ '.' := by
    rintro rfl
    exact absurd (h.2 '.' (List.mem_cons_self ..)) (by decide)
  exact ⟨List.cons_ne_nil _ _, fun heq => hd (List.cons.inj heq).1,
    fun heq => hd (List.cons.inj heq).1⟩

theorem not_isSeparator_of_isAlphanum (h : c.isAlphanum = true) : isSeparator c = false := by
  rw [Bool.eq_false_iff]
  intro hsep
  rcases isSeparator_iff.1 hsep with rfl | rfl <;> cases h

theorem Word.not_isSeparator {w : List Char} (h : Word w) : ∀ c ∈ w, isSeparator c = false :=
  fun c hc => not_isSeparator_of_isAlphanum (h.2 c hc)

/-- Texts that differ in words of ASCII letters and digits alone. -/
inductive Similar : List Char → List Char → Prop
  | nil : Similar [] []
  | char {cs ds : List Char} (c : Char) : Similar cs ds → Similar (c :: cs) (c :: ds)
  | word {v w cs ds : List Char} : Word v → Word w → Similar cs ds → Similar (v ++ cs) (w ++ ds)

namespace Similar

theorem append {w : List Char} (h : Similar cs ds) : Similar (w ++ cs) (w ++ ds) := by
  induction w with
  | nil => exact h
  | cons c w ih => exact .char c ih

/-- A character that is no letter and no digit stands in both at the same place. -/
theorem cons_of (hc : c.isAlphanum = false) (h : Similar cs (c :: ds)) :
    ∃ es, cs = c :: es ∧ Similar es ds := by
  generalize hx : c :: ds = xs at h
  cases h with
  | nil => cases hx
  | char d h =>
    cases hx
    exact ⟨_, rfl, h⟩
  | @word v w cs es hv hw h =>
    obtain ⟨d, w, rfl⟩ := List.exists_cons_of_ne_nil hw.1
    cases hx
    rw [hw.2 c (List.mem_cons_self ..)] at hc
    cases hc

theorem eq_nil (h : Similar cs []) : cs = [] := by
  generalize hx : [] = xs at h
  cases h with
  | nil => rfl
  | char => cases hx
  | word hv hw h => exact absurd (List.append_eq_nil_iff.1 hx.symm).1 hw.1

theorem ne_nil (h : Similar cs ds) (hds : ds ≠ []) : cs ≠ [] := by
  cases h with
  | nil => exact absurd rfl hds
  | char => exact List.cons_ne_nil _ _
  | word hv => exact fun hnil => hv.1 (List.append_eq_nil_iff.1 hnil).1

theorem mem_iff (h : Similar cs ds) (hc : c.isAlphanum = false) : c ∈ cs ↔ c ∈ ds := by
  have hword : ∀ {w}, Word w → c ∉ w := by
    intro w hw hmem
    rw [hw.2 c hmem] at hc
    cases hc
  induction h with
  | nil => exact Iff.rfl
  | char d _ ih => simp only [List.mem_cons, ih]
  | word hv hw _ ih => simp only [List.mem_append, hword hv, hword hw, ih]

theorem forall₂_splitOnP (h : Similar cs ds) :
    List.Forall₂ Alike (cs.splitOnP isSeparator) (ds.splitOnP isSeparator) := by
  induction h with
  | nil => exact .cons (.inl rfl) .nil
  | @char cs ds c _ ih =>
    rw [List.splitOnP_cons_eq_if_modifyHead, List.splitOnP_cons_eq_if_modifyHead]
    split
    · exact .cons (.inl rfl) ih
    · generalize cs.splitOnP isSeparator = ps at ih
      generalize ds.splitOnP isSeparator = qs at ih
      cases ih with
      | nil => exact .nil
      | cons hpq hrest => exact .cons (hpq.cons c) hrest
  | @word v w cs ds hv hw _ ih =>
    rw [splitOnP_append hv.not_isSeparator, splitOnP_append hw.not_isSeparator]
    generalize cs.splitOnP isSeparator = ps at ih
    generalize ds.splitOnP isSeparator = qs at ih
    cases ih with
    | nil => exact .nil
    | cons _ hrest => exact .cons (.inr ⟨hv.ordinary _, hw.ordinary _⟩) hrest

theorem isAbsolute_eq (h : Similar cs ds) : isAbsolute cs = isAbsolute ds := by
  cases h with
  | nil => rfl
  | char => rfl
  | @word v w _ _ hv hw =>
    obtain ⟨c, v, rfl⟩ := List.exists_cons_of_ne_nil hv.1
    obtain ⟨d, w, rfl⟩ := List.exists_cons_of_ne_nil hw.1
    exact (hv.not_isSeparator c (List.mem_cons_self ..)).trans
      (hw.not_isSeparator d (List.mem_cons_self ..)).symm

/-- In a path in normal form, words may be exchanged. -/
theorem normalizeChars_eq_self (h : Similar cs ds) (hds : normalizeChars ds = ds) :
    normalizeChars cs = cs := by
  have hback : '\\' ∉ ds := hds ▸ backslash_not_mem_normalizeChars ds
  have hback' : '\\' ∉ cs := fun hmem => hback ((h.mem_iff rfl).1 hmem)
  have habs := h.isAbsolute_eq
  obtain ⟨rest, rfl, hrest, hnormal⟩ | ⟨hds', hnormal⟩ := normalizeChars_eq_or hback
  · obtain ⟨es, rfl, hes⟩ := h.cons_of rfl
    rw [hds, List.cons.injEq] at hnormal
    by_cases hnil : keep true (rest.splitOnP isSeparator) = []
    · rw [hnil] at hnormal
      obtain rfl : rest = [] := hnormal.2
      rw [hes.eq_nil, hds]
    · have hkept := keep_eq_of_count hrest hnil (by rw [← hnormal.2])
      obtain ⟨es', heq, hes', hnormal'⟩ | ⟨hfalse, -⟩ := normalizeChars_eq_or hback'
      · cases heq
        rw [hnormal', keep_eq_of_alike hes.forall₂_splitOnP hkept, intercalate_splitOnP hes']
      · cases hfalse
  · obtain ⟨es, rfl, -, -⟩ | ⟨-, hnormal'⟩ := normalizeChars_eq_or hback'
    · rw [hds'] at habs
      cases habs
    rw [hds] at hnormal
    split at hnormal
    · -- A single dot is similar to itself alone.
      subst hnormal
      obtain ⟨es, rfl, hes⟩ := h.cons_of rfl
      rw [hes.eq_nil, hds]
    · next hempty =>
      have hnil : keep false (ds.splitOnP isSeparator) ≠ [] := fun hnil =>
        hempty (by rw [hnil]; rfl)
      have hkept := keep_eq_of_count hback hnil (by rw [← hnormal])
      rw [hnormal', keep_eq_of_alike h.forall₂_splitOnP hkept, intercalate_splitOnP hback']
      exact if_neg (h.ne_nil (hnormal ▸ hempty))

end Similar

end Stencil.Path
