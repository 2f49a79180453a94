import Stencil.Proofs.Path.Canonical
import Mathlib.Data.List.Induction

/-!
# Joining paths

A part of a path may be brought into normal form before the whole is (`normalize_join`). What stands
in front acts on the rest through the components that it leaves and nothing else
(`normalizeChars_append`). What stands behind acts on any components in front of it as its own
normal form does (`foldl_keep`): going up, it may reach across the place where the two are joined,
and there it meets the same components.
-/

namespace Stencil.Path

variable {absolute : Bool} {kept parts left : List (List Char)} {part cs : List Char}

/-- To take one more component behind those that are left, and to go on with what is left then, is
to go on with both. -/
theorem foldl_reverse_pushComponent (h : Settled false left) (absolute : Bool)
    (kept : List (List Char)) (part : List Char) :
    (pushComponent false left part).reverse.foldl (pushComponent absolute) kept =
      pushComponent absolute (left.reverse.foldl (pushComponent absolute) kept) part := by
  have hpush : ∀ (last : List Char) (before : List (List Char)),
      (last :: before).reverse.foldl (pushComponent absolute) kept =
        pushComponent absolute (before.reverse.foldl (pushComponent absolute) kept) last := by
    intro last before
    rw [List.reverse_cons, List.foldl_append, List.foldl_cons, List.foldl_nil]
  rcases component_cases part with hblank | rfl | hordinary
  · rw [pushComponent_blank hblank, pushComponent_blank hblank]
  · cases h with
    | ups n =>
      cases n with
      | zero => rfl
      | succ n =>
        rw [List.replicate_succ, pushComponent_up_up, if_neg Bool.false_ne_true, hpush]
    | plain hlast _ =>
      -- What goes up behind an ordinary component takes it back, whatever is in front of it.
      rw [pushComponent_up hlast.ordinary, hpush, pushComponent_ordinary hlast.ordinary,
        pushComponent_up hlast.ordinary]
  · rw [pushComponent_ordinary hordinary, hpush]

theorem keep_append_singleton (absolute : Bool) (parts : List (List Char)) (part : List Char) :
    keep absolute (parts ++ [part]) =
      (pushComponent absolute (keep absolute parts).reverse part).reverse := by
  rw [keep, keep, List.foldl_append, List.reverse_reverse]
  rfl

/-- To go on with the components that are kept of a relative path is to go on with all of them. -/
theorem foldl_keep (hparts : ∀ part ∈ parts, ∀ c ∈ part, isSeparator c = false) (absolute : Bool)
    (kept : List (List Char)) :
    (keep false parts).foldl (pushComponent absolute) kept =
      parts.foldl (pushComponent absolute) kept := by
  induction parts using List.reverseRecOn with
  | nil => rfl
  | append_singleton parts part ih =>
    have hfront := fun x hx => hparts x (List.mem_append_left _ hx)
    rw [keep_append_singleton, foldl_reverse_pushComponent (settled_keep hfront),
      List.reverse_reverse, ih hfront, List.foldl_append]
    rfl

theorem isAbsolute_append (h : cs ≠ []) (ds : List Char) :
    isAbsolute (cs ++ ds) = isAbsolute cs := by
  obtain ⟨c, cs, rfl⟩ := List.exists_cons_of_ne_nil h
  rfl

/-- The components of a path behind another one are taken behind those that are kept of it. -/
theorem components_append (h : cs ≠ []) (ds : List Char) : components (cs ++ '/' :: ds) =
    ((ds.splitOnP isSeparator).foldl (pushComponent (isAbsolute cs))
      (components cs).reverse).reverse := by
  rw [components, isAbsolute_append h,
    List.splitOnP_append_cons _ _ (show isSeparator '/' = true from rfl), List.foldl_append,
    components, List.reverse_reverse]

/-- In front of another path, a path counts by its components. -/
theorem normalizeChars_append {ds : List Char} (hcs : cs ≠ []) (hds : ds ≠ [])
    (habsolute : isAbsolute cs = isAbsolute ds) (h : components cs = components ds)
    (es : List Char) : normalizeChars (cs ++ '/' :: es) = normalizeChars (ds ++ '/' :: es) := by
  rw [normalizeChars_eq_spell, normalizeChars_eq_spell, components_append hcs,
    components_append hds, isAbsolute_append hcs, isAbsolute_append hds, habsolute, h]

/-- Behind another path, a relative path counts by its normal form. -/
theorem normalizeChars_append_right {ds : List Char} (hcs : cs ≠ []) (hds : isAbsolute ds = false) :
    normalizeChars (cs ++ '/' :: ds) = normalizeChars (cs ++ '/' :: normalizeChars ds) := by
  have hsolid : ∀ part ∈ components ds, Solid part :=
    fun part hpart => (settled_components ds).solid part (List.mem_reverse.2 hpart)
  have hkeep : components ds = keep false (ds.splitOnP isSeparator) := by rw [components, hds, keep]
  rw [normalizeChars_eq_spell, normalizeChars_eq_spell, components_append hcs,
    components_append hcs, isAbsolute_append hcs, isAbsolute_append hcs, normalizeChars_eq_spell ds,
    foldl_splitOnP_spell hsolid, hkeep, foldl_keep fun _ hpart _ hc =>
    not_isSeparator_of_mem_splitOnP hpart hc]

theorem normalizeChars_ne_nil (cs : List Char) : normalizeChars cs ≠ [] := by
  rw [normalizeChars_eq_spell, spell]
  split
  · exact List.cons_ne_nil _ _
  · split
    · exact List.cons_ne_nil _ _
    · assumption

/-- **Joining.** For the normal form of two paths with a slash between them, the first one may be
brought into normal form before, and so may the second one if it does not begin with a slash of its
own. -/
theorem normalize_join {p : String} (hp : p ≠ "") (q : String) :
    normalize (p ++ "/" ++ q) = normalize (normalize p ++ "/" ++ q) ∧
      (isAbsolute q.toList = false →
        normalize (p ++ "/" ++ q) = normalize (p ++ "/" ++ normalize q)) := by
  have hjoin : ∀ u v : String,
      normalize (u ++ "/" ++ v) = .ofList (normalizeChars (u.toList ++ '/' :: v.toList)) := by
    intro u v
    rw [normalize, String.toList_append, String.toList_append, List.append_assoc]
    rfl
  have hchars : p.toList ≠ [] := by rwa [ne_eq, String.toList_eq_nil_iff]
  rw [hjoin, hjoin, hjoin, toList_normalize, toList_normalize]
  constructor
  · rw [normalizeChars_append hchars (normalizeChars_ne_nil _) (isAbsolute_normalizeChars _).symm
      (components_normalizeChars _).symm]
  · intro hq
    rw [normalizeChars_append_right hchars hq]

theorem normalize_join_reachingAcross :
    "/a/./b" ≠ "" ∧ isAbsolute "../../../c//".toList = false ∧
      normalize ("/a/./b" ++ "/" ++ "../../../c//") =
        normalize (normalize "/a/./b" ++ "/" ++ "../../../c//") ∧
      normalize ("/a/./b" ++ "/" ++ "../../../c//") =
        normalize ("/a/./b" ++ "/" ++ normalize "../../../c//") ∧
      normalize ("/a/./b" ++ "/" ++ "../../../c//") = "/c" := by
  have hq : isAbsolute "../../../c//".toList = false := by decide
  obtain ⟨hfirst, hsecond⟩ := normalize_join (show "/a/./b" ≠ "" by decide) "../../../c//"
  exact ⟨by decide, hq, hfirst, hsecond hq, by decide +kernel⟩

end Stencil.Path
