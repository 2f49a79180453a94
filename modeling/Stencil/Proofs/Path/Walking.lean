import Stencil.Proofs.Path.Wildcards

/-!
# Walking a file tree

A pattern leads from place to place, over one name for each of its components. The names on the way
fill the components in (`exists_names_of_mem_walk`), and over names that do and that stand in the
tree there is a way (`exists_mem_walk`). The path of the place at the end is spelled by the names
(`Location.toList_foldl_step`), but for the special entries of the present directory: what is
reached over these has another number of slashes than the pattern (`Location.count_foldl_step`). So
a search yields what fills its pattern in, or what differs from it in slashes (`search_cases`), and
it yields all that fills the pattern in and stands in the tree (`mem_search_of_fills`).
-/

namespace Stencil

open Stencil.Path

/-! ## Trees with proper names -/

/-- At every depth, the name of an entry can stand between separators and leads nowhere else. -/
inductive FileTree.Proper : FileTree → Prop
  | file (name content : String) : Proper (.file name content)
  | directory {name : String} {entries : List FileTree} :
    (∀ e ∈ entries, Plain e.name.toList) → (∀ e ∈ entries, Proper e) →
      Proper (.directory name entries)

theorem FileTree.proper_empty : empty.Proper :=
  .directory (fun _ h => nomatch h) fun _ h => nomatch h

theorem FileTree.Proper.of_mem {t e : FileTree} (h : t.Proper) (he : e ∈ t.entries) :
    Plain e.name.toList ∧ e.Proper := by
  cases h with
  | file => cases he
  | directory hnames hproper => exact ⟨hnames e he, hproper e he⟩

namespace Location

/-- A place in a tree with proper names. -/
structure Proper (l : Location) : Prop where
  tree : l.tree.Proper
  above : ∀ t ∈ l.above, t.Proper

variable {l : Location} {path name : String} {y cs : List Char} {ys : List (List Char)}

theorem Proper.enter {e : FileTree} (h : l.Proper) (he : e.Proper) : (l.enter e).Proper :=
  ⟨he, List.forall_mem_cons.2 ⟨h.tree, h.above⟩⟩

theorem Proper.up (h : l.Proper) (path : String) : (l.up path).Proper := by
  have habove := h.above
  unfold Location.up
  split
  · exact ⟨FileTree.proper_empty, fun _ ht => nomatch ht⟩
  · next t above heq =>
    rw [heq] at habove
    exact ⟨habove t (List.mem_cons_self ..), fun x hx => habove x (List.mem_cons_of_mem _ hx)⟩

theorem path_up (path : String) : (l.up path).path = path := by
  unfold Location.up
  split <;> rfl

/-! ## Paths of places -/

/-- The path of the place that a name leads to. What the special entries of the present directory
lead to has a path that says so. -/
def stepPath (path name : String) : String :=
  if (name = "." ∨ name = "..") ∧ isHere path = true then path ++ "/" ++ name else join path name

/-- A path that goes on with a slash and a name. -/
structure Away (path : String) : Prop where
  not_here : isHere path = false
  not_open : path.endsWith "/" = false

theorem toList_slash : "/".toList = ['/'] := rfl

theorem beq_slash (h : Solid y) : ∀ c ∈ y, (c == '/') = false := by
  intro c hc
  rw [beq_eq_false_iff_ne]
  rintro rfl
  have hseparator := h.not_isSeparator '/' hc
  cases hseparator

theorem isHere_of_toList (h : Solid y) (hpath : path.toList = y) : isHere path = (y == ['.']) := by
  rw [isHere, hpath, List.splitOn_eq_splitOnP, List.splitOnP_eq_singleton (beq_slash h)]
  simp

theorem isHere_of_append (h : Solid y) (hpath : path.toList = cs ++ '/' :: y) :
    isHere path = (isHere (.ofList cs) && y == ['.']) := by
  rw [isHere, isHere, hpath, List.splitOn_eq_splitOnP, List.splitOnP_append_cons _ _ (by simp),
    List.splitOnP_eq_singleton (beq_slash h)]
  simp [List.splitOn_eq_splitOnP]

theorem not_endsWith_slash (cs : List Char) (h : Solid y) (hpath : path.toList = cs ++ y) :
    path.endsWith "/" = false := by
  rw [Bool.eq_false_iff]
  intro hends
  have hsuffix : ['/'] <:+ cs ++ y := by
    simpa [hpath, toList_slash] using String.Slice.endsWith_string_iff.1 hends
  obtain ⟨front, hfront⟩ := hsuffix
  have hlast : y.getLast? = some '/' := by
    rw [← List.getLast?_append_of_ne_nil cs h.ne_nil, ← hfront, List.getLast?_concat]
  have hslash := beq_slash h '/' (List.mem_of_getLast? hlast)
  simp at hslash

theorem Away.toList_step (h : Away path) (name : String) :
    (stepPath path name).toList = path.toList ++ '/' :: name.toList := by
  simp [stepPath, join, h.not_here, h.not_open, toList_slash]

theorem Away.step (h : Away path) (hy : Solid name.toList) : Away (stepPath path name) := by
  have hstep := h.toList_step name
  refine ⟨?_, not_endsWith_slash _ hy (by rw [hstep, List.append_cons])⟩
  rw [isHere_of_append hy hstep, String.ofList_toList, h.not_here, Bool.false_and]

/-- The names stand behind the path with a slash in front of each. -/
theorem Away.toList_foldl (h : Away path) (hys : ∀ y ∈ ys, Solid y) :
    ((ys.map String.ofList).foldl stepPath path).toList = path.toList ++ ys.flatMap ('/' :: ·) := by
  induction ys generalizing path with
  | nil => simp
  | cons y ys ih =>
    obtain ⟨hy, hys⟩ := List.forall_mem_cons.1 hys
    have hname : (String.ofList y).toList = y := String.toList_ofList
    rw [List.map_cons, List.foldl_cons, ih (h.step (by rwa [hname])) hys, h.toList_step, hname,
      List.flatMap_cons, List.append_assoc, List.cons_append]

theorem away_of_toList (h : Solid y) (hdot : y ≠ ['.']) (hpath : path.toList = y) : Away path :=
  ⟨by rw [isHere_of_toList h hpath, beq_eq_false_iff_ne]; exact hdot, not_endsWith_slash [] h hpath⟩

theorem intercalate_eq (y : List Char) (ys : List (List Char)) :
    ['/'].intercalate (y :: ys) = y ++ ys.flatMap ('/' :: ·) := by
  induction ys generalizing y with
  | nil => simp
  | cons z ys ih => rw [List.intercalate_cons_cons, ih]; simp

theorem ofList_ne_dots (hy : Plain y) : String.ofList y ≠ "." ∧ String.ofList y ≠ ".." := by
  constructor
  · exact fun heq => hy.ordinary.2.1 (String.ofList_injective heq)
  · exact fun heq => hy.ordinary.2.2 (String.ofList_injective heq)

/-- No plain component is a special entry. -/
theorem stepPath_plain (hy : Plain y) (path : String) :
    stepPath path (.ofList y) = join path (.ofList y) := by
  obtain ⟨hdot, hdots⟩ := ofList_ne_dots hy
  rw [stepPath, if_neg fun hspecial => hspecial.1.elim hdot hdots]

theorem stepPath_here (h : isHere path = true) (hy : Plain y) :
    stepPath path (.ofList y) = .ofList y := by
  rw [stepPath_plain hy, join, if_pos h]

variable {absolute : Bool} {n : Nat}

theorem baseOf_succ (n : Nat) :
    baseOf false (n + 1) =
      ((List.replicate n ['.', '.']).map String.ofList).foldl stepPath ".." := by
  have hup : Away ".." := away_of_toList solid_up (by simp) rfl
  have hsolid : ∀ y ∈ List.replicate n ['.', '.'], Solid y := fun y hy =>
    List.eq_of_mem_replicate hy ▸ solid_up
  rw [← String.toList_inj, hup.toList_foldl hsolid, baseOf, if_neg Bool.false_ne_true,
    if_neg (Nat.succ_ne_zero n), String.toList_ofList, List.replicate_succ, intercalate_eq]
  rfl

theorem spell_cons (h : Solid y) : spell absolute (y :: ys) =
    if absolute then '/' :: (y ++ ys.flatMap ('/' :: ·)) else y ++ ys.flatMap ('/' :: ·) := by
  have hne : y ++ ys.flatMap ('/' :: ·) ≠ [] := List.append_ne_nil_of_left_ne_nil h.ne_nil _
  rw [spell, intercalate_eq, if_neg hne]

theorem toList_foldl_root (hys : ∀ y ∈ ys, Solid y) :
    ((ys.map String.ofList).foldl stepPath (baseOf true 0)).toList = spell true ys := by
  cases ys with
  | nil => rfl
  | cons y ys =>
    obtain ⟨hy, hys⟩ := List.forall_mem_cons.1 hys
    have hroot : (stepPath (baseOf true 0) (.ofList y)).toList = [] ++ '/' :: y := by
      have hhere : isHere "/" = false := by decide
      have hopen : "/".endsWith "/" = true := String.Slice.endsWith_string_iff.2 (by simp)
      simp [stepPath, join, baseOf, hhere, hopen, toList_slash]
    have haway : Away (stepPath (baseOf true 0) (.ofList y)) :=
      ⟨by rw [isHere_of_append hy hroot]; rfl, not_endsWith_slash ['/'] hy hroot⟩
    rw [List.map_cons, List.foldl_cons, haway.toList_foldl hys, hroot, spell_cons hy]
    rfl

theorem toList_foldl_here (hys : ∀ y ∈ ys, Solid y) (hhead : ∀ y ∈ ys.head?, Plain y) :
    ((ys.map String.ofList).foldl stepPath (baseOf false 0)).toList = spell false ys := by
  cases ys with
  | nil => rfl
  | cons y ys =>
    obtain ⟨hy, hys⟩ := List.forall_mem_cons.1 hys
    have hplain : Plain y := hhead y rfl
    have hhere : isHere (baseOf false 0) = true := by decide
    have haway : Away (.ofList y) := away_of_toList hy hplain.ordinary.2.1 String.toList_ofList
    rw [List.map_cons, List.foldl_cons, stepPath_here hhere hplain, haway.toList_foldl hys,
      String.toList_ofList, spell_cons hy]
    rfl

theorem toList_foldl_up (n : Nat) (hys : ∀ y ∈ ys, Solid y) :
    ((ys.map String.ofList).foldl stepPath (baseOf false (n + 1))).toList =
      spell false (List.replicate (n + 1) ['.', '.'] ++ ys) := by
  have hup : Away ".." := away_of_toList solid_up (by simp) rfl
  rw [baseOf_succ, ← List.foldl_append, ← List.map_append,
    hup.toList_foldl (solid_replicate_append hys), List.replicate_succ,
    List.cons_append, spell_cons solid_up]
  rfl

/-- From the base of a pattern, names spell a path, unless the first one is a special entry of the
present directory. -/
theorem toList_foldl_step (hn : absolute = true → n = 0) (hys : ∀ y ∈ ys, Solid y)
    (hhead : absolute = true ∨ n ≠ 0 ∨ ∀ y ∈ ys.head?, Plain y) :
    ((ys.map String.ofList).foldl stepPath (baseOf absolute n)).toList =
      spell absolute (List.replicate n ['.', '.'] ++ ys) := by
  cases n with
  | zero =>
    rw [List.replicate_zero, List.nil_append]
    cases absolute with
    | true => exact toList_foldl_root hys
    | false => exact toList_foldl_here hys (by simpa using hhead)
  | succ n =>
    have hrelative : absolute = false := by simpa using hn
    subst hrelative
    exact toList_foldl_up n hys

/-! ## Special entries of the present directory -/

theorem count_solid (h : Solid y) : y.count '/' = 0 :=
  List.count_eq_zero.2 fun hmem => by
    have hslash := beq_slash h '/' hmem
    simp at hslash

theorem count_flatMap (hys : ∀ y ∈ ys, Solid y) :
    (ys.flatMap ('/' :: ·)).count '/' = ys.length := by
  induction ys with
  | nil => rfl
  | cons y ys ih =>
    obtain ⟨hy, hys⟩ := List.forall_mem_cons.1 hys
    rw [List.flatMap_cons, List.count_append, List.count_cons_self, count_solid hy, ih hys,
      List.length_cons]
    omega

theorem solid_cases (h : Solid y) : y = ['.'] ∨ y = ['.', '.'] ∨ Plain y := by
  rcases component_cases y with (hnil | hdot) | hdots | hordinary
  · exact absurd hnil h.ne_nil
  · exact .inl hdot
  · exact .inr (.inl hdots)
  · exact .inr (.inr ⟨hordinary, h.not_isSeparator⟩)

theorem toList_step_special (hpath : isHere path = true) (hy : y = ['.'] ∨ y = ['.', '.']) :
    (stepPath path (.ofList y)).toList = path.toList ++ '/' :: y := by
  have hspecial : (String.ofList y = "." ∨ String.ofList y = "..") ∧ isHere path = true :=
    ⟨hy.imp (fun h => by rw [h]) fun h => by rw [h], hpath⟩
  simp [stepPath, if_pos hspecial, toList_slash]

/-- Where the special entries of the present directory put slashes into a path, it comes to have too
many of them or too few. -/
theorem count_foldl_step (hpath : isHere path = true) (hys : ∀ y ∈ ys, Solid y)
    (h : 0 < path.toList.count '/' ∨ ∃ y ∈ ys.head?, ¬ Plain y) :
    ((ys.map String.ofList).foldl stepPath path).toList.count '/' + 1 ≠
      path.toList.count '/' + ys.length := by
  induction ys generalizing path with
  | nil =>
    have hpos : 0 < path.toList.count '/' := h.resolve_right fun ⟨y, hy, _⟩ => nomatch hy
    simp only [List.map_nil, List.foldl_nil, List.length_nil]
    omega
  | cons y ys ih =>
    obtain ⟨hy, hrest⟩ := List.forall_mem_cons.1 hys
    rw [List.map_cons, List.foldl_cons, List.length_cons]
    rcases solid_cases hy with rfl | rfl | hplain
    · have hstep := toList_step_special hpath (.inl rfl)
      have hhere : isHere (stepPath path (.ofList ['.'])) = true := by
        rw [isHere_of_append hy hstep, String.ofList_toList, hpath]
        rfl
      have hcount : (stepPath path (.ofList ['.'])).toList.count '/' =
          path.toList.count '/' + 1 := by
        rw [hstep, List.count_append]
        rfl
      have ih := ih hhere hrest (.inl (by omega))
      omega
    · have hstep := toList_step_special hpath (.inr rfl)
      have haway : Away (stepPath path (.ofList ['.', '.'])) :=
        ⟨by rw [isHere_of_append hy hstep, Bool.and_eq_false_iff]; exact .inr rfl,
          not_endsWith_slash _ hy (by rw [hstep, List.append_cons])⟩
      have hdots : ['/', '.', '.'].count '/' = 1 := rfl
      rw [haway.toList_foldl hrest, hstep, List.count_append, List.count_append,
        count_flatMap hrest, hdots]
      omega
    · have hpos : 0 < path.toList.count '/' := h.resolve_right fun ⟨x, hx, hnot⟩ => by
        cases hx
        exact hnot hplain
      have haway : Away (.ofList y) := away_of_toList hy hplain.ordinary.2.1 String.toList_ofList
      rw [stepPath_here hpath hplain, haway.toList_foldl hrest, String.toList_ofList,
        List.count_append, count_solid hy, count_flatMap hrest]
      omega

theorem backslash_not_mem_step (hpath : '\\' ∉ path.toList) (hname : '\\' ∉ name.toList) :
    '\\' ∉ (stepPath path name).toList := by
  unfold stepPath join
  split
  · simp [hpath, hname, toList_slash]
  split
  · exact hname
  split <;> simp [hpath, hname, toList_slash]

theorem backslash_not_mem_foldl_step (hpath : '\\' ∉ path.toList) (hys : ∀ y ∈ ys, Solid y) :
    '\\' ∉ ((ys.map String.ofList).foldl stepPath path).toList := by
  induction ys generalizing path with
  | nil => exact hpath
  | cons y ys ih =>
    obtain ⟨hy, hys⟩ := List.forall_mem_cons.1 hys
    refine ih (backslash_not_mem_step hpath ?_) hys
    rw [String.toList_ofList]
    intro hmem
    have hseparator := hy.not_isSeparator _ hmem
    cases hseparator

end Location

/-! ## Ways -/

namespace Path

open Location

variable {l l' : Location} {gs : List GlobComponent} {x : List Char} {xs ys : List (List Char)}

theorem follow?_plain (hx : Plain x) :
    l.follow? (.ofList x) = (l.tree.entry? (.ofList x)).map l.enter := by
  obtain ⟨hdot, hdots⟩ := ofList_ne_dots hx
  rw [Location.follow?, if_neg hdot, if_neg hdots]

theorem exists_of_entry? {e : FileTree} {name : String} (h : l.tree.entry? name = some e) :
    e ∈ l.tree.entries ∧ e.name = name :=
  ⟨List.mem_of_find?_eq_some h, by simpa using List.find?_some h⟩

theorem of_mem_specialEntries (hl : l.Proper) (h : l' ∈ specialEntries l (x.map signOf)) :
    ∃ y, l'.Proper ∧ Fills x y ∧ Solid y ∧ l'.path = stepPath l.path (.ofList y) := by
  have hpath : ∀ name, name = "." ∨ name = ".." →
      (if isHere l.path = true then l.path ++ "/" ++ name else join l.path name) =
      stepPath l.path name := by
    intro name hname
    simp only [stepPath, hname, true_and]
  have hfills : ∀ name : String, (∀ c ∈ name.toList, isSeparator c = false) →
      matchSigns (x.map signOf) name.toList = true → Fills x name.toList := fun name hname =>
      (matchSigns_iff hname).1
  unfold specialEntries at h
  split at h
  · obtain ⟨⟨name, place⟩, hmem, hplace⟩ := List.mem_filterMap.1 h
    simp only [Option.ite_none_right_eq_some, Option.some.injEq] at hplace
    obtain ⟨hmatches, rfl⟩ := hplace
    simp only [List.mem_cons, Prod.mk.injEq, List.not_mem_nil, or_false] at hmem
    rcases hmem with ⟨rfl, rfl⟩ | ⟨rfl, rfl⟩
    · exact ⟨['.', '.'], hl.up _, hfills ".." (by simp [isSeparator]) hmatches, solid_up,
        (path_up _).trans (hpath ".." (.inr rfl))⟩
    · exact ⟨['.'], ⟨hl.tree, hl.above⟩, hfills "." (by simp [isSeparator]) hmatches,
        ⟨List.cons_ne_nil _ _, by simp [isSeparator]⟩, hpath "." (.inl rfl)⟩
  · cases h

/-- Where a component leads: to an entry, or to one of the two special ones. -/
theorem exists_name_of_mem_walk (hl : l.Proper) (hx : Bare x → Plain x)
    (h : l' ∈ Glob.walk (componentOf x :: gs) l) :
    ∃ next y, next.Proper ∧ l' ∈ Glob.walk gs next ∧ Fills x y ∧
      Solid y ∧ next.path = stepPath l.path (.ofList y) := by
  by_cases hbare : Bare x
  · have hplain := hx hbare
    rw [componentOf_bare hbare, Glob.walk, follow?_plain hplain] at h
    cases hentry : l.tree.entry? (.ofList x) with
    | none => simp [hentry] at h
    | some e =>
      rw [hentry] at h
      obtain ⟨hmem, hname⟩ := exists_of_entry? hentry
      exact ⟨l.enter e, x, hl.enter (hl.tree.of_mem hmem).2, h, .refl x, hplain.solid,
        by rw [stepPath_plain hplain, Location.enter, hname]⟩
  · rw [componentOf_wild hbare, Glob.walk] at h
    split at h
    · obtain ⟨next, hnext, hwalk⟩ := List.mem_flatMap.1 h
      rcases List.mem_append.1 hnext with hspecial | hentry
      · obtain ⟨y, hproper, hfills, hy, hpath⟩ := of_mem_specialEntries hl hspecial
        exact ⟨next, y, hproper, hwalk, hfills, hy, hpath⟩
      · obtain ⟨hmem, hmatches⟩ := List.mem_filter.1 hentry
        obtain ⟨e, he, rfl⟩ := List.mem_map.1 hmem
        obtain ⟨hplain, hproper⟩ := hl.tree.of_mem he
        refine ⟨l.enter e, e.name.toList, hl.enter hproper, hwalk,
          (matchSigns_iff hplain.not_isSeparator).1 hmatches, hplain.solid, ?_⟩
        rw [stepPath_plain hplain, String.ofList_toList]
        rfl
    · cases h

theorem exists_names_of_mem_walk (hl : l.Proper) (hxs : ∀ x ∈ xs, Bare x → Plain x)
    (h : l' ∈ Glob.walk (xs.map componentOf) l) :
    ∃ ys, List.Forall₂ Fills xs ys ∧ (∀ y ∈ ys, Solid y) ∧
      l'.path = (ys.map String.ofList).foldl stepPath l.path := by
  induction xs generalizing l with
  | nil =>
    rw [List.map_nil, Glob.walk, List.mem_singleton] at h
    subst h
    exact ⟨[], .nil, by simp, rfl⟩
  | cons x xs ih =>
    obtain ⟨hx, hxs⟩ := List.forall_mem_cons.1 hxs
    obtain ⟨next, y, hnext, hwalk, hfills, hy, hpath⟩ := exists_name_of_mem_walk hl hx h
    obtain ⟨ys, hall, hys, hend⟩ := ih hnext hxs hwalk
    exact ⟨y :: ys, .cons hfills hall, List.forall_mem_cons.2 ⟨hy, hys⟩, by rw [hend, hpath]; rfl⟩

/-- Names that stand in the tree and fill in the components are a way. -/
theorem exists_mem_walk (h : List.Forall₂ (fun x y => Fills x y ∧ Plain y) xs ys)
    (hfind : (l.tree.find? (ys.map String.ofList)).isSome = true) :
    ∃ l' ∈ Glob.walk (xs.map componentOf) l,
      l'.path = (ys.map String.ofList).foldl stepPath l.path := by
  induction h generalizing l with
  | nil => exact ⟨l, by rw [List.map_nil, Glob.walk]; exact List.mem_singleton_self l, rfl⟩
  | @cons x y xs ys hxy _ ih =>
    obtain ⟨hfills, hplain⟩ := hxy
    rw [List.map_cons, FileTree.find?] at hfind
    cases hentry : l.tree.entry? (.ofList y) with
    | none => simp [hentry] at hfind
    | some e =>
      rw [hentry] at hfind
      obtain ⟨hmem, hname⟩ := exists_of_entry? hentry
      obtain ⟨l', hwalk, hend⟩ := @ih (l.enter e) hfind
      refine ⟨l', ?_,
        by rw [hend, List.map_cons, List.foldl_cons, stepPath_plain hplain, Location.enter, hname]⟩
      rw [List.map_cons]
      by_cases hbare : Bare x
      · obtain rfl := hfills.eq_of_bare hbare
        rw [componentOf_bare hbare, Glob.walk, follow?_plain hplain, hentry]
        exact hwalk
      · have hdirectory : l.tree.isDirectory = true := by
          cases htree : l.tree with
          | file => rw [htree] at hmem; cases hmem
          | directory => rfl
        have hmatches : matchSigns (x.map signOf) e.name.toList = true := by
          rw [hname, String.toList_ofList, matchSigns_iff hplain.not_isSeparator]
          exact hfills
        rw [componentOf_wild hbare, Glob.walk, if_pos hdirectory]
        refine List.mem_flatMap.2 ⟨l.enter e, List.mem_append_right _ ?_, hwalk⟩
        exact List.mem_filter.2 ⟨List.mem_map_of_mem hmem, hmatches⟩

/-! ## Searches -/

variable {absolute : Bool} {n : Nat} {rest parts : List (List Char)}
  {cs ds : List Char} {P p s : String} {base : FileTree} {g : Glob}

/-- What is kept of a path are plain components, with two dots any number of times in front of
them. -/
theorem exists_components (ds : List Char) : ∃ n rest, (isAbsolute ds = true → n = 0) ∧
    (∀ part ∈ rest, Plain part) ∧ components ds = List.replicate n ['.', '.'] ++ rest := by
  obtain ⟨n, rest, hrest, hn, hplain⟩ := settled_iff.1 (settled_components ds)
  refine ⟨n, rest.reverse, hn, by simpa using hplain, ?_⟩
  rw [← List.reverse_reverse (components ds), hrest, List.reverse_append, List.reverse_replicate]

theorem toList_eq_spell (h : normalize s = s) :
    s.toList = spell (isAbsolute s.toList) (components s.toList) := by
  rw [← normalizeChars_eq_spell, ← toList_normalize, h]

theorem read_spell (hn : absolute = true → n = 0) (hrest : ∀ part ∈ rest, Plain part)
    (hne : spell absolute (List.replicate n ['.', '.'] ++ rest) ≠ ['.'])
    (h : Starred (spell absolute (List.replicate n ['.', '.'] ++ rest))) :
    Glob.read (.ofList (spell absolute (List.replicate n ['.', '.'] ++ rest))) =
      .ok ⟨baseOf absolute n, rest.map componentOf⟩ := by
  have hsolid : ∀ part ∈ rest, Solid part := fun part hpart => (hrest part hpart).solid
  cases absolute with
  | true =>
    obtain rfl := hn rfl
    exact read_rooted h hsolid
  | false =>
    have hparts : List.replicate n ['.', '.'] ++ rest ≠ [] := fun hnil => hne (by rw [hnil]; rfl)
    obtain ⟨c, cs, hjoined, -⟩ := exists_head_intercalate hparts (solid_replicate_append hsolid)
    have hspell : spell false (List.replicate n ['.', '.'] ++ rest) =
        ['/'].intercalate (List.replicate n ['.', '.'] ++ rest) := by
      rw [spell, if_neg Bool.false_ne_true, if_neg (by simp [hjoined])]
    rw [hspell] at h ⊢
    refine read_relative hparts h hsolid fun hhead => ?_
    exact (hrest _ (List.mem_of_mem_head? hhead)).ordinary.2.2 rfl

theorem read_here : Glob.read "." = .ok ⟨".", [.literal "."]⟩ := by
  decide +kernel

theorem search_here :
    Glob.search ⟨".", [.literal "."]⟩ base = if base.isDirectory = true then ["."] else [] := by
  have hjoin : Location.join "." "." = "." := by decide
  cases hdirectory : base.isDirectory <;> simp [Glob.search, Glob.walk, Location.follow?,
    hdirectory, hjoin]

theorem fills_flatMap (h : List.Forall₂ Fills xs ys) :
    Fills (xs.flatMap ('/' :: ·)) (ys.flatMap ('/' :: ·)) := by
  induction h with
  | nil => exact .nil
  | cons hxy _ ih => exact .char '/' (hxy.append ih)

/-- Components that are filled in make a path that is. -/
theorem fills_spell (h : List.Forall₂ Fills xs ys) (hxs : ∀ x ∈ xs, Solid x)
    (hys : ∀ y ∈ ys, Solid y) : Fills (spell absolute xs) (spell absolute ys) := by
  cases h with
  | nil => exact .refl _
  | cons hxy h =>
    have hboth := hxy.append (fills_flatMap h)
    rw [spell_cons (hxs _ (List.mem_cons_self ..)), spell_cons (hys _ (List.mem_cons_self ..))]
    cases absolute
    · exact hboth
    · exact .char '/' hboth

theorem backslash_not_mem_base : '\\' ∉ (baseOf absolute n).toList := by
  unfold baseOf
  split
  · simp
  split
  · simp
  · intro hmem
    rw [String.toList_ofList] at hmem
    rcases mem_intercalate hmem with hmem | ⟨part, hpart, hmem⟩
    · cases hmem
    · rw [List.eq_of_mem_replicate hpart] at hmem
      simp at hmem

/-- What a search yields fills its pattern in, or has another number of slashes. -/
theorem search_cases (hnormal : normalize P = P) (hstarred : Starred P.toList) (hbase : base.Proper)
    (hread : Glob.read P = .ok g) (hs : s ∈ g.search base) :
    '\\' ∉ s.toList ∧ (Fills P.toList s.toList ∨ s.toList.count '/' ≠ P.toList.count '/') := by
  obtain ⟨n, rest, hn, hplain, hparts⟩ := exists_components P.toList
  have hP := toList_eq_spell hnormal
  rw [hparts] at hP
  generalize isAbsolute P.toList = absolute at hn hP
  by_cases hhere : P.toList = ['.']
  · obtain rfl : P = "." := String.toList_inj.1 hhere
    rw [read_here] at hread
    cases hread
    rw [search_here] at hs
    split at hs
    · obtain rfl := List.mem_singleton.1 hs
      exact ⟨by simp, .inl (.refl _)⟩
    · cases hs
  rw [← String.ofList_toList (s := P), hP,
    read_spell hn hplain (hP ▸ hhere) (hP ▸ hstarred)] at hread
  cases hread
  obtain ⟨l', hwalk, rfl⟩ := List.mem_map.1 hs
  have hbare : ∀ x ∈ rest, Bare x → Plain x := fun x hx _ => hplain x hx
  obtain ⟨ys, hfills, hys, hpath⟩ := exists_names_of_mem_walk
    (l := ⟨baseOf absolute n, base, []⟩) ⟨hbase, fun _ ht => nomatch ht⟩ hbare hwalk
  dsimp only at hpath
  rw [hpath]
  refine ⟨backslash_not_mem_foldl_step backslash_not_mem_base hys, ?_⟩
  by_cases hhead : absolute = true ∨ n ≠ 0 ∨ ∀ y ∈ ys.head?, Plain y
  · have hups : List.Forall₂ Fills (List.replicate n ['.', '.']) (List.replicate n ['.', '.']) :=
      List.forall₂_same.2 fun _ _ => .refl _
    rw [toList_foldl_step hn hys hhead, hP]
    exact .inl (fills_spell (List.rel_append hups hfills)
      (solid_replicate_append fun part hpart => (hplain part hpart).solid)
      (solid_replicate_append hys))
  · right
    -- A special entry of the present directory comes first.
    simp only [not_or, Bool.not_eq_true, not_not, not_forall] at hhead
    obtain ⟨rfl, rfl, y, hy, hspecial⟩ := hhead
    have hstart : isHere (baseOf false 0) = true := rfl
    have hcount := count_foldl_step hstart hys (.inr ⟨y, hy, hspecial⟩)
    rw [hP, List.replicate_zero, List.nil_append]
    cases hfills with
    | nil => cases hy
    | @cons x _ xs _ _ hfills =>
      obtain ⟨hx, hxs⟩ := List.forall_mem_cons.1 hplain
      have hbase : (baseOf false 0).toList.count '/' = 0 := rfl
      rw [List.length_cons, hbase, ← hfills.length_eq] at hcount
      rw [spell_cons hx.solid, if_neg Bool.false_ne_true, List.count_append, count_solid hx.solid,
        count_flatMap fun x hx => (hxs x hx).solid]
      omega

/-- The names of the entries on the way to a path, from the directory that it starts from. -/
def entryNames (cs : List Char) : List String :=
  ((components cs).dropWhile (· = ['.', '.'])).map .ofList

theorem exists_rest_of_forall₂ {R : List Char → List Char → Prop}
    (hR : ∀ y, R ['.', '.'] y → y = ['.', '.'])
    (h : List.Forall₂ R (List.replicate n ['.', '.'] ++ rest) parts) :
    ∃ ys, parts = List.replicate n ['.', '.'] ++ ys ∧ List.Forall₂ R rest ys := by
  induction n generalizing parts with
  | zero => exact ⟨parts, rfl, h⟩
  | succ n ih =>
    rw [List.replicate_succ, List.cons_append] at h
    cases h with
    | cons hy h =>
      obtain ⟨ys, rfl, hys⟩ := ih h
      exact ⟨ys, by rw [hR _ hy]; rfl, hys⟩

theorem dropWhile_replicate_append (h : ∀ y ∈ ys, Plain y) :
    (List.replicate n ['.', '.'] ++ ys).dropWhile (· = ['.', '.']) = ys := by
  rw [List.dropWhile_append_of_pos fun y hy => by simpa using List.eq_of_mem_replicate hy]
  cases ys with
  | nil => rfl
  | cons y ys =>
    exact List.dropWhile_cons_of_neg (by simpa using (h y (List.mem_cons_self ..)).ordinary.2.2)

theorem plain_of_forall₂ (h : List.Forall₂ (fun x y => Fills x y ∧ Alike x y) xs ys)
    (hxs : ∀ x ∈ xs, Plain x) (hys : ∀ y ∈ ys, Solid y) :
    (∀ y ∈ ys, Plain y) ∧ List.Forall₂ (fun x y => Fills x y ∧ Plain y) xs ys := by
  induction h with
  | nil => exact ⟨by simp, .nil⟩
  | @cons x y xs ys hxy _ ih =>
    obtain ⟨hx, hxs⟩ := List.forall_mem_cons.1 hxs
    obtain ⟨hy, hys⟩ := List.forall_mem_cons.1 hys
    obtain ⟨hplain, hall⟩ := ih hxs hys
    have hordinary : Ordinary y := by
      rcases hxy.2 with rfl | h
      · exact hx.ordinary
      · exact h.2
    exact ⟨List.forall_mem_cons.2 ⟨⟨hordinary, hy.not_isSeparator⟩, hplain⟩,
      .cons ⟨hxy.1, hordinary, hy.not_isSeparator⟩ hall⟩

theorem isAbsolute_of_alike
    (h : List.Forall₂ Alike (cs.splitOnP isSeparator) (ds.splitOnP isSeparator)) :
    isAbsolute cs = isAbsolute ds := by
  rw [Bool.eq_iff_iff, isAbsolute_iff_splitOnP, isAbsolute_iff_splitOnP]
  generalize cs.splitOnP isSeparator = ps at h
  generalize ds.splitOnP isSeparator = qs at h
  cases h with
  | nil => simp
  | cons hfirst hrest =>
    cases hrest with
    | nil => simp
    | cons _ _ => simp [hfirst.eq_nil_iff]

/-- Where alike components stand in a pattern and in a text that fills it in, they do so in the
normal forms. -/
theorem fills_components (hfills : Fills cs ds)
    (halike : List.Forall₂ Alike (cs.splitOnP isSeparator) (ds.splitOnP isSeparator)) :
    List.Forall₂ (fun x y => Fills x y ∧ Alike x y) (components cs) (components ds) := by
  have hboth : List.Forall₂ (fun x y => Fills x y ∧ Alike x y) (cs.splitOnP isSeparator)
      (ds.splitOnP isSeparator) :=
    List.Forall₂.mp (fun _ _ => And.intro) hfills.forall₂_splitOnP halike
  rw [components, components, isAbsolute_of_alike halike]
  exact keep_alike (fun _ _ h => h.2) (isAbsolute ds) hboth

/-- A search for the normal form of a pattern yields the normal form of a path that stands in the
tree, if the path fills the pattern in and where they differ no component vanishes or goes up. -/
theorem mem_search_of_fills (hfills : Fills cs ds)
    (halike : List.Forall₂ Alike (cs.splitOnP isSeparator) (ds.splitOnP isSeparator))
    (hstarred : Starred (normalizeChars cs)) (hdirectory : base.isDirectory = true)
    (hfind : (base.find? (entryNames ds)).isSome = true) :
    ∃ g, Glob.read (.ofList (normalizeChars cs)) = .ok g ∧
      .ofList (normalizeChars ds) ∈ g.search base := by
  have hparts := fills_components hfills halike
  have habsolute := isAbsolute_of_alike halike
  by_cases hhere : normalizeChars cs = ['.']
  · -- No component is kept of either.
    have hnone : components cs = [] := by
      rw [← components_normalizeChars, hhere]
      rfl
    rw [hnone, List.forall₂_nil_left_iff] at hparts
    have hsame : normalizeChars ds = ['.'] := by
      rw [← hhere, normalizeChars_eq_spell, normalizeChars_eq_spell, hnone, hparts, habsolute]
    rw [hhere, hsame]
    refine ⟨_, read_here, ?_⟩
    rw [search_here, if_pos hdirectory]
    exact List.mem_singleton_self _
  · obtain ⟨n, rest, hn, hplain, hkept⟩ := exists_components cs
    obtain ⟨ys, hys, hall⟩ :=
      exists_rest_of_forall₂ (fun y hy => hy.2.eq_dots_iff.1 rfl) (hkept ▸ hparts)
    have hsolid : ∀ y ∈ ys, Solid y := fun y hy =>
      (settled_components ds).solid y (List.mem_reverse.2 (hys ▸ List.mem_append_right _ hy))
    obtain ⟨hplains, hfills⟩ := plain_of_forall₂ hall hplain hsolid
    rw [entryNames, hys, dropWhile_replicate_append hplains] at hfind
    rw [normalizeChars_eq_spell, hkept] at hhere hstarred ⊢
    rw [normalizeChars_eq_spell, hys, ← habsolute]
    refine ⟨⟨baseOf (isAbsolute cs) n, rest.map componentOf⟩,
      read_spell hn hplain hhere hstarred, ?_⟩
    obtain ⟨l', hwalk, hpath⟩ :=
      exists_mem_walk (l := ⟨baseOf (isAbsolute cs) n, base, []⟩) hfills hfind
    refine List.mem_map.2 ⟨l', hwalk, ?_⟩
    rw [← String.toList_inj, hpath, toList_foldl_step hn fun y hy => (hplains y hy).solid,
      String.toList_ofList]
    exact .inr (.inr fun y hy => hplains y (List.mem_of_mem_head? hy))

end Path

end Stencil
