/-!
# Maps from names

A map from names to values whose entries stand in the order of the names. `get?_insert` says what a
name gives after an insertion, and maps that give the same values are the same (`ext_get?`).
-/

namespace Stencil

namespace NameMap

variable {α β : Type}

/-! ## Lists of entries -/

/-- Entries in increasing order of their names, so that no name has two. -/
def Sorted (es : List (String × α)) : Prop := es.Pairwise (·.1 < ·.1)

/-- The value of a name in a list of entries. -/
def find (name : String) : List (String × α) → Option α
  | [] => none
  | (n, v) :: es => if n = name then some v else find name es

/-- A list of entries with a name's value set, at the place of the name. -/
def place (name : String) (value : α) : List (String × α) → List (String × α)
  | [] => [(name, value)]
  | (n, v) :: es =>
    if n = name then (name, value) :: es
    else if name < n then (name, value) :: (n, v) :: es
    else (n, v) :: place name value es

theorem find_place (name other : String) (value : α) (es : List (String × α)) :
    find other (place name value es) = if name = other then some value else find other es := by
  induction es with
  | nil => rfl
  | cons e es ih =>
    obtain ⟨n, v⟩ := e
    simp only [place]
    split
    · next h =>
      subst h
      by_cases h' : n = other <;> simp [find, h']
    · split
      · by_cases h' : name = other <;> simp [find, h']
      · next h _ =>
        simp only [find, ih]
        by_cases h' : n = other
        · subst h'
          simp [Ne.symm h]
        · simp [h']

theorem mem_of_mem_place {name : String} {value : α} {es : List (String × α)} {e : String × α}
    (h : e ∈ place name value es) : e = (name, value) ∨ e ∈ es := by
  induction es with
  | nil => exact .inl (List.mem_singleton.1 h)
  | cons e' es ih =>
    simp only [place] at h
    split at h
    · exact (List.mem_cons.1 h).imp_right (List.mem_cons_of_mem _)
    · split at h
      · exact List.mem_cons.1 h
      · rcases List.mem_cons.1 h with rfl | h
        · exact .inr (List.mem_cons_self ..)
        · exact (ih h).imp_right (List.mem_cons_of_mem _)

theorem lt_of_not_lt {a b : String} (hne : a ≠ b) (h : ¬ b < a) : a < b := by
  by_cases hab : a < b
  · exact hab
  · exact absurd (String.le_antisymm h hab) hne

theorem sorted_place {es : List (String × α)} (h : Sorted es) (name : String) (value : α) :
    Sorted (place name value es) := by
  induction es with
  | nil => exact List.pairwise_singleton ..
  | cons e es ih =>
    obtain ⟨n, v⟩ := e
    obtain ⟨hn, hes⟩ := List.pairwise_cons.1 h
    simp only [place]
    split
    · next heq =>
      subst heq
      exact List.pairwise_cons.2 ⟨hn, hes⟩
    · next hne =>
      split
      · next hlt =>
        refine List.pairwise_cons.2 ⟨fun e he => ?_, h⟩
        rcases List.mem_cons.1 he with rfl | he
        · exact hlt
        · exact String.lt_trans hlt (hn e he)
      · next hnot =>
        refine List.pairwise_cons.2 ⟨fun e he => ?_, ih hes⟩
        rcases mem_of_mem_place he with rfl | he
        · exact lt_of_not_lt hne hnot
        · exact hn e he

theorem find_eq_none_iff {name : String} {es : List (String × α)} :
    find name es = none ↔ ∀ e ∈ es, e.1 ≠ name := by
  induction es with
  | nil => simp [find]
  | cons e es ih =>
    obtain ⟨n, v⟩ := e
    by_cases h : n = name
    · simp [find, h]
    · simp [find, h, ih]

theorem find_eq_some_iff {name : String} {value : α} {es : List (String × α)} (h : Sorted es) :
    find name es = some value ↔ (name, value) ∈ es := by
  induction es with
  | nil => simp [find]
  | cons e es ih =>
    obtain ⟨n, v⟩ := e
    obtain ⟨hn, hes⟩ := List.pairwise_cons.1 h
    by_cases hname : n = name
    · subst hname
      have hnone : (n, value) ∉ es := fun hmem => String.lt_irrefl n (hn _ hmem)
      simp [find, hnone, eq_comm]
    · simp [find, hname, ih hes, Ne.symm hname]

theorem find_filter_ne (name other : String) (es : List (String × α)) :
    find other (es.filter (·.1 ≠ name)) = if name = other then none else find other es := by
  induction es with
  | nil => simp [find]
  | cons e es ih =>
    obtain ⟨n, v⟩ := e
    rw [List.filter_cons]
    by_cases h : n = name
    · rw [if_neg (by simp [h]), ih]
      by_cases h' : name = other <;> simp [find, h, h']
    · rw [if_pos (by simpa using h), find, find, ih]
      by_cases h' : n = other
      · simp [h', Ne.symm (h' ▸ h)]
      · rw [if_neg h', if_neg h']

/-- Sorted entries that give the same values are the same. -/
theorem sorted_ext {es fs : List (String × α)} (hes : Sorted es) (hfs : Sorted fs)
    (h : ∀ x, find x es = find x fs) : es = fs := by
  induction es generalizing fs with
  | nil =>
    cases fs with
    | nil => rfl
    | cons f fs => simpa [find] using h f.1
  | cons e es ih =>
    cases fs with
    | nil => simpa [find] using h e.1
    | cons f fs =>
      obtain ⟨he, hes'⟩ := List.pairwise_cons.1 hes
      obtain ⟨hf, hfs'⟩ := List.pairwise_cons.1 hfs
      -- Neither first entry can stand further behind among the others.
      have hmem : ∀ x v, (x, v) ∈ e :: es ↔ (x, v) ∈ f :: fs := fun x v => by
        rw [← find_eq_some_iff hes, ← find_eq_some_iff hfs, h]
      have hfirst : e = f := by
        rcases List.mem_cons.1 ((hmem e.1 e.2).1 (List.mem_cons_self ..)) with heq | hin
        · exact heq
        rcases List.mem_cons.1 ((hmem f.1 f.2).2 (List.mem_cons_self ..)) with heq | hin'
        · exact heq.symm
        · exact absurd (String.lt_trans (hf _ hin) (he _ hin')) (String.lt_irrefl _)
      subst hfirst
      refine congrArg (e :: ·) (ih hes' hfs' fun x => ?_)
      by_cases hx : e.1 = x
      · have hnot : ∀ {l : List (String × α)}, (∀ a ∈ l, e.1 < a.1) → find x l = none := fun hl =>
          find_eq_none_iff.2 fun a ha heq => String.lt_irrefl e.1 (by simpa [hx, heq] using hl a ha)
        rw [hnot he, hnot hf]
      · simpa [find, hx] using h x

end NameMap

/-! ## Maps -/

/-- A map from names, with its entries in increasing order of the names. -/
structure NameMap (α : Type) where
  entries : List (String × α)
  sorted : NameMap.Sorted entries
deriving DecidableEq, Repr

namespace NameMap

variable {α β : Type}

/-- The map with no entry. -/
def empty : NameMap α := ⟨[], .nil⟩

instance : Inhabited (NameMap α) := ⟨empty⟩

/-- The value of a name. -/
def get? (m : NameMap α) (name : String) : Option α := find name m.entries

/-- Whether a name has a value. -/
def contains (m : NameMap α) (name : String) : Bool := (m.get? name).isSome

/-- The map with a name's value set. -/
def insert (m : NameMap α) (name : String) (value : α) : NameMap α :=
  ⟨place name value m.entries, sorted_place m.sorted name value⟩

/-- The map without a name. -/
def erase (m : NameMap α) (name : String) : NameMap α :=
  ⟨m.entries.filter (·.1 ≠ name), List.Pairwise.filter _ m.sorted⟩

/-- The names, in increasing order. -/
def names (m : NameMap α) : List String := m.entries.map (·.1)

/-- The values, in the order of their names. -/
def values (m : NameMap α) : List α := m.entries.map (·.2)

/-- The map of a list of entries, a later one standing in for an earlier one of the same name. -/
def ofList (es : List (String × α)) : NameMap α := es.foldl (fun m e => m.insert e.1 e.2) empty

/-- The map with a function applied to each value. -/
def map (f : α → β) (m : NameMap α) : NameMap β :=
  ⟨m.entries.map (Prod.map id f), List.Pairwise.map (Prod.map id f) (fun _ _ h => h) m.sorted⟩

theorem get?_insert (m : NameMap α) (name other : String) (value : α) :
    (m.insert name value).get? other = if name = other then some value else m.get? other :=
  find_place name other value m.entries

theorem get?_erase (m : NameMap α) (name other : String) :
    (m.erase name).get? other = if name = other then none else m.get? other :=
  find_filter_ne name other m.entries

@[simp] theorem get?_empty (name : String) : (empty : NameMap α).get? name = none := rfl

theorem get?_eq_some_iff {m : NameMap α} {name : String} {value : α} :
    m.get? name = some value ↔ (name, value) ∈ m.entries := find_eq_some_iff m.sorted

/-- Maps that give the same values are the same. -/
theorem ext_get? {m n : NameMap α} (h : ∀ x, m.get? x = n.get? x) : m = n := by
  obtain ⟨es, hes⟩ := m
  obtain ⟨fs, hfs⟩ := n
  obtain rfl := sorted_ext hes hfs h
  rfl

end NameMap

end Stencil
