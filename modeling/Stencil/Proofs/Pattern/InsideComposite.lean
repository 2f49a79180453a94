import Stencil.Pattern.Quote
import Stencil.Proofs.Pattern.Inside
import Stencil.Proofs.Pattern.SteadyComposite

/-!
# Reading a composite expression inside a group

What the reader of composite expressions reads from an expression alone, it reads from it inside a
group of a longer expression (`run_inside`), if nothing of it is left open at its end: no group and
no flag that drops blanks.
-/

namespace Stencil.Pattern.Composite

open Reader

variable {base : List OpenGroup} {bound : Nat} {names : List (String × Nat)} {more cs : List Char}
  {r r' R R' : Reader}

theorem isRepeatable_eq {ok : Nat → Prop} {p q : Pattern} (h : p.Renumbered ok q) :
    isRepeatable q = isRepeatable p := by
  cases h <;> rfl

theorem takeHold_renumbered {ok : Nat → Prop} {p q : Pattern} (h : p.Renumbered ok q)
    (cs : List Char) :
    (takeHold p cs).1.Renumbered ok (takeHold q cs).1 ∧ (takeHold q cs).2 = (takeHold p cs).2 := by
  cases cs with
  | nil => exact ⟨h, rfl⟩
  | cons c cs =>
    by_cases hc : c = '+'
    · subst hc
      exact ⟨.atomic h, rfl⟩
    · simpa [takeHold, hc] using h

theorem Trailing.nil {f : Flags} (hf : f.ignoreSpace = true) : Trailing f [] :=
  .skipped fun rest h => by
    cases h
    exact ⟨hf, rfl⟩

theorem expectsCount_eq (h : Inside base bound names more r R) :
    expectsCount R = expectsCount r := by
  have items := h.contents.items
  unfold expectsCount
  revert items
  cases r.contents.items <;> cases R.contents.items
  · exact fun _ => rfl
  · exact fun h => by cases h
  · exact fun h => by cases h
  · intro h
    cases h with
    | cons hi _ => cases hi <;> rfl

theorem repeatLast_inside (hmore : Stops more) (h : Inside base bound names more r R)
    {min : Nat} {max : Option Nat} (hr : repeatLast r min max cs = .ok r')
    (hR : repeatLast R min max (cs ++ more) = .ok R') (ht : ¬ Trailing r'.flags r'.rest) :
    Inside base bound names more r' R' := by
  have items := h.contents.items
  unfold repeatLast at hr hR
  split at hr
  case h_2 => cases hr
  next p is hr_items =>
  rw [hr_items] at items
  split at hR
  case h_2 hR_items =>
    cases hRis : R.contents.items with
    | nil => simp [hRis] at items
    | cons j js =>
      rw [hRis] at items
      cases items with
      | cons hi _ =>
        cases hi with
        | part _ hp => exact (hR_items _ _ hRis).elim
  next q js hR_items =>
  rw [hR_items] at items
  cases items with
  | cons hi his =>
  cases hi with
  | part _ hp =>
  simp only [isRepeatable_eq hp] at hR
  split at hr
  · cases hr
  next hrepeat =>
  rw [if_neg hrepeat] at hR
  obtain ⟨ds, hds, hr⟩ := bind_eq_ok.1 hr
  cases hr
  have hne : r.flags.ignoreSpace = true → ds ≠ [] := by
    rintro hf rfl
    exact ht (.nil hf)
  rw [h.flags, skip_append hmore hds hne] at hR
  have hlazy := takeLazy_append hmore ds
  simp only [bind, Except.bind, hlazy, takeHold_append hmore] at hR
  cases hR
  have hold := takeHold_renumbered (.repeated min max ((takeLazy ds).1 == r.flags.swapGreed) hp)
    (takeLazy ds).2
  exact ⟨rfl, ⟨.cons (.part false hold.1) his, h.contents.branches⟩, h.opened,
    h.groups, h.unnamed, h.names, congrArg (· ++ more) hold.2⟩

theorem closeGroup_inside (h : Inside base bound names more r R) (hr : closeGroup r cs = .ok r')
    (hR : closeGroup R (cs ++ more) = .ok R') : Inside base bound names more r' R' := by
  obtain ⟨os, hos, hopened⟩ := h.opened
  unfold closeGroup at hr hR
  rw [hos] at hR
  cases hropened : r.opened with
  | nil => simp [hropened] at hr
  | cons o opened =>
    rw [hropened] at hopened
    cases hopened with
    | @cons _ o' _ os' ho hopened =>
      simp only [hropened, List.cons_append] at hr hR
      have hindex := ho.index
      revert hindex hr hR
      cases o.index <;> cases o'.index <;> intro hr hR hindex <;>
        cases hindex <;> cases hr <;> cases hR
      · exact ⟨ho.flags, ho.outer.push h.contents.close, ⟨os', rfl, hopened⟩,
          h.groups, h.unnamed, h.names, rfl⟩
      · next hj =>
          exact ⟨h.flags, ho.outer.push (.group hj h.contents.close), ⟨os', rfl, hopened⟩,
            h.groups, h.unnamed, h.names, rfl⟩

theorem openNamed_names (h : openNamed r cs = .ok r') : r'.names ≠ [] := by
  unfold openNamed at h
  split at h
  · rw [openCapture_eq h]
    exact List.cons_ne_nil _ _
  · cases h

theorem readReference_unnamed (hnames : r.names = []) : readReference r cs ≠ .ok r' := by
  intro h
  unfold readReference at h
  split at h
  · simp [hnames] at h
  · cases h

/-- A group is opened in the same way whatever stands behind the expression. -/
theorem readGroup_inside (hmore : Stops more) (h : Inside base bound names more r R)
    (hr : readGroup r cs = .ok r') (hR : readGroup R (cs ++ more) = .ok R') (hnames : r'.names = [])
    (ht : ¬ Trailing r'.flags r'.rest) : Inside base bound names more r' R' := by
  rw [readGroup_eq] at hr hR
  split at hr
  · cases hr
  split at hR
  · cases hR
  obtain ⟨ds, hds, hr⟩ := bind_eq_ok.1 hr
  obtain ⟨es, hes, hR⟩ := bind_eq_ok.1 hR
  have hne : r.flags.ignoreSpace = true → ds ≠ [] := by
    rintro hf rfl
    rw [openCapture_eq hr] at ht
    exact ht (.nil hf)
  rw [h.flags, skip_append hmore hds hne] at hes
  cases hes
  cases head_cases ds with
  | named rest heq =>
    have hhead : readHead r ds = openNamed r rest := by simpa using heq [] r (.inl rfl)
    exact absurd hnames (openNamed_names (hhead ▸ hr))
  | reference rest heq =>
    have hhead : readHead r ds = readReference r rest := by simpa using heq [] r (.inl rfl)
    exact absurd (hhead ▸ hr) (readReference_unnamed h.unnamed)
  | setting rest heq =>
    have hhead : readHead r ds = readSetting r rest := by simpa using heq [] r (.inl rfl)
    rw [hhead] at hr
    rw [heq more R (.inr hmore)] at hR
    obtain ⟨⟨f, stop, tail⟩, hflags, hopen⟩ := bind_eq_ok.1 hr
    simp only [readSetting, h.flags, readFlags_append hflags, bind, Except.bind] at hR
    simp only at hopen
    by_cases hstop : stop = ':'
    · rw [if_pos hstop] at hopen hR
      exact h.openGroup .none rfl hopen hR
    · rw [if_neg hstop] at hopen hR
      cases hopen
      cases hR
      exact ⟨rfl, ⟨.cons (.part true .empty) h.contents.items, h.contents.branches⟩,
        h.opened, h.groups, h.unnamed, h.names, rfl⟩
  | capture heq =>
    have hhead : readHead r ds = r.openCapture ds := by simpa using heq [] r (.inl rfl)
    rw [hhead] at hr
    rw [heq more R (.inr hmore)] at hR
    exact h.openCapture hr hR

theorem readSign_inside (hmore : Stops more) (h : Inside base bound names more r R) {c : Char}
    (hr : readSign r c cs = .ok r') (hR : readSign R c (cs ++ more) = .ok R')
    (hnames : r'.names = []) (ht : ¬ Trailing r'.flags r'.rest) :
    Inside base bound names more r' R' := by
  unfold readSign at hr
  split at hr
  · exact readGroup_inside hmore h hr hR hnames ht
  · exact closeGroup_inside h hr hR
  · cases hr
    cases hR
    exact h.alternate
  · obtain ⟨⟨s, ds⟩, hs, hpush⟩ := bind_eq_ok.1 hr
    cases hpush
    simp only [readSign, h.flags, readBracket_append hmore hs] at hR
    cases hR
    exact h.push (.one s)
  · exact repeatLast_inside hmore h hr hR ht
  · exact repeatLast_inside hmore h hr hR ht
  · exact repeatLast_inside hmore h hr hR ht
  · simp only [readSign, expectsCount_eq h, h.flags] at hR
    by_cases hcount : expectsCount r = true
    · simp only [if_pos hcount] at hr hR
      cases hread : readCount? r.flags cs with
      | none =>
        simp only [hread] at hr
        cases hr
        have ht' : ¬ Trailing r.flags cs := ht
        rw [readCount?_append hmore ht', hread] at hR
        cases hR
        exact h.pushLiteral _
      | some b =>
        obtain ⟨min, max, ds⟩ := b
        simp only [hread] at hr
        rw [readCount?_append hmore (Trailing.not_readCount? hread), hread] at hR
        exact repeatLast_inside hmore h hr hR ht
    · simp only [if_neg hcount] at hr hR
      cases hr
      cases hR
      exact h.pushLiteral _
  · obtain ⟨⟨e, ds⟩, he, hpush⟩ := bind_eq_ok.1 hr
    cases hpush
    simp only [readSign, h.flags, readEscape_append hmore false he] at hR
    cases hR
    exact h.pushAtom e.atom
  · obtain ⟨p, hp, hpush⟩ := bind_eq_ok.1 hr
    cases hpush
    simp only [readSign, h.dot_eq, hp] at hR
    cases hR
    exact h.push (renumbered_dot hp)
  · cases hr
    cases hR
    rw [h.caret_eq]
    exact h.push (.check _)
  · cases hr
    cases hR
    rw [h.dollar_eq]
    exact h.push (.check _)
  · cases hr
    unfold readSign at hR
    split at hR
    all_goals first | exact absurd rfl ‹_› | skip
    cases hR
    exact h.pushLiteral _

/-- A step that reads a sign reads the same one inside a group. -/
theorem step_inside (hmore : Stops more) (h : Inside base bound names more r R) {c : Char}
    (hskip : skip r.flags r.rest = .ok (c :: cs)) (hr : step r = .ok r') (hR : step R = .ok R')
    (hnames : r'.names = []) (ht : ¬ Trailing r'.flags r'.rest) :
    Inside base bound names more r' R' := by
  have hskip' : skip R.flags R.rest = .ok (c :: (cs ++ more)) := by
    rw [h.flags, h.rest]
    exact skip_append hmore hskip fun _ => List.cons_ne_nil c cs
  simp only [step, hskip, hskip', bind, Except.bind] at hr hR
  exact readSign_inside hmore h hr hR hnames ht

/-- A character that means nothing in a composite expression stands for itself. -/
theorem readSign_literal (r : Reader) {c : Char} (hc : isCompositeMeta c = false) (cs : List Char) :
    readSign r c cs = .ok (r.push (r.literal c) cs) := by
  unfold readSign
  split
  all_goals first | rfl | exact absurd hc (by decide)

theorem isCompositeMeta_digit {c : Char} (hc : c.isDigit = true ∨ c = ',') :
    isCompositeMeta c = false := by
  by_contra h
  simp only [isCompositeMeta, Bool.not_eq_false, decide_eq_true_eq, List.mem_cons, List.not_mem_nil,
    or_false] at h
  rcases h with
    rfl | rfl | rfl | rfl | rfl | rfl | rfl | rfl | rfl | rfl | rfl | rfl | rfl | rfl | rfl <;>
    revert hc <;> decide

/-- Where a text trails off, reading it ends in a fault or with blanks that are dropped. -/
theorem Trailing.run {cs : List Char} {f : Flags} (ht : Trailing f cs) {n : Nat} {r r' : Reader}
    (hflags : r.flags = f) (hrest : r.rest = cs) (h : Reader.run step n r = .ok r')
    (hend : r'.rest = []) : r'.flags.ignoreSpace = true := by
  induction ht generalizing n r with
  | @skipped cs ht =>
    subst hflags hrest
    by_cases hr : r.rest = []
    · rw [run_end hr] at h
      cases h
      exact (ht [] (by rw [hr]; rfl)).1
    cases n with
    | zero =>
      cases h
      exact absurd hend hr
    | succ n =>
      rw [run_step hr] at h
      obtain ⟨r1, hr1, h⟩ := bind_eq_ok.1 h
      obtain ⟨rest, hskip, hr1⟩ := bind_eq_ok.1 hr1
      obtain ⟨hf, rfl⟩ := ht rest hskip
      cases hr1
      rw [run_end rfl] at h
      cases h
      exact hf
  | @sign cs rest c hskip hc _ ih =>
    subst hflags hrest
    by_cases hr : r.rest = []
    · rw [hr] at hskip
      cases hskip
    cases n with
    | zero =>
      cases h
      exact absurd hend hr
    | succ n =>
      rw [run_step hr] at h
      obtain ⟨r1, hr1, h⟩ := bind_eq_ok.1 h
      simp only [step, hskip, bind, Except.bind,
        readSign_literal r (isCompositeMeta_digit hc)] at hr1
      cases hr1
      exact ih (r := r.push (r.literal c) rest) rfl rfl h

/-! ## Names -/

theorem repeatLast_names {min : Nat} {max : Option Nat} (h : repeatLast r min max cs = .ok r') :
    r'.names = r.names := by
  unfold repeatLast at h
  split at h
  · split at h
    · cases h
    · obtain ⟨ds, -, h⟩ := bind_eq_ok.1 h
      cases h
      rfl
  · cases h

theorem readGroup_names (h : readGroup r cs = .ok r') : r.names <:+ r'.names := by
  have named : ∀ {ds : List Char}, openNamed r ds = .ok r' → r.names <:+ r'.names := by
    intro ds h
    unfold openNamed at h
    split at h
    · rw [openCapture_eq h]
      exact List.suffix_cons _ _
    · cases h
  unfold readGroup at h
  split at h
  · cases h
  obtain ⟨ds, -, h⟩ := bind_eq_ok.1 h
  split at h
  · exact named h
  · unfold readReference at h
    split at h
    · simp only at h
      split at h
      · cases h
        exact List.suffix_rfl
      · cases h
    · cases h
  · exact named h
  · obtain ⟨⟨f, stop, rest⟩, -, h⟩ := bind_eq_ok.1 h
    simp only at h
    split at h
    · rw [openGroup_eq h]
    · cases h
      exact List.suffix_rfl
  · rw [openCapture_eq h]

theorem closeGroup_names (h : closeGroup r cs = .ok r') : r'.names = r.names := by
  unfold closeGroup at h
  split at h
  · cases h
  · split at h <;> cases h <;> rfl

theorem step_names (h : step r = .ok r') : r.names <:+ r'.names := by
  obtain ⟨ds, -, h⟩ := bind_eq_ok.1 h
  have same : r'.names = r.names → r.names <:+ r'.names := fun h => h ▸ List.suffix_rfl
  cases ds with
  | nil =>
    cases h
    exact List.suffix_rfl
  | cons c cs =>
    simp only [readSign] at h
    split at h
    · exact readGroup_names h
    · exact same (closeGroup_names h)
    · cases h
      exact List.suffix_rfl
    · obtain ⟨⟨s, cs⟩, -, h⟩ := bind_eq_ok.1 h
      cases h
      exact List.suffix_rfl
    · exact same (repeatLast_names h)
    · exact same (repeatLast_names h)
    · exact same (repeatLast_names h)
    · split at h
      · exact same (repeatLast_names h)
      · cases h
        exact List.suffix_rfl
    · obtain ⟨⟨e, cs⟩, -, h⟩ := bind_eq_ok.1 h
      cases h
      cases e.atom <;> exact List.suffix_rfl
    · obtain ⟨p, -, h⟩ := bind_eq_ok.1 h
      cases h
      exact List.suffix_rfl
    all_goals
      cases h
      exact List.suffix_rfl

/-! ## Whole expressions -/

/-- An expression that leaves no flag set and no name is read inside a group as alone, up to
comments at its end. -/
theorem run_inside (hmore : Stops more) {n k : Nat} (h : Inside base bound names more r R)
    (hr : Reader.run step n r = .ok r') (hend : r'.rest = []) (hnames : r'.names = [])
    (hflags : r'.flags.ignoreSpace = false) (hR : Reader.run step (n + k + 1) R = .ok R') :
    ∃ m R1, k < m ∧ Inside base bound names more r' R1 ∧ Reader.run step m R1 = .ok R' := by
  induction n generalizing r R with
  | zero =>
    cases hr
    exact ⟨_, R, by omega, h, hR⟩
  | succ n ih =>
    by_cases hrest : r.rest = []
    · rw [run_end hrest] at hr
      cases hr
      exact ⟨_, R, by omega, h, hR⟩
    have hRrest : R.rest ≠ [] := by simp [h.rest, hrest]
    rw [run_step hrest] at hr
    obtain ⟨r1, hr1, hr⟩ := bind_eq_ok.1 hr
    have hnames1 : r1.names = [] := List.suffix_nil.1 (hnames ▸ run_names step_names hr)
    have ht1 : ¬ Trailing r1.flags r1.rest := by
      intro ht
      rw [ht.run rfl rfl hr hend] at hflags
      cases hflags
    obtain ⟨ds, hskip, -⟩ := bind_eq_ok.1 hr1
    cases ds with
    | cons c cs =>
      rw [show n + 1 + k + 1 = (n + k + 1) + 1 by omega, run_step hRrest] at hR
      obtain ⟨R1, hR1, hR⟩ := bind_eq_ok.1 hR
      exact ih (step_inside hmore h hskip hr1 hR1 hnames1 ht1) hr hR
    | nil =>
      simp only [step, hskip, bind, Except.bind] at hr1
      cases hr1
      rw [run_end rfl] at hr
      cases hr
      have hplain : r.flags.ignoreSpace = true → ([] : List Char) ≠ [] := by
        intro hf
        rw [hf] at hflags
        cases hflags
      have hskipR : skip R.flags R.rest = .ok more := by
        rw [h.flags, h.rest]
        exact skip_append hmore hskip hplain
      -- Dropping the comments at the end is part of the step that closes the group.
      have same : step { R with rest := more } = step R := by
        simp only [step, hskipR, skip_skip hskipR, bind, Except.bind]
        cases hmore <;> rfl
      refine ⟨n + 1 + k + 1, { R with rest := more }, by omega, ?_, ?_⟩
      · exact ⟨h.flags, h.contents, h.opened, h.groups, h.unnamed, h.names, rfl⟩
      · rw [run_step hRrest, ← same] at hR
        rw [run_step hmore.ne_nil]
        exact hR

/-- The pattern of an expression that is read alone and leaves nothing behind: no open group, no
flag and no name. -/
def alone? (regex : String) : Option Pattern :=
  match Reader.run step (regex.toList.length + 1) (.start regex.toList) with
  | .ok r =>
    if r.rest = [] ∧ r.opened.isEmpty ∧ r.names = [] ∧ r.flags = {} then some
      r.contents.close else none
  | .error _ => none

theorem alone?_eq_some {regex : String} {p : Pattern} (h : alone? regex = some p) :
    ∃ r, Reader.run step (regex.toList.length + 1) (.start regex.toList) = .ok r ∧
      r.rest = [] ∧ r.opened = [] ∧ r.names = [] ∧ r.flags = {} ∧ r.contents.close = p := by
  unfold alone? at h
  split at h
  · next r hr =>
    split at h
    · next hleft =>
      cases h
      exact ⟨r, hr, hleft.1, List.isEmpty_iff.1 hleft.2.1, hleft.2.2.1, hleft.2.2.2, rfl⟩
    · cases h
  · cases h

/-- An expression that is read to its end adds its pattern. -/
theorem alone?_of_leadsTo {regex : String} {c : Contents} {p : Pattern}
    (h : LeadsTo step (.start regex.toList)
      { Reader.start regex.toList with contents := c, rest := [] })
    (hclose : c.close = p) : alone? regex = some p := by
  have hrun : Reader.run step (regex.toList.length + 1) (.start regex.toList) = _ := h.run_eq rfl
  unfold alone?
  rw [hrun]
  exact (if_pos ⟨rfl, rfl, rfl, rfl⟩).trans (congrArg some hclose)

end Stencil.Pattern.Composite
