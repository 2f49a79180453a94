import Stencil.Proofs.Pattern.Meaning
import Stencil.Proofs.Pattern.ProgressPlain

/-!
# What is read is plain

An expression asks for no text again and holds to no preferred way: no step of reading adds such a
pattern (`Reader.IsPlain.step`), so that what is read has its meaning by `Pattern.Matches`.
-/

namespace Stencil.Pattern

theorem isPlain_concat {ps : List Pattern} (h : ∀ p ∈ ps, p.isPlain = true) :
    (concat ps).isPlain = true :=
  @concat_of_forall (·.isPlain = true) rfl (fun hp hq => Bool.and_eq_true_iff.2 ⟨hp, hq⟩) ps h

theorem isPlain_choice {ps : List Pattern} (h : ∀ p ∈ ps, p.isPlain = true) :
    (choice ps).isPlain = true :=
  @choice_of_forall (·.isPlain = true) rfl (fun hp hq => Bool.and_eq_true_iff.2 ⟨hp, hq⟩) ps h

/-- Contents of a group without a pattern that asks for a text again or holds to its preferred
way. -/
structure Contents.IsPlain (c : Contents) : Prop where
  items : ∀ i ∈ c.items, ∀ p ∈ i.pattern?, p.isPlain = true
  branches : ∀ p ∈ c.branches, p.isPlain = true

namespace Contents.IsPlain

variable {c : Contents} {p : Pattern}

theorem empty : Contents.empty.IsPlain := ⟨by simp [Contents.empty], by simp [Contents.empty]⟩

theorem push (h : c.IsPlain) (hp : p.isPlain = true) : (c.push p).IsPlain := by
  refine ⟨fun i hi q hq => ?_, h.branches⟩
  rcases List.mem_cons.1 hi with rfl | hi
  · cases hq
    exact hp
  · exact h.items i hi q hq

theorem branch (h : c.IsPlain) : c.branch.isPlain = true := by
  refine isPlain_concat fun p hp => ?_
  obtain ⟨i, hi, hip⟩ := List.mem_filterMap.1 (List.mem_reverse.1 hp)
  exact h.items i hi p hip

theorem alternate (h : c.IsPlain) : c.alternate.IsPlain :=
  ⟨fun _ hi => (List.not_mem_nil hi).elim, List.forall_mem_cons.2 ⟨h.branch, h.branches⟩⟩

theorem close (h : c.IsPlain) : c.close.isPlain = true :=
  isPlain_choice fun _ hp => h.alternate.branches _ (List.mem_reverse.1 hp)

end Contents.IsPlain

namespace Reader

variable {r r' : Reader} {cs : List Char}

/-- A reader that has read plain patterns alone, in all groups that are open. -/
structure IsPlain (r : Reader) : Prop where
  contents : r.contents.IsPlain
  opened : ∀ o ∈ r.opened, o.outer.IsPlain

namespace IsPlain

theorem start (cs : List Char) : (Reader.start cs).IsPlain :=
  ⟨.empty, fun _ ho => (List.not_mem_nil ho).elim⟩

theorem push (h : r.IsPlain) {p : Pattern} (hp : p.isPlain = true) (cs : List Char) :
    (r.push p cs).IsPlain :=
  ⟨h.contents.push hp, h.opened⟩

theorem step (h : r.IsPlain) (hr : step r = .ok r') : r'.IsPlain := by
  cases step_does hr with
  | skip => exact ⟨h.contents, h.opened⟩
  | take s cs => exact h.push rfl cs
  | look a cs => exact h.push rfl cs
  | alternate cs => exact ⟨h.contents.alternate, h.opened⟩
  | @repeatLast p fresh items min max greedy cs hitems =>
    have hall := hitems ▸ h.contents.items
    have hp : (Pattern.repeated p min max greedy).isPlain = true :=
      hall _ (List.mem_cons_self ..) p rfl
    have hitems' := fun i hi => hall i (List.mem_cons_of_mem _ hi)
    refine ⟨⟨List.forall_mem_cons.2 ⟨?_, hitems'⟩, h.contents.branches⟩, h.opened⟩
    rintro q ⟨⟩
    exact hp
  | set f cs =>
    refine ⟨⟨List.forall_mem_cons.2 ⟨?_, h.contents.items⟩, h.contents.branches⟩, h.opened⟩
    rintro q ⟨⟩
  | enter index f groups cs => exact ⟨.empty, List.forall_mem_cons.2 ⟨h.contents, h.opened⟩⟩
  | name name cs => exact ⟨.empty, List.forall_mem_cons.2 ⟨h.contents, h.opened⟩⟩
  | leave p cs hopened hp =>
    obtain ⟨ho, hall⟩ := List.forall_mem_cons.1 (hopened ▸ h.opened)
    refine ⟨ho.push ?_, hall⟩
    rcases hp with rfl | ⟨i, rfl⟩
    · exact h.contents.close
    · exact h.contents.close

theorem run (h : r.IsPlain) {n : Nat} (hr : run Reader.step n r = .ok r') : r'.IsPlain := by
  induction n generalizing r with
  | zero =>
    cases hr
    exact h
  | succ n ih =>
    by_cases hrest : r.rest = []
    · rw [run_end hrest] at hr
      cases hr
      exact h
    · rw [run_step hrest] at hr
      obtain ⟨r1, hr1, hr⟩ := bind_eq_ok.1 hr
      exact ih (h.step hr1) hr

end IsPlain

end Reader

/-- The pattern of an expression is plain. -/
theorem Expression.isPlain_of_read {regex : String} {e : Expression}
    (h : Expression.read regex = .ok e) : e.pattern.isPlain = true := by
  obtain ⟨r, hr, -, -, hclose⟩ := Expression.read_eq_ok h
  rw [← hclose]
  exact ((Reader.IsPlain.start _).run hr).contents.close

end Stencil.Pattern
