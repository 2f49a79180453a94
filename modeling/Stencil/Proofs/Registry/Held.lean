import Stencil.Registry.Progress
import Mathlib.Data.List.Nodup
import Mathlib.Data.Set.Card

/-!
# Keys that are held

Keys are taken up and let go by calls in any order. A call need not have an effect: a key that is
held is not taken up again, and one that is not held cannot be let go. The calls that have an effect
are the history of a run, and from the history alone it can be told which keys are held and in which
order (`Recorded`): those on which the last call has taken them up, in the order in which this was
done.

A call takes this on from one history to the next (`Recorded.call`), and so it is of every run
(`recorded_after`). It makes no difference that a key is sought from the back when it is let go,
since it is held once at most (`keys_finish`).
-/

namespace Stencil.Progress

/-! ## Calls and their history -/

/-- A call on the keys under construction. -/
inductive Call where
  | start (key : String)
  | finish (key : String)
deriving DecidableEq, Repr

/-- The key that a call is on. -/
def Call.key : Call → String
  | .start key => key
  | .finish key => key

/-- Whether a call has an effect: a start if it succeeds, a finish if the key is held. -/
def takesEffect (p : Progress) : Call → Bool
  | .start key => (p.start key).isOk
  | .finish key => p.isHeld key

/-- The keys that a call leaves behind. A start that fails leaves those that there were. -/
def call (p : Progress) : Call → Progress
  | .start key =>
    match p.start key with
    | .ok p' => p'
    | .error _ => p
  | .finish key => p.finish key

/-- The keys that calls, one after another, leave behind. -/
def after (p : Progress) (calls : List Call) : Progress := calls.foldl call p

/-- The calls that have an effect, in their order. -/
def history (p : Progress) : List Call → List Call
  | [] => []
  | c :: calls =>
    if p.takesEffect c then c :: (p.call c).history calls else (p.call c).history calls

/-- At a place of a history stands a call of some sort, and behind it no call of this sort. -/
structure LastAt (h : List Call) (sort : Call → Prop) (i : Nat) (c : Call) : Prop where
  here : h[i]? = some c
  of_sort : sort c
  last : ∀ j d, i < j → h[j]? = some d → ¬ sort d

/-- The last call on a key has taken it up. -/
def Leaves (h : List Call) (key : String) : Prop :=
  ∃ i, LastAt h (fun c => c.key = key) i (.start key)

/-- The last time that one key was taken up was before the last time that another one was. -/
def TakesUpBefore (h : List Call) (key key' : String) : Prop :=
  ∃ i j, i < j ∧ LastAt h (fun c => c = .start key) i (.start key) ∧
    LastAt h (fun c => c = .start key') j (.start key')

/-- The keys that are held are those that a history leaves, in the order in which it has taken them
up. -/
structure Recorded (h : List Call) (p : Progress) : Prop where
  nodup : p.keys.Nodup
  held : ∀ key, key ∈ p.keys ↔ Leaves h key
  order : p.keys.Pairwise (TakesUpBefore h)

variable {p : Progress} {key key' : String} {calls h : List Call} {c d : Call} {i : Nat}

/-! ## One call -/

theorem mem_keys : key ∈ p.keys ↔ p.isHeld key = true := by
  rw [isHeld, List.contains_iff_mem]

theorem takesEffect_start : p.takesEffect (.start key) = true ↔ key ∉ p.keys := by
  rw [mem_keys, takesEffect, start]
  split <;> simp [*, Except.isOk, Except.toBool]

theorem call_start (hfree : key ∉ p.keys) : p.call (.start key) = ⟨p.keys ++ [key]⟩ := by
  rw [mem_keys] at hfree
  simp only [call, start, if_neg hfree]

/-- The occurrence of a key that is let go is the only one. -/
theorem keys_finish (hnodup : p.keys.Nodup) : (p.finish key).keys = p.keys.erase key := by
  change (p.keys.reverse.erase key).reverse = p.keys.erase key
  rw [(List.nodup_reverse.2 hnodup).erase_eq_filter, hnodup.erase_eq_filter, List.filter_reverse,
    List.reverse_reverse]

theorem finish_of_not_mem (hfree : key ∉ p.keys) : p.finish key = p := by
  have hreverse : key ∉ p.keys.reverse := mt List.mem_reverse.1 hfree
  rw [finish, List.erase_of_not_mem hreverse, List.reverse_reverse]

/-- A call leaves everything as it was just if it has no effect. -/
theorem call_eq_self_iff : p.call c = p ↔ p.takesEffect c = false := by
  rw [← Bool.not_eq_true]
  cases c with
  | start key =>
    rw [takesEffect_start, not_not]
    constructor
    · intro h
      by_contra hfree
      have hlength := congrArg (fun q => q.keys.length) ((call_start hfree).symm.trans h)
      simp at hlength
    · intro hheld
      simp only [call, start, if_pos (mem_keys.1 hheld)]
  | finish key =>
    rw [takesEffect, ← mem_keys]
    refine ⟨fun h hheld => ?_, finish_of_not_mem⟩
    have hlength := congrArg (fun q => q.keys.length) h
    have hpos := List.length_pos_of_mem hheld
    simp only [call, finish, List.length_reverse,
      List.length_erase_of_mem (List.mem_reverse.2 hheld)] at hlength
    omega

/-! ## A history with a further call -/

theorem lastAt_concat {sort : Call → Prop} :
    LastAt (h ++ [c]) sort i d ↔ sort c ∧ i = h.length ∧ d = c ∨ ¬ sort c ∧ LastAt h sort i d := by
  have hend : (h ++ [c])[h.length]? = some c := List.getElem?_concat_length
  constructor
  · rintro ⟨here, hsort, last⟩
    rcases Nat.lt_trichotomy i h.length with hi | rfl | hi
    · have hc := last _ _ hi hend
      refine .inr ⟨hc, ?_, hsort, fun j e hij hj => last j e hij ?_⟩
      · rwa [List.getElem?_append_left hi] at here
      · rw [List.getElem?_append_left (List.getElem?_eq_some_iff.1 hj).1, hj]
    · rw [hend, Option.some.injEq] at here
      subst here
      exact .inl ⟨hsort, rfl, rfl⟩
    · rw [List.getElem?_eq_none (by simpa using hi)] at here
      cases here
  · rintro (⟨hc, rfl, rfl⟩ | ⟨hc, here, hsort, last⟩)
    · refine ⟨hend, hc, fun j e hij hj => ?_⟩
      rw [List.getElem?_eq_none (by simpa using hij)] at hj
      cases hj
    · have hi := (List.getElem?_eq_some_iff.1 here).1
      refine ⟨by rw [List.getElem?_append_left hi, here], hsort, fun j e hij hj => ?_⟩
      rcases Nat.lt_or_ge j h.length with hlt | hge
      · rw [List.getElem?_append_left hlt] at hj
        exact last j e hij hj
      · -- Only the further call stands behind the history.
        rw [List.getElem?_append_right hge] at hj
        obtain rfl := List.mem_singleton.1 (List.mem_of_getElem? hj)
        exact hc

theorem leaves_start : Leaves (h ++ [.start key]) key' ↔ key' = key ∨ Leaves h key' := by
  unfold Leaves
  simp only [lastAt_concat, Call.key, Call.start.injEq]
  by_cases hkey : key = key'
  · simp [hkey]
  · simp [hkey, Ne.symm hkey]

theorem leaves_finish : Leaves (h ++ [.finish key]) key' ↔ key' ≠ key ∧ Leaves h key' := by
  unfold Leaves
  simp only [lastAt_concat, Call.key, reduceCtorEq, and_false, false_or]
  simp only [exists_and_left, ne_eq, eq_comm (a := key)]

/-- The last call on a key that is left is the last one that has taken it up. -/
theorem LastAt.of_leaves (hlast : LastAt h (fun c => c.key = key) i (.start key)) :
    LastAt h (fun c => c = .start key) i (.start key) := by
  refine ⟨hlast.here, rfl, fun j d hij hj heq => hlast.last j d hij hj ?_⟩
  rw [heq]
  rfl

theorem TakesUpBefore.concat {key'' : String} (hbefore : TakesUpBefore h key' key'')
    (hkey' : c ≠ .start key') (hkey'' : c ≠ .start key'') :
    TakesUpBefore (h ++ [c]) key' key'' := by
  obtain ⟨i, j, hij, hi, hj⟩ := hbefore
  exact ⟨i, j, hij, lastAt_concat.2 (.inr ⟨hkey', hi⟩), lastAt_concat.2 (.inr ⟨hkey'', hj⟩)⟩

/-- A key that is taken up comes behind all those that are held. -/
theorem takesUpBefore_concat (hleaves : Leaves h key') (hne : key' ≠ key) :
    TakesUpBefore (h ++ [.start key]) key' key := by
  obtain ⟨i, hi⟩ := hleaves
  have hlt := (List.getElem?_eq_some_iff.1 hi.here).1
  refine ⟨i, h.length, hlt, lastAt_concat.2 (.inr ⟨?_, hi.of_leaves⟩),
    lastAt_concat.2 (.inl ⟨rfl, rfl, rfl⟩)⟩
  simpa using hne.symm

/-! ## Runs -/

theorem Recorded.start (hp : Recorded h p) (hfree : key ∉ p.keys) :
    Recorded (h ++ [.start key]) ⟨p.keys ++ [key]⟩ := by
  have hne : ∀ key' ∈ p.keys, key' ≠ key := by
    rintro key' hheld rfl
    exact hfree hheld
  refine ⟨hp.nodup.append (List.nodup_singleton key) (by simpa using hfree), fun key' => ?_, ?_⟩
  · rw [leaves_start, ← hp.held, List.mem_append, List.mem_singleton, or_comm]
  · refine List.pairwise_append.2 ⟨?_, List.pairwise_singleton ..,
      fun key' hheld key'' hkey'' => ?_⟩
    · refine hp.order.imp_of_mem fun {key' key''} hkey' hkey'' hbefore => hbefore.concat ?_ ?_
      · simpa using (hne key' hkey').symm
      · simpa using (hne key'' hkey'').symm
    · obtain rfl := List.mem_singleton.1 hkey''
      exact takesUpBefore_concat ((hp.held key').1 hheld) (hne key' hheld)

theorem Recorded.finish (hp : Recorded h p) : Recorded (h ++ [.finish key]) (p.finish key) := by
  have hkeys : (p.finish key).keys = p.keys.erase key := keys_finish hp.nodup
  refine ⟨hkeys ▸ hp.nodup.erase key, fun key' => ?_, ?_⟩
  · rw [hkeys, hp.nodup.mem_erase_iff, leaves_finish, hp.held]
  · rw [hkeys]
    exact (hp.order.sublist List.erase_sublist).imp fun hbefore => hbefore.concat nofun nofun

/-- A call takes the history on if it has an effect, and changes nothing otherwise. -/
theorem Recorded.call (hp : Recorded h p) (c : Call) :
    Recorded (h ++ if p.takesEffect c then [c] else []) (p.call c) := by
  split
  · next heffect =>
    cases c with
    | start key =>
      rw [takesEffect_start] at heffect
      rw [call_start heffect]
      exact hp.start heffect
    | finish key => exact hp.finish
  · next heffect =>
    rw [List.append_nil, call_eq_self_iff.2 (Bool.eq_false_iff.2 heffect)]
    exact hp

theorem history_concat (p : Progress) (calls : List Call) (c : Call) :
    p.history (calls ++ [c]) = p.history calls ++ if (p.after calls).takesEffect c then [c]
      else [] := by
  induction calls generalizing p with
  | nil => rfl
  | cons c' calls ih =>
    simp only [List.cons_append, history, ih, after, List.foldl_cons]
    split <;> rfl

theorem after_concat (p : Progress) (calls : List Call) (c : Call) :
    p.after (calls ++ [c]) = (p.after calls).call c :=
  List.foldl_concat ..

theorem recorded_empty : Recorded [] .empty := by
  refine ⟨List.nodup_nil, fun key => ⟨nofun, ?_⟩, .nil⟩
  rintro ⟨i, hi⟩
  simpa using hi.here

theorem recorded_after (calls : List Call) :
    Recorded (empty.history calls) (empty.after calls) := by
  induction calls using List.reverseRecOn with
  | nil => exact recorded_empty
  | append_singleton calls c ih =>
    rw [history_concat, after_concat]
    exact ih.call c

/-- **The keys under construction are an ordered set.** Whatever calls are made, no key is held
twice, and a key is held just if the last call on it that had an effect has taken it up. The depth
is the number of these keys, and they are in the order in which they were last taken up. A start
fails just on a key that is held, and a call without an effect changes nothing. -/
theorem held_exact (calls : List Call) :
    let p := empty.after calls
    let h := empty.history calls
    p.keys.Nodup ∧ (∀ key, p.isHeld key = true ↔ Leaves h key) ∧
      {key | Leaves h key}.encard = p.depth ∧ p.keys.Pairwise (TakesUpBefore h) ∧
      (∀ key, (∃ chain, p.start key = .error chain) ↔ p.isHeld key = true) ∧
      ∀ c, p.call c = p ↔ p.takesEffect c = false := by
  intro p h
  have hp : Recorded h p := recorded_after calls
  have hset : {key | Leaves h key} = (p.keys.toFinset : Set String) := by
    ext key
    simp [hp.held]
  refine ⟨hp.nodup, fun key => ?_, ?_, hp.order, fun key => ?_, fun c => call_eq_self_iff⟩
  · rw [← mem_keys, hp.held]
  · rw [hset, Set.encard_coe_eq_coe_finsetCard, List.toFinset_card_of_nodup hp.nodup, depth]
  · unfold start
    split <;> simp [*]

/-- A key that is let go and taken up again comes behind the one that has been held all along. -/
example :
    (empty.after [.start "a", .start "b", .start "a", .finish "a", .finish "c", .start "a"]).keys =
      ["b", "a"] := by decide

end Stencil.Progress
