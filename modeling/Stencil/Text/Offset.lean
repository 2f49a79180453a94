/-!
# Offsets

Lengths of text in UTF-8 bytes, and the way from an offset in bytes to one in characters. Between
the characters of a text nothing is lost on that way (`charOffset_byteOffset`).
-/

namespace Stencil

/-- How many bytes the characters take in UTF-8. -/
def byteLength : List Char → Nat
  | [] => 0
  | c :: cs => c.utf8Size + byteLength cs

@[simp] theorem byteLength_nil : byteLength [] = 0 := rfl

@[simp] theorem byteLength_cons (c : Char) (cs : List Char) :
    byteLength (c :: cs) = c.utf8Size + byteLength cs := rfl

@[simp] theorem byteLength_append (xs ys : List Char) :
    byteLength (xs ++ ys) = byteLength xs + byteLength ys := by
  induction xs with
  | nil => simp
  | cons c cs ih => simp [ih, Nat.add_assoc]

/-- Consecutive stretches of text as pairs of byte offsets, the first one starting at `start`. -/
def byteSpans (start : Nat) : List (List Char) → List (Nat × Nat)
  | [] => []
  | cs :: rest => (start, start + byteLength cs) :: byteSpans (start + byteLength cs) rest

@[simp] theorem length_byteSpans (start : Nat) (parts : List (List Char)) :
    (byteSpans start parts).length = parts.length := by
  induction parts generalizing start with
  | nil => rfl
  | cons p ps ih => simp [byteSpans, ih]

/-! ## Bytes and characters -/

/-- The byte at which the character of a number begins. -/
def byteOffset (cs : List Char) (pos : Nat) : Nat := byteLength (cs.take pos)

/-- What stands before a byte and what from there on, if a character begins or the text ends
there. -/
def splitAtByte? : List Char → (byte : Nat) → Option (List Char × List Char)
  | cs, 0 => some ([], cs)
  | [], _ + 1 => none
  | c :: cs, byte + 1 =>
    if byte + 1 < c.utf8Size then none
    else (splitAtByte? cs (byte + 1 - c.utf8Size)).map fun parts => (c :: parts.1, parts.2)

/-- How many characters stand before a byte; where no character begins, all of them. -/
def charOffset (cs : List Char) (byte : Nat) : Nat :=
  match splitAtByte? cs byte with
  | some (before, _) => before.length
  | none => cs.length

/-- The characters of a text with the bytes at which they begin. -/
def charIndices (start : Nat) : List Char → List (Nat × Char)
  | [] => []
  | c :: cs => (start, c) :: charIndices (start + c.utf8Size) cs

/-- The byte at which a word and a text from `start` on disagree, or the shorter of them ends. -/
def divergence (w cs : List Char) (start : Nat) : Nat :=
  let rest := ((splitAtByte? cs start).map Prod.snd).getD []
  ((((charIndices 0 w).zip rest).find? fun p => p.1.2 ≠ p.2).map fun p => start + p.1.1).getD
    (start + min (byteLength rest) (byteLength w))

theorem splitAtByte?_zero (cs : List Char) : splitAtByte? cs 0 = some ([], cs) := by
  cases cs <;> rfl

theorem splitAtByte?_cons (c : Char) (cs : List Char) (byte : Nat) :
    splitAtByte? (c :: cs) (c.utf8Size + byte) =
      (splitAtByte? cs byte).map fun parts => (c :: parts.1, parts.2) := by
  obtain ⟨n, hn⟩ : ∃ n, c.utf8Size + byte = n + 1 :=
    ⟨c.utf8Size + byte - 1, by have := c.utf8Size_pos; omega⟩
  rw [hn, splitAtByte?, ← hn, if_neg (by omega), Nat.add_sub_cancel_left]

theorem splitAtByte?_append (us vs : List Char) :
    splitAtByte? (us ++ vs) (byteLength us) = some (us, vs) := by
  induction us with
  | nil => exact splitAtByte?_zero vs
  | cons c us ih => rw [List.cons_append, byteLength_cons, splitAtByte?_cons, ih, Option.map_some]

theorem charOffset_append (us vs : List Char) :
    charOffset (us ++ vs) (byteLength us) = us.length := by
  rw [charOffset, splitAtByte?_append]

/-- A character is found again by the byte at which it begins. -/
theorem charOffset_byteOffset {cs : List Char} {pos : Nat} (h : pos ≤ cs.length) :
    charOffset cs (byteOffset cs pos) = pos := by
  have hpos := charOffset_append (cs.take pos) (cs.drop pos)
  rwa [List.take_append_drop, List.length_take, Nat.min_eq_left h] at hpos

/-- Only at its end is a text over. -/
theorem byteOffset_eq_byteLength_iff {cs : List Char} {pos : Nat} (h : pos ≤ cs.length) :
    byteOffset cs pos = byteLength cs ↔ pos = cs.length := by
  refine ⟨fun heq => ?_, fun heq => by rw [byteOffset, heq, List.take_length]⟩
  have hend : byteOffset cs cs.length = byteLength cs := by rw [byteOffset, List.take_length]
  rw [← charOffset_byteOffset h, heq, ← hend, charOffset_byteOffset (Nat.le_refl _)]

/-- The longest beginning that two texts have in common. -/
def commonPrefix : List Char → List Char → List Char
  | c :: w, d :: cs => if c = d then c :: commonPrefix w cs else []
  | _, _ => []

theorem commonPrefix_prefix_left (w cs : List Char) : commonPrefix w cs <+: w := by
  fun_induction commonPrefix w cs with
  | case1 d w cs ih => exact List.cons_prefix_cons.2 ⟨rfl, ih⟩
  | case2 | case3 => exact List.nil_prefix

theorem commonPrefix_prefix_right (w cs : List Char) : commonPrefix w cs <+: cs := by
  fun_induction commonPrefix w cs with
  | case1 d w cs ih => exact List.cons_prefix_cons.2 ⟨rfl, ih⟩
  | case2 | case3 => exact List.nil_prefix

theorem length_le_commonPrefix {w cs q : List Char} (hw : q <+: w) (hcs : q <+: cs) :
    q.length ≤ (commonPrefix w cs).length := by
  induction q generalizing w cs with
  | nil => exact Nat.zero_le _
  | cons c q ih =>
    obtain ⟨w, rfl⟩ : ∃ v, w = c :: v := by
      obtain ⟨v, rfl⟩ := hw
      exact ⟨q ++ v, rfl⟩
    obtain ⟨cs, rfl⟩ : ∃ v, cs = c :: v := by
      obtain ⟨v, rfl⟩ := hcs
      exact ⟨q ++ v, rfl⟩
    rw [commonPrefix, if_pos rfl]
    exact Nat.succ_le_succ (ih (List.cons_prefix_cons.1 hw).2 (List.cons_prefix_cons.1 hcs).2)

/-- The search for a disagreement comes to the end of what is in common. -/
theorem find?_charIndices (start : Nat) (w cs : List Char) :
    ((((charIndices start w).zip cs).find? fun p => p.1.2 ≠ p.2).map fun p => p.1.1).getD
        (start + min (byteLength cs) (byteLength w)) =
      start + byteLength (commonPrefix w cs) := by
  induction w generalizing start cs with
  | nil => simp [charIndices, commonPrefix]
  | cons c w ih =>
    cases cs with
    | nil => simp [commonPrefix]
    | cons d cs =>
      by_cases hcd : c = d
      · subst hcd
        have hrest := ih (start + c.utf8Size) cs
        simp only [charIndices, List.zip_cons_cons, commonPrefix, if_pos, byteLength_cons,
          ← Nat.add_assoc, ← hrest]
        simp [Nat.add_min_add_left, Nat.add_assoc]
      · simp [charIndices, commonPrefix, hcd]

theorem divergence_append (w us vs : List Char) :
    divergence w (us ++ vs) (byteLength us) = byteLength (us ++ commonPrefix w vs) := by
  have hcommon := find?_charIndices 0 w vs
  rw [Nat.zero_add, Nat.zero_add] at hcommon
  simp only [divergence, splitAtByte?_append, Option.map_some, Option.getD_some]
  rw [byteLength_append, ← hcommon]
  cases ((charIndices 0 w).zip vs).find? fun p => p.1.2 ≠ p.2 <;> rfl

/-- What a word has in common with the rest of a text ends where they diverge. -/
theorem charOffset_divergence {cs : List Char} {pos : Nat} (h : pos ≤ cs.length) (w : List Char) :
    charOffset cs (divergence w cs (byteOffset cs pos)) =
      pos + (commonPrefix w (cs.drop pos)).length := by
  obtain ⟨us, vs, rfl, rfl⟩ : ∃ us vs, cs = us ++ vs ∧ pos = us.length :=
    ⟨cs.take pos, cs.drop pos, (List.take_append_drop ..).symm, by simp [h]⟩
  obtain ⟨rest, hrest⟩ := commonPrefix_prefix_right w vs
  have hwhole : us ++ vs = (us ++ commonPrefix w vs) ++ rest := by rw [List.append_assoc, hrest]
  rw [byteOffset, List.take_left, List.drop_left, divergence_append, ← List.length_append, hwhole]
  exact charOffset_append ..

end Stencil
