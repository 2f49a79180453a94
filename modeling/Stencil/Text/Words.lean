/-!
# Words

The parts of a text between blanks, and runs of characters of one kind.
-/

namespace Stencil

/-- The parts between blanks, none of which is empty. -/
def words (s : String) : List (List Char) :=
  (s.toList.splitOnP Char.isWhitespace).filter (· ≠ [])

/-- A run does not go on into what is of another kind. -/
theorem takeWhile_append_stop {p : Char → Bool} {d : Char}
    (hd : p d = false) (cs more : List Char) :
    (cs ++ d :: more).takeWhile p = cs.takeWhile p ∧
      (cs ++ d :: more).dropWhile p = cs.dropWhile p ++ d :: more := by
  constructor
  · rw [List.takeWhile_append]
    split
    · next h => simp [hd, (List.takeWhile_sublist p).eq_of_length h]
    · rfl
  · rw [List.dropWhile_append]
    split
    · next h => simp [hd, List.isEmpty_iff.1 h]
    · rfl

end Stencil
