import Mathlib.Data.List.Induction
import Mathlib.Tactic.Ring
import Stencil.Text.Decimal

/-!
# Numerals

What numerals stand for. Zeros in front of a numeral do not change its number (`value_zeros`), no
numeral is shorter than the digits of its number (`length_digits_value_le`), and there is one of
each length at most (`value_inj`). A numeral without a sign is read as the integer that it stands
for, if there is one of 64 bits (`readInt64?_eq_some_iff`), and an integer is read back from its
digits, with zeros between them and the sign (`readInt64?_zeros`).
-/

namespace Stencil.Decimal

variable {cs ds : List Char}

/-! ## Digits -/

theorem digits_ne_nil (n : Nat) : digits n ≠ [] := by
  rw [digits]
  split <;> simp

/-- The digits of a number begin with a digit. -/
theorem digits_eq_cons (n : Nat) : ∃ c cs, digits n = c :: cs ∧ c.isDigit = true := by
  obtain ⟨c, cs, hcs⟩ := List.exists_cons_of_ne_nil (digits_ne_nil n)
  exact ⟨c, cs, hcs, all_isDigit_digits n c (hcs ▸ List.mem_cons_self ..)⟩

theorem digits_of_lt {n : Nat} (h : n < 10) : digits n = [digit n] := by rw [digits, if_pos h]

/-! ## Values -/

/-- Going on from a number, with digits behind it. -/
theorem foldl_digitValue (v : Nat) (cs : List Char) :
    cs.foldl (fun v c => 10 * v + digitValue c) v = v * 10 ^ cs.length + value cs := by
  induction cs generalizing v with
  | nil => simp [value]
  | cons c cs ih =>
    rw [value, List.foldl_cons, List.foldl_cons, ih, ih (10 * 0 + _), List.length_cons, pow_succ]
    ring

theorem value_append (cs ds : List Char) :
    value (cs ++ ds) = value cs * 10 ^ ds.length + value ds := by
  rw [value, List.foldl_append]
  exact foldl_digitValue (value cs) ds

theorem value_cons (c : Char) (cs : List Char) :
    value (c :: cs) = digitValue c * 10 ^ cs.length + value cs := by
  have hone : value [c] = digitValue c := Nat.zero_add _
  rw [← List.singleton_append, value_append, hone]

/-- Zeros in front do not change the number. -/
@[simp] theorem value_zeros (n : Nat) (cs : List Char) :
    value (List.replicate n '0' ++ cs) = value cs := by
  induction n with
  | zero => rfl
  | succ n ih =>
    have hzero : digitValue '0' = 0 := rfl
    rw [List.replicate_succ, List.cons_append, value_cons, hzero, Nat.zero_mul, Nat.zero_add, ih]

theorem value_lt (h : ∀ c ∈ cs, c.isDigit = true) : value cs < 10 ^ cs.length := by
  induction cs with
  | nil => decide
  | cons c cs ih =>
    have hc : 48 ≤ c.toNat ∧ c.toNat ≤ 57 := Char.isDigit_iff_toNat.1 (h c (List.mem_cons_self ..))
    have hcs := ih fun d hd => h d (List.mem_cons_of_mem _ hd)
    have hmul := Nat.mul_le_mul_right (10 ^ cs.length) (show digitValue c ≤
      9 by rw [digitValue]; omega)
    rw [value_cons, List.length_cons, pow_succ]
    omega

theorem length_digits_le {n k : Nat} (h : n < 10 ^ (k + 1)) : (digits n).length ≤ k + 1 := by
  fun_induction digits n generalizing k with
  | case1 => simp
  | case2 n hn ih =>
    cases k with
    | zero => omega
    | succ k =>
      rw [pow_succ] at h
      rw [List.length_append, List.length_singleton]
      exact Nat.succ_le_succ (ih (by omega))

/-- No numeral of a number is shorter than its digits. -/
theorem length_digits_value_le (hne : cs ≠ []) (h : ∀ c ∈ cs, c.isDigit = true) :
    (digits (value cs)).length ≤ cs.length := by
  have hpos := List.length_pos_iff.2 hne
  obtain ⟨k, hk⟩ : ∃ k, cs.length = k + 1 := ⟨cs.length - 1, by omega⟩
  have hlt := value_lt h
  rw [hk] at hlt ⊢
  exact length_digits_le hlt

/-- Numerals of one length that stand for the same number are the same. -/
theorem value_inj (hlen : cs.length = ds.length) (hcs : ∀ c ∈ cs, c.isDigit = true)
    (hds : ∀ c ∈ ds, c.isDigit = true) (h : value cs = value ds) : cs = ds := by
  induction cs using List.reverseRecOn generalizing ds with
  | nil => exact (List.length_eq_zero_iff.1 hlen.symm).symm
  | append_singleton cs c ih =>
    rcases List.eq_nil_or_concat ds with rfl | ⟨ds, d, rfl⟩
    · simp at hlen
    · simp only [List.concat_eq_append, List.mem_append, List.mem_singleton, List.length_append,
        List.length_singleton, value_concat] at *
      have hc : 48 ≤ c.toNat ∧ c.toNat ≤ 57 := Char.isDigit_iff_toNat.1 (hcs c (.inr rfl))
      have hd : 48 ≤ d.toNat ∧ d.toNat ≤ 57 := Char.isDigit_iff_toNat.1 (hds d (.inr rfl))
      simp only [digitValue] at h
      have hsame : c = d := Char.toNat_inj.1 (by omega)
      rw [ih (by omega) (fun x hx => hcs x (.inl hx)) (fun x hx => hds x (.inl hx)) (by omega),
        hsame]

/-- With characters behind it, a one is no longer a one. -/
theorem ten_le_value (cs ds : List Char) (hne : ds ≠ []) : 10 ≤ value (cs ++ '1' :: ds) := by
  have hone : digitValue '1' = 1 := rfl
  have hten : 10 ^ 1 ≤ 10 ^ ds.length :=
    Nat.pow_le_pow_right (by decide) (List.length_pos_iff.2 hne)
  rw [value_append, value_cons, hone]
  omega

/-- A digit in front that adds nothing to the number is a zero. -/
theorem eq_zero_of_value {c : Char} (hc : c.isDigit = true)
    (h : value (c :: cs) = 0) : c = '0' := by
  have hdigit : 48 ≤ c.toNat ∧ c.toNat ≤ 57 := Char.isDigit_iff_toNat.1 hc
  have hpow : 0 < 10 ^ cs.length := Nat.pow_pos (by decide)
  rw [value_cons] at h
  have hzero : digitValue c = 0 := by
    rcases Nat.mul_eq_zero.1 (Nat.eq_zero_of_add_eq_zero_right h) with hzero | hpow'
    · exact hzero
    · omega
  rw [digitValue] at hzero
  exact Char.toNat_inj.1 (show c.toNat = 48 by omega)

/-! ## Integers of 64 bits -/

theorem toInt64?_eq_some_iff {n : Int} {k : Int64} : toInt64? n = some k ↔ n = k.toInt := by
  have hmin : Int64.minValue.toInt = -2 ^ 63 := rfl
  have hmax : Int64.maxValue.toInt = 2 ^ 63 - 1 := rfl
  constructor
  · intro h
    unfold toInt64? at h
    split at h
    · next hrange =>
      cases h
      exact (Int64.toInt_ofInt_of_le (by omega) (by omega)).symm
    · cases h
  · rintro rfl
    rw [toInt64?, if_pos ⟨Int64.minValue_le_toInt k, Int64.toInt_le k⟩, Int64.ofInt_toInt]

/-- A numeral without a sign stands for its number. -/
theorem readInt64?_eq_some_iff (h : ∀ c ∈ cs, c.isDigit = true) {k : Int64} :
    readInt64? cs = some k ↔ cs ≠ [] ∧ (value cs : Int) = k.toInt := by
  have hread : readInt64? cs = (readNat? cs).bind fun n => toInt64? n := by
    unfold readInt64?
    split
    · exact absurd (h '-' (List.mem_cons_self ..)) (by decide)
    · exact absurd (h '+' (List.mem_cons_self ..)) (by decide)
    · rfl
  by_cases hne : cs = []
  · subst hne
    simp [readInt64?, readNat?]
  · rw [hread, readNat?, if_pos ⟨hne, List.all_eq_true.2 h⟩, Option.bind_some, toInt64?_eq_some_iff]
    simp [hne]

/-- Zeros between the sign and the digits do not change the integer. -/
theorem readInt64?_zeros (n : Nat) (k : Int64) :
    readInt64? (sign k.toInt ++ (List.replicate n '0' ++ digits k.toInt.natAbs)) = some k := by
  have hall : ∀ c ∈ List.replicate n '0' ++ digits k.toInt.natAbs, c.isDigit = true := by
    intro c hc
    rcases List.mem_append.1 hc with hc | hc
    · rw [List.eq_of_mem_replicate hc]
      rfl
    · exact all_isDigit_digits _ c hc
  have hne : List.replicate n '0' ++ digits k.toInt.natAbs ≠ [] := by simp [digits_ne_nil]
  have hvalue : value (List.replicate n '0' ++ digits k.toInt.natAbs) = k.toInt.natAbs := by
    rw [value_zeros, value_digits]
  by_cases hneg : k.toInt < 0
  · have hread : readNat? (List.replicate n '0' ++ digits k.toInt.natAbs) =
        some k.toInt.natAbs := by
      rw [readNat?, if_pos ⟨hne, List.all_eq_true.2 hall⟩, hvalue]
    rw [sign, if_pos hneg, List.singleton_append, readInt64?, hread, Option.bind_some,
      toInt64?_eq_some_iff]
    omega
  · rw [sign, if_neg hneg, List.nil_append, readInt64?_eq_some_iff hall, hvalue]
    exact ⟨hne, Int.natAbs_of_nonneg (by omega)⟩

/-- An integer is read back from its decimal. -/
theorem readInt64?_ofInt64 (k : Int64) : readInt64? (ofInt64 k).toList = some k := by
  rw [ofInt64, ofInt, String.toList_ofList]
  exact readInt64?_zeros 0 k

end Stencil.Decimal
