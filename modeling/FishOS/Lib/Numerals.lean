import Mathlib.Data.Nat.Digits.Lemmas
import Mathlib.Data.Nat.Log
import Mathlib.Tactic.Common

/-!
# Positional numerals

The digits of a number in a base, as many as asked for and the highest one first.
-/

namespace Numerals

variable {base n k m d : Nat}

def numeral (base k n : Nat) : List Nat := ((List.range k).map fun i => n / base ^ i % base).reverse

/-- The number of digits that a number has. Zero has one. -/
def size (base n : Nat) : Nat := Nat.log base n + 1

@[simp] theorem numeral_zero (base n : Nat) : numeral base 0 n = [] := rfl

theorem numeral_succ (base k n : Nat) : numeral base (k + 1) n = n / base ^ k % base :: numeral base k n := by
  unfold numeral
  rw [List.range_succ, List.map_append, List.reverse_append]
  rfl

@[simp] theorem length_numeral (base k n : Nat) : (numeral base k n).length = k := by simp [numeral]

theorem lt_of_mem_numeral (positive : 0 < base) (member : d ∈ numeral base k n) : d < base := by
  unfold numeral at member
  obtain ⟨i, -, rfl⟩ := List.mem_map.mp (List.mem_reverse.mp member)
  exact Nat.mod_lt _ positive

/-- Read in the base, the digits give the number back, as far as they go. -/
theorem ofDigits_numeral (base k n : Nat) : Nat.ofDigits base (numeral base k n).reverse = n % base ^ k := by
  induction k with
  | zero => simp [Nat.mod_one]
  | succ k ih =>
    rw [numeral_succ, List.reverse_cons, Nat.ofDigits_append, ih, List.length_reverse, length_numeral,
      Nat.ofDigits_singleton, Nat.mod_pow_succ]

theorem numeral_add (positive : 0 < base) (small : n < base ^ k) (m : Nat) :
    numeral base (m + k) n = List.replicate m 0 ++ numeral base k n := by
  induction m with
  | zero => simp
  | succ m ih =>
    have none : n / base ^ (m + k) = 0 :=
      Nat.div_eq_of_lt (small.trans_le (Nat.pow_le_pow_right positive (Nat.le_add_left k m)))
    rw [Nat.succ_add, numeral_succ, none, Nat.zero_mod, ih, List.replicate_succ, List.cons_append]

theorem lt_pow_size (wide : 1 < base) (n : Nat) : n < base ^ size base n := Nat.lt_pow_succ_log_self wide n

/-- A numeral with as many digits as asked for, or more if the number has more. -/
theorem numeral_max (wide : 1 < base) (width n : Nat) : numeral base (max width (size base n)) n =
    List.replicate (width - size base n) 0 ++ numeral base (size base n) n := by
  rw [← numeral_add (by omega) (lt_pow_size wide n)]
  congr 1
  omega

theorem ofDigits_numeral_max (wide : 1 < base) (width n : Nat) :
    Nat.ofDigits base (numeral base (max width (size base n)) n).reverse = n := by
  rw [ofDigits_numeral]
  apply Nat.mod_eq_of_lt
  calc n < base ^ size base n := lt_pow_size wide n
    _ ≤ base ^ max width (size base n) := Nat.pow_le_pow_right (by omega) (Nat.le_max_right _ _)

theorem size_eq_length (wide : 1 < base) (n : Nat) : size base n = max 1 (Nat.digits base n).length := by
  unfold size
  by_cases zero : n = 0
  · simp [zero]
  · rw [Nat.length_digits base n wide zero]
    omega

theorem size_le (positive : 0 < k) (small : n < base ^ k) : size base n ≤ k := by
  unfold size
  by_cases zero : n = 0
  · rw [zero, Nat.log_zero_right]
    omega
  · exact Nat.log_lt_of_lt_pow zero small

theorem numeral_size (wide : 1 < base) (some : n ≠ 0) : numeral base (size base n) n = (Nat.digits base n).reverse := by
  unfold numeral size
  congr 1
  apply List.ext_getElem
  · rw [List.length_map, List.length_range, Nat.length_digits base n wide some]
  · intro i inside inside'
    rw [List.getElem_map, List.getElem_range, ← Nat.getD_digits n i wide, List.getD_eq_getElem?_getD,
      List.getElem?_eq_getElem inside', Option.getD_some]

end Numerals
