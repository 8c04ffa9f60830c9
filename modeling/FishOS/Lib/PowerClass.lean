import Mathlib.Algebra.Order.Ring.Nat
import Mathlib.Data.Nat.Log

/-!
# Power-of-two classes

`powerClass lo n` is the least power of two that is at least `n` and at least `2 ^ lo`.
-/

def powerClass (lo n : Nat) : Nat := 2 ^ max lo (Nat.clog 2 n)

namespace PowerClass

variable {lo k n m : Nat}

theorem le_powerClass (lo n : Nat) : n ≤ powerClass lo n :=
  (Nat.le_pow_clog (by decide) n).trans (Nat.pow_le_pow_right (by decide) (Nat.le_max_right _ _))

theorem floor_le_powerClass (lo n : Nat) : 2 ^ lo ≤ powerClass lo n :=
  Nat.pow_le_pow_right (by decide) (Nat.le_max_left _ _)

theorem powerClass_le_iff (floor : lo ≤ k) : powerClass lo n ≤ 2 ^ k ↔ n ≤ 2 ^ k := by
  constructor
  · exact (le_powerClass lo n).trans
  · intro fits
    exact Nat.pow_le_pow_right (by decide) (Nat.max_le.mpr ⟨floor, Nat.clog_le_of_le_pow fits⟩)

theorem powerClass_pow (floor : lo ≤ k) : powerClass lo (2 ^ k) = 2 ^ k := by
  rw [powerClass, Nat.clog_pow _ _ (by decide), Nat.max_eq_right floor]

theorem powerClass_mono (le : n ≤ m) : powerClass lo n ≤ powerClass lo m :=
  (powerClass_le_iff (Nat.le_max_left _ _)).mpr (le.trans (le_powerClass lo m))

theorem powerClass_double (above : 2 ^ lo < 2 * n) : powerClass lo (2 * n) = 2 * powerClass lo n := by
  have positive : 1 ≤ n := by
    have := Nat.pow_pos (n := lo) (show 0 < 2 by decide)
    omega
  have step : Nat.clog 2 (2 * n) = Nat.clog 2 n + 1 := by
    rw [Nat.clog_of_two_le (by decide) (by omega), show (2 * n + 2 - 1) / 2 = n by omega]
  have high : lo < Nat.clog 2 (2 * n) := (Nat.lt_clog_iff_pow_lt (by decide)).mpr above
  rw [powerClass, powerClass, step, Nat.max_eq_right (by omega), Nat.max_eq_right (by omega), Nat.pow_succ']

end PowerClass
