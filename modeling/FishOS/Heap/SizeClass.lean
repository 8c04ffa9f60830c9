import FishOS.Lib.PowerClass
import FishOS.Heap.Allocator

/-!
# Size classes

`sizeRequired` is the power-of-two class of the sizes for which its loop ends.
-/

namespace FishOS.Heap

open PowerClass

theorem align_le_iff {n k : Nat} (small : n ≤ 2 ^ 63) (floor : 4 ≤ k) : align n ≤ 2 ^ k ↔ n ≤ 2 ^ k := by
  have whole : 2 ^ k % 16 = 0 := by
    obtain ⟨j, rfl⟩ := Nat.exists_eq_add_of_le floor
    rw [Nat.pow_add]
    omega
  unfold align alignment
  split
  · rw [Nat.mod_eq_of_lt (by omega)]
    omega
  · rfl

theorem align_le_max {n : Nat} (small : n ≤ 2 ^ 63) : align n ≤ 2 ^ 63 :=
  (align_le_iff small (by decide)).mpr small

/-- The loop stops at the first power that reaches the size. -/
theorem sizeRequiredLoop_eq {size : Nat} (small : size ≤ 2 ^ 63) (fuel j : Nat) (room : 63 ≤ fuel + j)
    (start : j ≤ 63) :
    sizeRequiredLoop size fuel (2 ^ j) = powerClass j size := by
  induction fuel generalizing j with
  | zero =>
    have last : j = 63 := by omega
    subst last
    have le := (powerClass_le_iff (n := size) (Nat.le_refl 63)).mpr small
    exact Nat.le_antisymm (floor_le_powerClass 63 size) le
  | succ fuel ih =>
    rw [sizeRequiredLoop]
    split
    · rename_i above
      have below : j < 63 := (Nat.pow_lt_pow_iff_right (by decide)).mp (Nat.lt_of_lt_of_le above small)
      have bound : 2 ^ (j + 1) ≤ 2 ^ 63 := Nat.pow_le_pow_right (by decide) below
      rw [← Nat.pow_succ, Nat.mod_eq_of_lt (by omega), ih (j + 1) (by omega) (by omega)]
      have high : j < Nat.clog 2 size := (Nat.lt_clog_iff_pow_lt (by decide)).mpr above
      rw [powerClass, powerClass, Nat.max_eq_right high, Nat.max_eq_right (by omega)]
    · rename_i reached
      have le := (powerClass_le_iff (n := size) (Nat.le_refl j)).mpr (by omega)
      exact Nat.le_antisymm (floor_le_powerClass j size) le

theorem sizeRequired_eq {n : Nat} (small : n ≤ 2 ^ 63) : sizeRequired n = powerClass 4 n := by
  rw [sizeRequired, alignment, show 16 = 2 ^ 4 from rfl,
    sizeRequiredLoop_eq (align_le_max small) 64 4 (by decide) (by decide)]
  apply Nat.le_antisymm
  · exact (powerClass_le_iff (Nat.le_max_left _ _)).mpr
      ((align_le_iff small (Nat.le_max_left _ _)).mpr (le_powerClass 4 n))
  · exact (powerClass_le_iff (Nat.le_max_left _ _)).mpr
      ((align_le_iff small (Nat.le_max_left _ _)).mp (le_powerClass 4 (align n)))

theorem le_sizeRequired {n : Nat} (small : n ≤ 2 ^ 63) : n ≤ sizeRequired n :=
  sizeRequired_eq small ▸ le_powerClass 4 n

theorem sizeRequired_le_max {n : Nat} (small : n ≤ 2 ^ 63) : sizeRequired n ≤ 2 ^ 63 :=
  sizeRequired_eq small ▸ (powerClass_le_iff (by decide)).mpr small

theorem sizeRequired_pow {k : Nat} (floor : 4 ≤ k) (ceiling : k ≤ 63) : sizeRequired (2 ^ k) = 2 ^ k := by
  rw [sizeRequired_eq (Nat.pow_le_pow_right (by decide) ceiling), powerClass_pow floor]

theorem sizeRequired_mono {n m : Nat} (le : n ≤ m) (small : m ≤ 2 ^ 63) : sizeRequired n ≤ sizeRequired m := by
  rw [sizeRequired_eq small, sizeRequired_eq (le.trans small)]
  exact powerClass_mono le

theorem sizeRequired_double {n : Nat} (above : 9 ≤ n) (small : 2 * n ≤ 2 ^ 63) :
    sizeRequired (2 * n) = 2 * sizeRequired n := by
  rw [sizeRequired_eq small, sizeRequired_eq (by omega), powerClass_double (by omega)]

/-- The classes are the multiples of the alignment by a power of two. -/
theorem sizeRequired_isLeast {n : Nat} (small : n ≤ 2 ^ 63) :
    IsLeast { c | n ≤ c ∧ ∃ k, c = 16 * 2 ^ k } (sizeRequired n) := by
  rw [sizeRequired_eq small]
  constructor
  · obtain ⟨k, same⟩ := Nat.exists_eq_add_of_le (Nat.le_max_left 4 (Nat.clog 2 n))
    refine ⟨le_powerClass 4 n, k, ?_⟩
    rw [powerClass, same, Nat.pow_add]
  · rintro c ⟨fits, k, rfl⟩
    have power : 16 * 2 ^ k = 2 ^ (4 + k) := (Nat.pow_add 2 4 k).symm
    rw [power] at fits ⊢
    exact (powerClass_le_iff (Nat.le_add_right 4 k)).mpr fits

theorem sizeRequired_idem {n : Nat} (small : n ≤ 2 ^ 63) : sizeRequired (sizeRequired n) = sizeRequired n := by
  rw [sizeRequired_eq (sizeRequired_le_max small), sizeRequired_eq small]
  exact powerClass_pow (Nat.le_max_left _ _)

theorem sizeRequired_class {n : Nat} (above : 17 ≤ n) (small : n ≤ 2 ^ 63) :
    ∃ k, 5 ≤ k ∧ k ≤ 63 ∧ sizeRequired n = 2 ^ k := by
  have high : 4 < Nat.clog 2 n := (Nat.lt_clog_iff_pow_lt (by decide)).mpr (by omega)
  have low : Nat.clog 2 n ≤ 63 := Nat.clog_le_of_le_pow small
  exact ⟨Nat.clog 2 n, high, low, by rw [sizeRequired_eq small, powerClass, Nat.max_eq_right (by omega)]⟩

end FishOS.Heap
