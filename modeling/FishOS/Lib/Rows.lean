import Mathlib.Data.List.Basic
import Mathlib.Tactic.Common
import Mathlib.Tactic.Ring

/-!
# Rows in a flat list

Rows of one width, one behind the other, and a list that is replaced by another from its front.
-/

namespace Rows

variable {α : Type} {rows : List (List α)} {w x y k i : Nat} {c : α} {target old : List α}

theorem length_flatten (width : ∀ row ∈ rows, row.length = w) : rows.flatten.length = rows.length * w := by
  induction rows with
  | nil => simp
  | cons row rest ih =>
    rw [List.flatten_cons, List.length_append, width row List.mem_cons_self,
      ih fun row member => width row (List.mem_cons_of_mem _ member), List.length_cons, Nat.succ_mul, Nat.add_comm]

theorem flatten_set (width : ∀ row ∈ rows, row.length = w) (inside : x < w) :
    (rows.modify y fun row => row.set x c).flatten = rows.flatten.set (y * w + x) c := by
  induction rows generalizing y with
  | nil => simp
  | cons row rest ih =>
    have first : row.length = w := width row List.mem_cons_self
    have others : ∀ row ∈ rest, row.length = w := fun row member => width row (List.mem_cons_of_mem _ member)
    cases y with
    | zero =>
      rw [List.modify_zero_cons, List.flatten_cons, List.flatten_cons, Nat.zero_mul, Nat.zero_add,
        List.set_append_left _ _ (by omega)]
    | succ y =>
      have behind : (y + 1) * w + x - row.length = y * w + x := by
        rw [first, Nat.succ_mul]
        omega
      rw [List.modify_succ_cons, List.flatten_cons, List.flatten_cons, ih others,
        List.set_append_right _ _ (by rw [first, Nat.succ_mul]; omega), behind]

theorem flatten_scroll (width : ∀ row ∈ rows, row.length = w) (some : rows ≠ []) (last : List α) :
    (rows.tail ++ [last]).flatten = rows.flatten.drop w ++ last := by
  cases rows with
  | nil => exact absurd rfl some
  | cons row rest =>
    have first : row.length = w := width row List.mem_cons_self
    simp [← first]

/-- The first `k` elements are replaced. -/
def patch (target old : List α) (k : Nat) : List α := target.take k ++ old.drop k

theorem patch_zero (target old : List α) : patch target old 0 = old := rfl

theorem patch_length (same : target.length = old.length) : patch target old old.length = target := by
  simp [patch, ← same]

theorem getElem?_patch (same : target.length = old.length) (inside : k ≤ old.length) :
    (patch target old k)[i]? = if i < k then target[i]? else old[i]? := by
  have front : (target.take k).length = k := by
    rw [List.length_take]
    omega
  unfold patch
  split
  · rename_i before
    rw [List.getElem?_append_left (by omega), List.getElem?_take_of_lt before]
  · rename_i behind
    rw [List.getElem?_append_right (by omega), front, List.getElem?_drop, Nat.add_sub_cancel' (by omega)]

theorem set_patch (same : target.length = old.length) (next : target[k]? = some c) :
    (patch target old k).set k c = patch target old (k + 1) := by
  have inside : k < target.length := (List.getElem?_eq_some_iff.mp next).1
  apply List.ext_getElem?
  intro i
  rw [List.getElem?_set, getElem?_patch same (by omega), getElem?_patch same (by omega)]
  split
  · rename_i here
    subst here
    have room : k < (patch target old k).length := by
      simp [patch]
      omega
    rw [if_pos room, if_pos (Nat.lt_succ_self k), next]
  · rename_i other
    split <;> split <;> first | rfl | omega

end Rows
