import Mathlib.Logic.Function.Basic
import Mathlib.Data.List.Basic
import Mathlib.Tactic.Common

/-!
# Ring buffers

A buffer of `n` slots with a read and a write index that wrap. Equal indices mean that it is
empty, so it holds at most `n - 1` elements.
-/

namespace RingBuffer

variable {α : Type} {n r w : Nat}

/-- The slots from the read index to the write index. -/
def queued (n : Nat) (buffer : Nat → α) (r w : Nat) : List α :=
  (List.range ((w + n - r) % n)).map fun i => buffer ((r + i) % n)

theorem distance_eq (readable : r < n) (writable : w < n) :
    (w + n - r) % n = if r ≤ w then w - r else w + n - r := by
  split
  · rename_i ahead
    rw [show w + n - r = w - r + n by omega, Nat.add_mod_right, Nat.mod_eq_of_lt (by omega)]
  · exact Nat.mod_eq_of_lt (by omega)

theorem next_eq (inside : w < n) : (w + 1) % n = if w + 1 = n then 0 else w + 1 := by
  split
  · rename_i last
    rw [last, Nat.mod_self]
  · exact Nat.mod_eq_of_lt (by omega)

theorem next_lt (inside : w < n) : (w + 1) % n < n := Nat.mod_lt _ (Nat.zero_lt_of_lt inside)

theorem length_queued (buffer : Nat → α) (readable : r < n) (writable : w < n) :
    (queued n buffer r w).length = if r ≤ w then w - r else w + n - r := by
  rw [queued, List.length_map, List.length_range, distance_eq readable writable]

theorem queued_ne_nil (buffer : Nat → α) (readable : r < n) (writable : w < n) (apart : r ≠ w) :
    queued n buffer r w ≠ [] := by
  intro none
  have length := length_queued buffer readable writable
  rw [none, List.length_nil] at length
  split at length <;> omega

/-- A slot is free as long as the next write index is not the read index. -/
theorem length_full (buffer : Nat → α) (readable : r < n) (writable : w < n) (full : (w + 1) % n = r) :
    (queued n buffer r w).length = n - 1 := by
  rw [length_queued buffer readable writable]
  rw [next_eq writable] at full
  split at full <;> split <;> omega

theorem queued_push (buffer : Nat → α) (x : α) (readable : r < n) (writable : w < n) (room : (w + 1) % n ≠ r) :
    queued n (Function.update buffer w x) r ((w + 1) % n) = queued n buffer r w ++ [x] := by
  have distance : ((w + 1) % n + n - r) % n = (w + n - r) % n + 1 := by
    rw [distance_eq readable (next_lt writable), distance_eq readable writable]
    rw [next_eq writable] at room ⊢
    by_cases last : w + 1 = n
    · rw [if_pos last] at room ⊢
      split <;> split <;> omega
    · rw [if_neg last] at room ⊢
      split <;> split <;> omega
  have last : (r + (w + n - r) % n) % n = w := by
    rw [Nat.add_mod_mod, show r + (w + n - r) = w + n by omega, Nat.add_mod_right, Nat.mod_eq_of_lt writable]
  unfold queued
  rw [distance, List.range_succ, List.map_append, List.map_singleton, last, Function.update_self]
  congr 1
  apply List.map_congr_left
  intro i before
  apply Function.update_of_ne
  -- the slots that are queued end before the write index
  rw [List.mem_range, distance_eq readable writable] at before
  have wraps : (r + i) % n = if r + i < n then r + i else r + i - n := by
    split
    · exact Nat.mod_eq_of_lt (by assumption)
    · rw [Nat.mod_eq_sub_mod (by omega), Nat.mod_eq_of_lt (by split at before <;> omega)]
  rw [wraps]
  split at before <;> split <;> omega

theorem queued_pop (buffer : Nat → α) (readable : r < n) (writable : w < n) (apart : r ≠ w) :
    queued n buffer r w = buffer r :: queued n buffer ((r + 1) % n) w := by
  have distance : (w + n - r) % n = (w + n - (r + 1) % n) % n + 1 := by
    rw [distance_eq readable writable, distance_eq (next_lt readable) writable, next_eq readable]
    by_cases last : r + 1 = n
    · rw [if_pos last]
      split <;> split <;> omega
    · rw [if_neg last]
      split <;> split <;> omega
  unfold queued
  rw [distance, List.range_succ_eq_map, List.map_cons, List.map_map, Nat.add_zero, Nat.mod_eq_of_lt readable]
  congr 1
  apply List.map_congr_left
  intro i _
  show buffer ((r + (i + 1)) % n) = buffer (((r + 1) % n + i) % n)
  rw [Nat.mod_add_mod, Nat.add_assoc, Nat.add_comm 1 i]

end RingBuffer
