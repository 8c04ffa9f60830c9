import FishOS.Klib.List
import FishOS.Lib.Ring

/-!
# Lists as rings

The nodes of a `ListHead` list form a ring, which `add_before` and `remove` keep.
-/

namespace FishOS.Klib.Heads

open Rings

/-- The list rooted at `head` is well formed and has these nodes. -/
def Lists (heads : Heads) (head : UInt64) (nodes : List UInt64) : Prop :=
  Ring (fun x => (heads x).next) (fun x => (heads x).prev) head nodes

variable {heads : Heads} {head x entry : UInt64} {nodes left right : List UInt64}

theorem lists_init (heads : Heads) (head : UInt64) : (heads.init head).Lists head [] :=
  Ring.init (by simp [init]) (by simp [init])

theorem next_addBefore (heads : Heads) (this entry x : UInt64) : (heads.addBefore this entry x).next =
    if x = entry then this else if x = (heads this).prev then entry else (heads x).next := by
  simp [addBefore]

theorem prev_addBefore (heads : Heads) (this entry x : UInt64) : (heads.addBefore this entry x).prev =
    if x = this then entry else if x = entry then (heads this).prev else (heads x).prev := by
  simp [addBefore]

theorem next_remove (heads : Heads) (this x : UInt64) : (heads.remove this x).next =
    if x = this then 0 else if x = (heads this).prev then (heads this).next else (heads x).next := by
  simp [remove]

theorem prev_remove (heads : Heads) (this x : UInt64) : (heads.remove this x).prev =
    if x = this then 0 else if x = (heads this).next then (heads this).prev else (heads x).prev := by
  simp [remove]

theorem Lists.addBefore (lists : heads.Lists head nodes) (fresh : entry ∉ head :: nodes) :
    (heads.addBefore head entry).Lists head (nodes ++ [entry]) :=
  Ring.snoc lists fresh (next_addBefore heads head entry) (prev_addBefore heads head entry)

theorem Lists.remove (lists : heads.Lists head (left ++ x :: right)) :
    (heads.remove x).Lists head (left ++ right) := by
  apply Ring.remove (x := x) lists
  · intro y other
    rw [next_remove, if_neg other]
  · intro y other
    rw [prev_remove, if_neg other]

theorem Lists.empty_iff (lists : heads.Lists head nodes) : heads.empty head = true ↔ nodes = [] := by
  unfold empty
  rw [beq_iff_eq]
  exact Ring.next_head_iff lists

end FishOS.Klib.Heads
