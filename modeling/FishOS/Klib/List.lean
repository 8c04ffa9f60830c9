import Mathlib.Logic.Function.Basic

/-!
# Intrusive lists

`klib::ListHead` nodes live inside other objects, so a heap of them maps addresses to
nodes. A null pointer is the address zero.
-/

namespace FishOS.Klib

structure ListHead where
  next : UInt64
  prev : UInt64
  deriving DecidableEq

abbrev Heads := UInt64 → ListHead

namespace Heads

def setNext (heads : Heads) (entry value : UInt64) : Heads :=
  Function.update heads entry { heads entry with next := value }

def setPrev (heads : Heads) (entry value : UInt64) : Heads :=
  Function.update heads entry { heads entry with prev := value }

def init (heads : Heads) (this : UInt64) : Heads := (heads.setNext this this).setPrev this this

def addBefore (heads : Heads) (this entry : UInt64) : Heads :=
  let heads := heads.setNext (heads this).prev entry
  let heads := heads.setPrev entry (heads this).prev
  let heads := heads.setNext entry this
  heads.setPrev this entry

/-- The store `i` of the four that `add_before` consists of. -/
def addBeforeStore (heads : Heads) (this entry : UInt64) : Nat → Heads
  | 0 => heads.setNext (heads this).prev entry
  | 1 => heads.setPrev entry (heads this).prev
  | 2 => heads.setNext entry this
  | _ => heads.setPrev this entry

theorem addBefore_eq (heads : Heads) (this entry : UInt64) : heads.addBefore this entry =
    (((heads.addBeforeStore this entry 0).addBeforeStore this entry 1).addBeforeStore this entry 2).addBeforeStore this entry 3 :=
  rfl

def remove (heads : Heads) (this : UInt64) : Heads :=
  let heads := heads.setPrev (heads this).next (heads this).prev
  let heads := heads.setNext (heads this).prev (heads this).next
  let heads := heads.setNext this 0
  heads.setPrev this 0

def empty (heads : Heads) (this : UInt64) : Bool := (heads this).next == this

variable (heads : Heads) (x entry value : UInt64)

@[simp] theorem next_setNext :
    (heads.setNext entry value x).next = if x = entry then value else (heads x).next := by
  unfold setNext
  rw [Function.update_apply]
  split <;> rfl

@[simp] theorem prev_setNext : (heads.setNext entry value x).prev = (heads x).prev := by
  unfold setNext
  rw [Function.update_apply]
  split
  · rename_i same
    rw [same]
  · rfl

@[simp] theorem next_setPrev : (heads.setPrev entry value x).next = (heads x).next := by
  unfold setPrev
  rw [Function.update_apply]
  split
  · rename_i same
    rw [same]
  · rfl

@[simp] theorem prev_setPrev :
    (heads.setPrev entry value x).prev = if x = entry then value else (heads x).prev := by
  unfold setPrev
  rw [Function.update_apply]
  split <;> rfl

end Heads

end FishOS.Klib
