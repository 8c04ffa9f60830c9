import Mathlib.Data.List.Basic

/-!
# Growing vectors

`klib::Vector`, in a heap that has room for a buffer of so many elements.
-/

namespace FishOS.Klib

/-- The first `m_size` elements of the buffer, and the elements that it was allocated for. -/
structure Vector (α : Type) (room : Nat) where
  mBuffer : List α
  mCapacity : Nat
  sized : mBuffer.length ≤ mCapacity
  fits : mCapacity ≤ room

namespace Vector

variable {α : Type} {room : Nat}

def create (α : Type) (room : Nat) : Vector α room :=
  { mBuffer := [], mCapacity := 0, sized := Nat.le_refl 0, fits := Nat.zero_le room }

def size (v : Vector α room) : Nat := v.mBuffer.length

def doubled (v : Vector α room) : Nat := if v.mCapacity ≠ 0 then v.mCapacity * 2 else 1

/-- `none` when `realloc` is asked for more than the heap has room for. -/
def pushBack (v : Vector α room) (elem : α) : Option (Vector α room) :=
  if full : v.size = v.mCapacity then
    if fits : v.doubled ≤ room then
      some
        { mBuffer := v.mBuffer ++ [elem], mCapacity := v.doubled, fits := fits,
          sized := by unfold size at full; unfold doubled; grind }
    else none
  else
    some
      { mBuffer := v.mBuffer ++ [elem], mCapacity := v.mCapacity, fits := v.fits,
        sized := by have sized := v.sized; unfold size at full; grind }

def set (v : Vector α room) (index : Nat) (elem : α) : Vector α room :=
  { v with mBuffer := v.mBuffer.set index elem, sized := by rw [List.length_set]; exact v.sized }

theorem size_le (v : Vector α room) : v.size ≤ room := Nat.le_trans v.sized v.fits

theorem mBuffer_pushBack {v v' : Vector α room} {elem : α} (pushed : v.pushBack elem = some v') :
    v'.mBuffer = v.mBuffer ++ [elem] := by
  unfold pushBack at pushed
  split at pushed
  · split at pushed
    · exact (Option.some.inj pushed) ▸ rfl
    · cases pushed
  · exact (Option.some.inj pushed) ▸ rfl

end Vector

end FishOS.Klib
