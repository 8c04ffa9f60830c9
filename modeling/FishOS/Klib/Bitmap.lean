import Mathlib.Algebra.Order.Ring.Nat
import Mathlib.Logic.Function.Basic
import Mathlib.Tactic.Common

/-!
# Bitmaps

`klib::Bitmap` over its buffer of bytes. An index selects a byte and a bit in it.
-/

namespace FishOS.Klib

structure Bitmap where
  mBuffer : Nat → UInt8
  mSize : Nat

namespace Bitmap

def getBit (byte : UInt8) (r : UInt8) : Bool := (byte >>> r) &&& 1 != 0

def setBit (byte : UInt8) (r : UInt8) (value : Bool) : UInt8 :=
  (byte &&& ~~~(1 <<< r)) ||| ((if value then 1 else 0) <<< r)

def get (b : Bitmap) (index : Nat) : Bool := getBit (b.mBuffer (index / 8)) (UInt8.ofNat (index % 8))

def set (b : Bitmap) (index : Nat) (value : Bool) : Bitmap :=
  { b with
    mBuffer := Function.update b.mBuffer (index / 8)
      (setBit (b.mBuffer (index / 8)) (UInt8.ofNat (index % 8)) value) }

/-- The `for` at the end of `fill`, from `i` on. -/
def fillTail (b : Bitmap) (i : Nat) : Nat → Bitmap
  | 0 => b
  | n + 1 => fillTail (b.set (b.mSize - i) true) (i + 1) n

/-- The value is not looked at. -/
def fill (b : Bitmap) (_value : Bool) : Bitmap :=
  let b := { b with mBuffer := fun j => if j < b.mSize / 8 then 0xFF else b.mBuffer j }
  b.fillTail 0 (b.mSize % 8)

theorem getBit_eq (byte : UInt8) {r : Nat} (bit : r < 8) :
    getBit byte (UInt8.ofNat r) = byte.toNat.testBit r := by
  have all : ∀ (n : Fin 256) (r : Fin 8), getBit (UInt8.ofNat n) (UInt8.ofNat r) = n.val.testBit r :=
    by decide +kernel
  simpa only [UInt8.ofNat_toNat] using all ⟨byte.toNat, byte.toNat_lt⟩ ⟨r, bit⟩

theorem toNat_setBit (byte : UInt8) {r : Nat} (bit : r < 8) (value : Bool) :
    (setBit byte (UInt8.ofNat r) value).toNat =
      if value then byte.toNat ||| 2 ^ r else byte.toNat ^^^ (byte.toNat &&& 2 ^ r) := by
  have all : ∀ (n : Fin 256) (r : Fin 8) (value : Bool), (setBit (UInt8.ofNat n) (UInt8.ofNat r) value).toNat =
      if value then n.val ||| 2 ^ r.val else n.val ^^^ (n.val &&& 2 ^ r.val) := by decide +kernel
  simpa only [UInt8.ofNat_toNat] using all ⟨byte.toNat, byte.toNat_lt⟩ ⟨r, bit⟩ value

theorem getBit_setBit (byte : UInt8) {r s : Nat} (hr : r < 8) (hs : s < 8) (value : Bool) :
    getBit (setBit byte (UInt8.ofNat r) value) (UInt8.ofNat s) =
      if s = r then value else getBit byte (UInt8.ofNat s) := by
  rw [getBit_eq _ hs, getBit_eq _ hs, toNat_setBit _ hr]
  by_cases same : s = r
  · subst same
    cases value <;> simp
  · cases value <;> simp [same, Ne.symm same]

theorem get_set (b : Bitmap) (i j : Nat) (value : Bool) :
    (b.set i value).get j = if j = i then value else b.get j := by
  unfold get set
  dsimp only
  by_cases same : j / 8 = i / 8
  · rw [same, Function.update_self, getBit_setBit _ (Nat.mod_lt i (by decide)) (Nat.mod_lt j (by decide))]
    by_cases bit : j = i
    · rw [if_pos bit, bit, if_pos rfl]
    · rw [if_neg bit, if_neg (by omega)]
  · rw [Function.update_of_ne same, if_neg (by omega)]

theorem mSize_fillTail (b : Bitmap) (i n : Nat) : (b.fillTail i n).mSize = b.mSize := by
  induction n generalizing b i with
  | zero => rfl
  | succ n ih =>
    unfold fillTail
    rw [ih]
    rfl

theorem get_fillTail (b : Bitmap) {i n : Nat} (j : Nat) (inside : i + n ≤ b.mSize) :
    (b.fillTail i n).get j = (decide (b.mSize < j + i + n ∧ j + i ≤ b.mSize) || b.get j) := by
  induction n generalizing b i with
  | zero =>
    unfold fillTail
    rw [decide_eq_false (by omega), Bool.false_or]
  | succ n ih =>
    have size : (b.set (b.mSize - i) true).mSize = b.mSize := rfl
    unfold fillTail
    rw [ih _ (by rw [size]; omega), size, get_set]
    by_cases here : j = b.mSize - i
    · rw [if_pos here, Bool.or_true, decide_eq_true (by omega), Bool.true_or]
    · have range : (b.mSize < j + (i + 1) + n ∧ j + (i + 1) ≤ b.mSize) ↔
          (b.mSize < j + i + (n + 1) ∧ j + i ≤ b.mSize) := by
        omega
      simp only [if_neg here, range]

theorem mSize_fill (b : Bitmap) (value : Bool) : (b.fill value).mSize = b.mSize := mSize_fillTail _ _ _

/-- `fill` sets the bits up to `m_size`, but for the first one of the last byte when that is not full. -/
theorem get_fill (b : Bitmap) (value : Bool) {j : Nat} (inside : j < b.mSize) :
    (b.fill value).get j = (decide (j ≠ 8 * (b.mSize / 8)) || b.get j) := by
  have ones : ∀ r : Fin 8, getBit 0xFF (UInt8.ofNat r) = true := by decide
  unfold fill
  dsimp only
  rw [get_fillTail _ _ (by dsimp only; omega)]
  dsimp only
  by_cases whole : j < 8 * (b.mSize / 8)
  · have set : get { b with mBuffer := fun j => if j < b.mSize / 8 then 0xFF else b.mBuffer j } j = true := by
      unfold get
      dsimp only
      rw [if_pos (by omega)]
      exact ones ⟨j % 8, Nat.mod_lt j (by decide)⟩
    rw [set, Bool.or_true, decide_eq_true (by omega), Bool.true_or]
  · have same : get { b with mBuffer := fun j => if j < b.mSize / 8 then 0xFF else b.mBuffer j } j =
    b.get j := by
      unfold get
      dsimp only
      rw [if_neg (by omega)]
    have range : (b.mSize < j + 0 + b.mSize % 8 ∧ j + 0 ≤ b.mSize) ↔ j ≠ 8 * (b.mSize / 8) := by omega
    simp only [same, range]

end Bitmap

end FishOS.Klib
