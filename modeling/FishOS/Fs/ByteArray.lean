import FishOS.Fs.Tmpfs
import Mathlib.Data.List.Induction

/-!
# Files as byte arrays

The reference file holds at each position the byte written there last, and zero where nothing
was written. The file of the code differs from it where a write began behind the end: there it
shows what the heap block held.
-/

namespace FishOS.Fs

namespace Write

def stop (w : Write) : Nat := w.offset + w.count

def covers (w : Write) (i : Nat) : Bool := decide (w.offset ≤ i) && decide (i < w.stop)

theorem covers_iff {w : Write} {i : Nat} : w.covers i = true ↔ w.offset ≤ i ∧ i < w.stop := by
  unfold covers
  rw [Bool.and_eq_true, decide_eq_true_eq, decide_eq_true_eq]

end Write

def lastWritten (writes : List Write) (i : Nat) : Option UInt8 :=
  (writes.reverse.find? (·.covers i)).map fun w => w.buf (i - w.offset)

def reference (writes : List Write) (i : Nat) : UInt8 := (lastWritten writes i).getD 0

def referenceSize (writes : List Write) : Nat := (writes.map Write.stop).foldl max 0

/-- What the heap held at a position when the file first grew over it. -/
def staleByte (writes : List Write) (i : Nat) : UInt8 :=
  ((writes.find? fun w => decide (i < w.stop)).map fun w => w.fresh i).getD 0

def written (writes : List Write) : NodeData := writes.foldl NodeData.write NodeData.create

theorem written_snoc (writes : List Write) (w : Write) :
    written (writes ++ [w]) = (written writes).write w := by
  unfold written
  rw [List.foldl_append]
  rfl

theorem lastWritten_snoc (writes : List Write) (w : Write) (i : Nat) : lastWritten (writes ++ [w]) i =
    if w.covers i then some (w.buf (i - w.offset)) else lastWritten writes i := by
  unfold lastWritten
  rw [List.reverse_append, List.reverse_singleton, List.singleton_append, List.find?_cons]
  cases w.covers i <;> rfl

theorem staleByte_snoc (writes : List Write) (w : Write) (i : Nat) : staleByte (writes ++ [w]) i =
    if ∃ w' ∈ writes, i < w'.stop then staleByte writes i else if i < w.stop then w.fresh i else 0 := by
  unfold staleByte
  rw [List.find?_append]
  by_cases inside : ∃ w' ∈ writes, i < w'.stop
  · obtain ⟨first, found⟩ := Option.isSome_iff_exists.mp
      ((List.find?_isSome (p := fun w : Write => decide (i < w.stop))).mpr (by simpa using inside))
    rw [if_pos inside, found, Option.some_or]
  · have none : writes.find? (fun w => decide (i < w.stop)) = none := List.find?_eq_none.mpr fun w' member => by
      simpa using fun before => inside ⟨w', member, before⟩
    rw [if_neg inside, none, Option.none_or]
    by_cases last : i < w.stop
    · rw [if_pos last, List.find?_cons_of_pos (by simpa using last)]
      rfl
    · rw [if_neg last, List.find?_cons_of_neg (by simpa using last)]
      rfl

theorem lastWritten_eq_none_iff {writes : List Write} {i : Nat} :
    lastWritten writes i = none ↔ ∀ w ∈ writes, w.covers i = false := by
  unfold lastWritten
  simp

variable {writes : List Write} {i : Nat}

theorem referenceSize_snoc (writes : List Write) (w : Write) :
    referenceSize (writes ++ [w]) = max (referenceSize writes) w.stop := by
  unfold referenceSize
  rw [List.map_append, List.foldl_append]
  rfl

theorem lt_referenceSize : i < referenceSize writes ↔ ∃ w ∈ writes, i < w.stop := by
  induction writes using List.reverseRecOn with
  | nil => simp [referenceSize]
  | append_singleton writes w ih =>
    rw [referenceSize_snoc, lt_max_iff, ih]
    simp [or_and_right, exists_or]

theorem size_written (bounded : ∀ w ∈ writes, w.stop < 2 ^ 64) :
    (written writes).size = referenceSize writes := by
  induction writes using List.reverseRecOn with
  | nil => rfl
  | append_singleton writes w ih =>
    have before := ih fun w' member => bounded w' (List.mem_append_left _ member)
    have fits : w.offset + w.count < 2 ^ 64 := bounded w (List.mem_append_right _ (.head _))
    rw [written_snoc, referenceSize_snoc, ← before]
    unfold NodeData.write Write.stop
    rw [Nat.mod_eq_of_lt fits]
    split <;> dsimp only <;> omega

theorem storage_written (bounded : ∀ w ∈ writes, w.stop < 2 ^ 64) (inside : i < referenceSize writes) :
    (written writes).storage i = (lastWritten writes i).getD (staleByte writes i) := by
  induction writes using List.reverseRecOn with
  | nil => exact absurd inside (Nat.not_lt_zero i)
  | append_singleton writes w ih =>
    have earlier : ∀ w' ∈ writes, w'.stop < 2 ^ 64 :=
      fun w' member => bounded w' (List.mem_append_left _ member)
    have fits : w.offset + w.count < 2 ^ 64 := bounded w (List.mem_append_right _ (.head _))
    have size := size_written earlier
    rw [written_snoc, lastWritten_snoc, staleByte_snoc]
    unfold NodeData.write
    rw [Nat.mod_eq_of_lt fits, size]
    by_cases covers : w.covers i = true
    · obtain ⟨lower, upper⟩ := Write.covers_iff.mp covers
      rw [if_pos covers]
      dsimp only
      rw [Mem.copyIn_inside _ lower upper]
      rfl
    · have apart : i < w.offset ∨ w.offset + w.count ≤ i := by
        by_contra within
        exact covers (Write.covers_iff.mpr (by unfold Write.stop; omega))
      rw [if_neg covers]
      dsimp only
      rw [Mem.copyIn_other _ apart]
      by_cases old : i < referenceSize writes
      · rw [if_pos (lt_referenceSize.mp old), ← ih earlier old]
        split
        · exact if_pos old
        · rfl
      · have none : lastWritten writes i = none := lastWritten_eq_none_iff.mpr fun w' member => by
          by_contra covered
          exact old (lt_referenceSize.mpr ⟨w', member, (Write.covers_iff.mp (by simpa using covered)).2⟩)
        have grows : i < w.stop := by
          obtain ⟨w', member, before⟩ := lt_referenceSize.mp inside
          rcases List.mem_append.mp member with earlier | last
          · exact absurd (lt_referenceSize.mpr ⟨w', earlier, before⟩) old
          · exact List.mem_singleton.mp last ▸ before
        have further : w.offset + w.count > referenceSize writes := by
          unfold Write.stop at grows
          omega
        rw [if_neg fun some => old (lt_referenceSize.mpr some), if_pos grows, none, if_pos further]
        exact if_neg old

def ReadsAs (data : NodeData) (size : Nat) (content : Nat → UInt8) : Prop :=
  ∀ (m : Mem) (buf count offset : Nat), offset + count < 2 ^ 64 →
    (data.read m buf count offset).2 = (if offset < size then min count (size - offset) else 0) ∧
      ∀ k < (data.read m buf count offset).2, (data.read m buf count offset).1 (buf + k) = content (offset + k)

theorem readsAs_iff {data : NodeData} {content : Nat → UInt8} (bounded : data.size < 2 ^ 64) :
    ReadsAs data data.size content ↔ ∀ i < data.size, data.storage i = content i := by
  constructor
  · intro reads i inside
    have one : min 1 (data.size - i) = 1 := by omega
    obtain ⟨length, byte⟩ := reads (fun _ => 0) 0 1 i (by omega)
    rw [if_pos inside, one] at length
    rw [data.read_eq] at length byte
    dsimp only at length byte
    rw [length] at byte
    exact (Mem.copyIn_inside _ (Nat.le_refl 0) Nat.one_pos).symm.trans (byte 0 Nat.one_pos)
  · intro same m buf count offset fits
    rw [data.read_eq, data.transferred_eq fits]
    dsimp only
    constructor
    · split <;> omega
    · intro k inside
      have back : buf + k - buf = k := by omega
      rw [Mem.copyIn_inside _ (by omega) (by omega), back]
      exact same (offset + k) (by omega)

/-- A file reads as the reference file exactly when the heap held zeros wherever the file was
extended over positions that no write ever reached. -/
theorem reads_reference_iff (bounded : ∀ w ∈ writes, w.stop < 2 ^ 64) :
    ReadsAs (written writes) (referenceSize writes) (reference writes) ↔
      ∀ i < referenceSize writes, (∀ w ∈ writes, w.covers i = false) → staleByte writes i = 0 := by
  have small : referenceSize writes < 2 ^ 64 := by
    by_contra large
    obtain ⟨w, member, beyond⟩ := lt_referenceSize.mp (show 2 ^ 64 - 1 < referenceSize writes by omega)
    have fits := bounded w member
    omega
  have size := size_written bounded
  rw [← size, readsAs_iff (size ▸ small)]
  apply forall₂_congr
  intro i inside
  rw [storage_written bounded (size ▸ inside), ← lastWritten_eq_none_iff]
  unfold reference
  cases lastWritten writes i with
  | none => simp
  | some byte => simp

/-- "Hi" at the start of a file, in heap memory full of 0xAA. -/
def greeting : Write := { buf := fun i => if i = 0 then 0x48 else 0x69, count := 2, offset := 0, fresh := fun _ => 0xAA }

theorem reads_reference_iff_greeting :
    ReadsAs (written [greeting]) (referenceSize [greeting]) (reference [greeting]) := by
  apply (reads_reference_iff (by decide)).mpr
  intro i inside uncovered
  have bound : i < 2 := inside
  have covered : greeting.covers i = true := Write.covers_iff.mpr ⟨Nat.zero_le i, bound⟩
  rw [uncovered greeting (.head _)] at covered
  cases covered

/-- One byte written at offset 1 of a fresh file: byte 0 reads as what the heap held. -/
def behindEnd : Write := { buf := fun _ => 0x48, count := 1, offset := 1, fresh := fun _ => 0xAA }

theorem read_shows_heap : behindEnd.stop < 2 ^ 64 ∧
    ¬ReadsAs (written [behindEnd]) (referenceSize [behindEnd]) (reference [behindEnd]) := by
  refine ⟨by decide, ?_⟩
  intro reads
  have byte := (reads (fun _ => 0) 0 1 0 (by decide)).2 0 (by decide)
  exact absurd byte (by decide)

end FishOS.Fs
