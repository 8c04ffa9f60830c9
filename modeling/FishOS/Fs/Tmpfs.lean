import FishOS.Lib.Memory

/-!
# Files of the temporary file system

The contents of a file lie in a buffer of the kernel heap, beside the memory that is read into.
-/

namespace FishOS.Fs

structure NodeData where
  size : Nat
  storage : Nat → UInt8

/-- `tmpfs::read` on a file: the bytes at `buf`, and their number. -/
def NodeData.read (data : NodeData) (m : Mem) (buf count offset : Nat) : Mem × Nat :=
  if offset ≥ data.size then (m, 0)
  else if (offset + count) % 2 ^ 64 > data.size then
    let actual_count := data.size - offset
    (m.copyIn buf (fun i => data.storage (offset + i)) actual_count, actual_count)
  else (m.copyIn buf (fun i => data.storage (offset + i)) count, count)

def NodeData.create : NodeData := { size := 0, storage := fun _ => 0 }

/-- The block from `realloc`: the old contents, and behind them what the heap memory held. -/
def realloc (storage : Nat → UInt8) (old_size : Nat) (fresh : Nat → UInt8) : Nat → UInt8 := fun i =>
  if i < old_size then storage i else fresh i

/-- The arguments of a `tmpfs::write` on a file, and the heap memory that `realloc` finds for it. -/
structure Write where
  buf : Nat → UInt8
  count : Nat
  offset : Nat
  fresh : Nat → UInt8

def NodeData.write (data : NodeData) (w : Write) : NodeData :=
  let data :=
    if (w.offset + w.count) % 2 ^ 64 > data.size then
      { size := (w.offset + w.count) % 2 ^ 64, storage := realloc data.storage data.size w.fresh }
    else data
  { data with storage := Mem.copyIn data.storage w.offset w.buf w.count }

def NodeData.transferred (data : NodeData) (count offset : Nat) : Nat :=
  if offset ≥ data.size then 0 else if (offset + count) % 2 ^ 64 > data.size then data.size - offset else count

theorem NodeData.read_eq (data : NodeData) (m : Mem) (buf count offset : Nat) :
    data.read m buf count offset =
      (m.copyIn buf (fun i => data.storage (offset + i)) (data.transferred count offset), data.transferred count offset) := by
  unfold read transferred
  split
  · have none : m.copyIn buf (fun i => data.storage (offset + i)) 0 = m :=
      funext fun x => Mem.copyIn_other m (by omega)
    rw [none]
  · split
    · rfl
    · rfl

theorem NodeData.transferred_le (data : NodeData) (count offset : Nat) :
    data.transferred count offset ≤ count := by
  unfold transferred
  split
  · exact Nat.zero_le _
  · split
    · have wrapped := Nat.mod_le (offset + count) (2 ^ 64)
      omega
    · exact Nat.le_refl _

theorem NodeData.transferred_eq (data : NodeData) {count offset : Nat} (bounded : offset + count < 2 ^ 64) :
    data.transferred count offset = min count (data.size - offset) := by
  unfold transferred
  rw [Nat.mod_eq_of_lt bounded]
  split
  · omega
  · split
    · omega
    · omega

theorem NodeData.read_other (data : NodeData) (m : Mem) {buf count offset x : Nat}
    (apart : x < buf ∨ buf + count ≤ x) : (data.read m buf count offset).1 x = m x := by
  have fits := data.transferred_le count offset
  rw [read_eq]
  dsimp only
  exact Mem.copyIn_other m (by omega)

def NodeData.byte (data : NodeData) (offset : Nat) : UInt8 := if offset < data.size then data.storage offset else 0

end FishOS.Fs
