import FishOS.Fs.Tmpfs

/-!
# The bounds of a file's buffer

`tmpfs::read` and `tmpfs::write` compare a sum that wraps with the size before they copy.
A write leaves the buffer exactly when that sum wraps. A read leaves it when the sum wraps to a number
that the file still covers: a larger one falls into the partial read and is cut to the size.
-/

namespace FishOS.Fs

namespace NodeData

/-- `tmpfs::read` copies only from indices below the size of the file, and at most `count` bytes. -/
structure ReadsInside (data : NodeData) (count offset : Nat) : Prop where
  inside : ∀ (m : Mem) (buf i : Nat), i < (data.read m buf count offset).2 → offset + i < data.size
  atMost : ∀ (m : Mem) (buf : Nat), (data.read m buf count offset).2 ≤ count
  others : ∀ (m : Mem) (buf x : Nat), x < buf ∨ buf + (data.read m buf count offset).2 ≤ x →
    (data.read m buf count offset).1 x = m x

/-- `tmpfs::write` stores only at indices below the size that it leaves behind, and the size
reaches the true sum when anything is stored. -/
structure WritesInside (data : NodeData) (w : Write) : Prop where
  inside : ∀ i < w.count, w.offset + i < (data.write w).size
  covers : 0 < w.count → w.offset + w.count ≤ (data.write w).size

variable {data : NodeData} {count offset : Nat}

theorem read_outside (m : Mem) {buf x : Nat} (apart : x < buf ∨ buf + (data.read m buf count offset).2 ≤ x) :
    (data.read m buf count offset).1 x = m x := by
  rw [read_eq] at apart ⊢
  dsimp only at apart ⊢
  exact Mem.copyIn_other m apart

theorem readsInside_iff_transferred : data.ReadsInside count offset ↔
    data.transferred count offset = 0 ∨ offset + data.transferred count offset ≤ data.size := by
  constructor
  · intro reads
    by_cases none : data.transferred count offset = 0
    · exact .inl none
    · have last := reads.inside (fun _ => 0) 0 (data.transferred count offset - 1)
      simp only [read_eq] at last
      exact .inr (by omega)
  · intro within
    refine ⟨?_, ?_, fun m buf x apart => read_outside m apart⟩
    · intro m buf i copied
      rw [read_eq] at copied
      dsimp only at copied
      omega
    · intro m buf
      rw [read_eq]
      exact data.transferred_le count offset

theorem readsInside_iff (small : data.size < 2 ^ 64) (start : offset < 2 ^ 64) :
    data.ReadsInside count offset ↔
      data.size ≤ offset ∨ offset + count < 2 ^ 64 ∨ data.size < (offset + count) % 2 ^ 64 := by
  rw [readsInside_iff_transferred]
  unfold transferred
  split
  · simp [*]
  · split
    · omega
    · omega

theorem size_write (data : NodeData) (w : Write) :
    (data.write w).size = max data.size ((w.offset + w.count) % 2 ^ 64) := by
  unfold write
  split
  · simp only
    omega
  · simp only
    omega

theorem writesInside_iff {w : Write} (small : data.size < 2 ^ 64) (start : w.offset < 2 ^ 64) :
    data.WritesInside w ↔ w.offset + w.count < 2 ^ 64 := by
  have bound : (data.write w).size < 2 ^ 64 := by
    rw [size_write]
    have wrapped := Nat.mod_lt (w.offset + w.count) (Nat.two_pow_pos 64)
    omega
  constructor
  · intro writes
    by_contra large
    have covered := writes.covers (by omega)
    omega
  · intro fits
    have size := data.size_write w
    rw [Nat.mod_eq_of_lt fits] at size
    refine ⟨?_, ?_⟩
    · intro i stored
      omega
    · intro _
      omega

def hello : NodeData := { size := 5, storage := fun i => if i < 5 then 0x68 else 0 }

end NodeData

end FishOS.Fs
