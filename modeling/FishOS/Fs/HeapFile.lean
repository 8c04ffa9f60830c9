import FishOS.Fs.Tmpfs
import FishOS.Heap.Safety

/-!
# A file in the kernel heap

`tmpfs::write` with the buffer where it really lies, in a block that `realloc` moves. As long as
`realloc` finds a block this is the write on `NodeData`. When it returns the null pointer, the size
and the pointer are already overwritten, and the bytes are stored from address `offset` on.
-/

namespace FishOS.Fs

open FishOS.Heap

structure HeapFile where
  size : Nat
  storage : Option Nat

namespace HeapFile

/-- The pointer as the number that the pointer arithmetic uses. -/
def address (data : HeapFile) : Nat := data.storage.getD 0

def grow (alloc : BuddyAlloc) (m : Mem) (data : HeapFile) (count offset : Nat) : Mem × HeapFile :=
  if (offset + count) % 2 ^ 64 > data.size then
    match BuddyAlloc.realloc alloc m data.storage ((offset + count) % 2 ^ 64) with
    | (m, storage) => (m, { size := (offset + count) % 2 ^ 64, storage := storage })
  else (m, data)

def write (alloc : BuddyAlloc) (m : Mem) (data : HeapFile) (buf : Nat → UInt8) (count offset : Nat) : Mem × HeapFile :=
  match grow alloc m data count offset with
  | (m, data) => (m.copyIn (data.address + offset) buf count, data)

/-- The file whose bytes stand behind the pointer. -/
def contents (m : Mem) (data : HeapFile) : NodeData :=
  { size := data.size, storage := fun i => m (data.address + i) }

/-- The write leaves the file as it was and stores nothing through a null pointer. -/
structure Intact (alloc : BuddyAlloc) (m : Mem) (data : HeapFile) (buf : Nat → UInt8) (count offset : Nat) : Prop where
  size : (write alloc m data buf count offset).2.size = data.size
  storage : (write alloc m data buf count offset).2.storage = data.storage
  contents : ∀ i < data.size, (write alloc m data buf count offset).1 (data.address + i) = m (data.address + i)
  stored : count = 0 ∨ (grow alloc m data count offset).2.storage ≠ none

/-- The buffer of a file is a live allocation of its size, and an empty file has none. -/
def OwnedBy (data : HeapFile) (h : Arena) : Prop :=
  match data.storage with
  | none => data.size = 0
  | some ptr => ⟨ptr, data.size⟩ ∈ h.live

variable {alloc : BuddyAlloc} {m : Mem} {data : HeapFile} {buf : Nat → UInt8} {count offset : Nat}

theorem grow_eq (fits : offset + count < 2 ^ 64) (grows : data.size < offset + count) :
    grow alloc m data count offset =
      ((BuddyAlloc.realloc alloc m data.storage (offset + count)).1,
        { size := offset + count, storage := (BuddyAlloc.realloc alloc m data.storage (offset + count)).2 }) := by
  unfold grow
  rw [Nat.mod_eq_of_lt fits, if_pos grows]

theorem grow_of_le (fits : offset + count < 2 ^ 64) (inside : offset + count ≤ data.size) :
    grow alloc m data count offset = (m, data) := by
  unfold grow
  rw [Nat.mod_eq_of_lt fits, if_neg (Nat.not_lt.mpr inside)]

/-- What a write without memory does: the size is the new one, the pointer to the old block is
lost, and the bytes go to the addresses from `offset` on. -/
theorem write_out_of_memory (fits : offset + count < 2 ^ 64) (grows : data.size < offset + count)
    (failed : (BuddyAlloc.realloc alloc m data.storage (offset + count)).2 = none) :
    write alloc m data buf count offset =
      ((BuddyAlloc.realloc alloc m data.storage (offset + count)).1.copyIn offset buf count,
        { size := offset + count, storage := none }) := by
  unfold write
  rw [grow_eq fits grows, failed]
  simp [address]

/-- No write that runs out of memory leaves the file intact. -/
theorem out_of_memory_never_intact (fits : offset + count < 2 ^ 64) (grows : data.size < offset + count)
    (failed : (BuddyAlloc.realloc alloc m data.storage (offset + count)).2 = none) :
    ¬Intact alloc m data buf count offset := by
  intro intact
  have size := intact.size
  rw [write_out_of_memory fits grows failed] at size
  simp only at size
  omega

theorem stores_through_null (fits : offset + count < 2 ^ 64) (grows : data.size < offset + count)
    (failed : (BuddyAlloc.realloc alloc m data.storage (offset + count)).2 = none) :
    (grow alloc m data count offset).2.storage = none ∧
      ∀ i < count, (write alloc m data buf count offset).1 (offset + i) = buf i := by
  refine ⟨by rw [grow_eq fits grows, failed], ?_⟩
  intro i inside
  rw [write_out_of_memory fits grows failed]
  dsimp only
  rw [Mem.copyIn_inside _ (by omega) (by omega)]
  congr 1
  omega

theorem contents_write (alloc : BuddyAlloc) (m : Mem) (data : HeapFile) (buf : Nat → UInt8) (count offset : Nat) :
    contents (write alloc m data buf count offset).1 (write alloc m data buf count offset).2 =
      { contents (grow alloc m data count offset).1 (grow alloc m data count offset).2 with
        storage := Mem.copyIn (contents (grow alloc m data count offset).1 (grow alloc m data count offset).2).storage
          offset buf count } := by
  unfold write contents
  simp only [NodeData.mk.injEq, true_and]
  funext i
  unfold Mem.copyIn
  simp only [Nat.add_assoc, Nat.add_le_add_iff_left, Nat.add_lt_add_iff_left, Nat.add_sub_add_left]

/-- A file of ten bytes in a heap of 256, and a write of 1000 bytes at its start. -/
def smallHeap : Arena := (Arena.init (fun _ => 0) 0x1000 (2 ^ 8)).call (.malloc 10)

def tenBytes : HeapFile := { size := 10, storage := some 0x10f0 }

theorem out_of_memory_never_intact_small : tenBytes.size < 1000 ∧
    ¬Intact smallHeap.alloc smallHeap.m tenBytes (fun _ => 0x41) 1000 0 :=
  ⟨by decide, out_of_memory_never_intact (by decide) (by decide) (by decide +kernel)⟩

theorem out_of_memory_loses_file : tenBytes.OwnedBy smallHeap ∧
    (BuddyAlloc.realloc smallHeap.alloc smallHeap.m tenBytes.storage 1000).2 = none ∧
    (write smallHeap.alloc smallHeap.m tenBytes (fun _ => 0x41) 1000 0).2.size = 1000 ∧
    (write smallHeap.alloc smallHeap.m tenBytes (fun _ => 0x41) 1000 0).2.storage = none ∧
    (write smallHeap.alloc smallHeap.m tenBytes (fun _ => 0x41) 1000 0).1 0 = 0x41 ∧
    ¬Intact smallHeap.alloc smallHeap.m tenBytes (fun _ => 0x41) 1000 0 := by
  have owned : tenBytes.OwnedBy smallHeap := by
    show (⟨0x10f0, 10⟩ : Allocation) ∈ smallHeap.live
    decide +kernel
  have failed : (BuddyAlloc.realloc smallHeap.alloc smallHeap.m tenBytes.storage 1000).2 = none := by decide +kernel
  have grows : tenBytes.size < 0 + 1000 := by decide
  have written : write smallHeap.alloc smallHeap.m tenBytes (fun _ => 0x41) 1000 0 = (_, ⟨0 + 1000, none⟩) :=
    write_out_of_memory (by decide) grows failed
  refine ⟨owned, failed, by rw [written], by rw [written], by rw [written]; rfl, ?_⟩
  intro intact
  have size := intact.size
  rw [written] at size
  exact absurd size (by decide)

section Found

variable {h : Arena}

/-- A larger block begins with the bytes of the file. -/
theorem realloc_keeps {n q : Nat} (valid : h.Valid) (owned : data.OwnedBy h) (grows : data.size < n)
    (small : n + 16 ≤ 2 ^ 63) (returned : (BuddyAlloc.realloc h.alloc h.m data.storage n).2 = some q) :
    ∀ i < data.size, (BuddyAlloc.realloc h.alloc h.m data.storage n).1 (q + i) = h.m (data.address + i) := by
  intro i inside
  unfold OwnedBy at owned
  unfold address
  cases place : data.storage with
  | none =>
    rw [place] at owned
    simp only at owned
    omega
  | some ptr =>
    rw [place] at owned returned
    obtain ⟨blocks, lays⟩ := valid.lays
    have legal : h.Legal (.realloc ⟨ptr, data.size⟩ n) := ⟨owned, by omega, small⟩
    have roomy : Arena.Roomy blocks ⟨ptr, data.size⟩ n :=
      .inl (sizeRequired_mono (Nat.add_le_add_right (Nat.le_of_lt grows) 16) small)
    obtain ⟨_, _, content⟩ := Arena.realloc_spec valid lays legal roomy
    have moved := content q returned i (show i < min data.size n by omega)
    have called : (h.call (.realloc ⟨ptr, data.size⟩ n)).m = (BuddyAlloc.realloc h.alloc h.m (some ptr) n).1 := by
      simp only [Arena.call]
      split
      · rename_i found
        rw [found]
      · rename_i found
        rw [found]
    rw [called] at moved
    exact moved

/-- A write that finds its memory is the write on the file as an array of bytes. -/
theorem write_refines (valid : h.Valid) (owned : data.OwnedBy h) (small : offset + count + 16 ≤ 2 ^ 63)
    (found : data.size < offset + count → (BuddyAlloc.realloc h.alloc h.m data.storage (offset + count)).2 ≠ none) :
    ∃ fresh, contents (write h.alloc h.m data buf count offset).1 (write h.alloc h.m data buf count offset).2 =
      (contents h.m data).write { buf := buf, count := count, offset := offset, fresh := fresh } := by
  have fits : offset + count < 2 ^ 64 := by omega
  unfold NodeData.write
  simp only [contents_write, Nat.mod_eq_of_lt fits]
  by_cases grows : data.size < offset + count
  · obtain ⟨q, returned⟩ := Option.ne_none_iff_exists'.mp (found grows)
    have kept := realloc_keeps valid owned grows small returned
    refine ⟨fun i => (BuddyAlloc.realloc h.alloc h.m data.storage (offset + count)).1 (q + i), ?_⟩
    rw [if_pos (show offset + count > (contents h.m data).size from grows), grow_eq fits grows, returned]
    -- in front of the old end the block holds the old bytes, behind it what the heap held
    have block : (fun i => (BuddyAlloc.realloc h.alloc h.m data.storage (offset + count)).1 (q + i)) =
        realloc (contents h.m data).storage (contents h.m data).size
          (fun i => (BuddyAlloc.realloc h.alloc h.m data.storage (offset + count)).1 (q + i)) := by
      funext i
      unfold realloc
      split
      · rename_i inside
        exact kept i inside
      · rfl
    exact congrArg (fun storage => NodeData.mk (offset + count) (Mem.copyIn storage offset buf count)) block
  · refine ⟨fun _ => 0, ?_⟩
    rw [if_neg (show ¬offset + count > (contents h.m data).size from grows), grow_of_le fits (by omega)]

end Found

end HeapFile

end FishOS.Fs
