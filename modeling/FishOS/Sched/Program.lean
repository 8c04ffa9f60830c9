import FishOS.Sched.AddressSpace
import FishOS.Userland.Segments

/-!
# Programs in their address spaces

What a new user task finds: the bytes of its segments, and the memory around its stack pointer.
-/

namespace FishOS.Sched

open RadixTree FishOS.Mem FishOS.Mem.Pmm FishOS.Fs FishOS.Userland Runs

/-- `new_user_task` up to the return of `elf::load`: the memory and the PML4. -/
def loadProgram (k : Kernel) (elf_file : NodeData) : Option (Phys × Nat) := do
  let (s, pagemap) ← newUserPagemap k.phys k.kernelPagemap.pml4
  let (pmm, _) ← s.pmm.allocPages (stackSize / 0x1000)
  let (s, _) ← load elf_file pagemap.pml4 { s with pmm := pmm }
  some (s, pagemap.pml4)

theorem loadProgram_reads {k : Kernel} {file : NodeData} {s : Phys} {pml4 : Nat}
    (reached : k.Reachable fun _ _ => True) (loaded : loadProgram k file = some (s, pml4))
    (loadable : Loadable file) {ph : ProgramHeader} (member : ph ∈ segments file) {i : Nat}
    (inside : i < ph.memSize) : readVirt s.m pml4 (ph.virtAddr + i) = some (segmentByte file ph i) := by
  obtain ⟨lab, labelled⟩ := reached.labelled
  obtain ⟨⟨s₁, pagemap⟩, fresh, loaded⟩ := Option.bind_eq_some_iff.mp loaded
  obtain ⟨⟨pmm, stack⟩, allocated, loaded⟩ := Option.bind_eq_some_iff.mp loaded
  obtain ⟨⟨s₂, ip, free⟩, program, returned⟩ := Option.bind_eq_some_iff.mp loaded
  obtain ⟨rfl, rfl⟩ := Prod.mk.inj (Option.some.inj returned)
  obtain ⟨lab₁, adopt, top, -⟩ := newUserPagemap_step (K := ∅) labelled.tables labelled.root fresh
  obtain ⟨-, alloc⟩ := allocPages_step (K := ∅) adopt.tables (by decide) allocated
  exact load_reads alloc.tables top loadable program member inside

def ImageReproduced (m : Mem) (pml4 : Nat) (file : NodeData) : Prop :=
  ∀ ph ∈ segments file, ∀ i < ph.fileSize, readVirt m pml4 (ph.virtAddr + i) = some (file.storage (ph.offset + i))

/-- The loader reads the file `misalign` bytes too late and leaves a full last page out, so the
image is right exactly when the file does not show the difference. -/
theorem image_reproduced_iff {k : Kernel} {file : NodeData} {s : Phys} {pml4 : Nat}
    (reached : k.Reachable fun _ _ => True) (loaded : loadProgram k file = some (s, pml4))
    (loadable : Loadable file) (within : ∀ ph ∈ segments file, ph.offset + ph.fileSize ≤ file.size) :
    ImageReproduced s.m pml4 file ↔ ∀ ph ∈ segments file, ∀ i < ph.fileSize,
      file.storage (ph.offset + i) = if ph.Skipped i then 0 else file.byte (ph.offset + ph.misalign + i) := by
  refine forall₂_congr fun ph member => forall₂_congr fun i inside => ?_
  have present : i < ph.memSize := Nat.lt_of_lt_of_le inside (loadable.sizes ph member)
  rw [loadProgram_reads reached loaded loadable member present, segmentByte_file loadable.heap (within ph member) inside,
    Option.some.injEq]
  exact eq_comm

def headersOnly : NodeData := { size := 120, storage := oneSegment 0 0x400000 120 120 }

theorem image_reproduced_iff_headers : ∃ s pml4, loadProgram Kernel.small headersOnly = some (s, pml4) ∧
    ImageReproduced s.m pml4 headersOnly := by
  have evaluated : (loadProgram Kernel.small headersOnly).isSome := by decide +kernel
  have single : segments headersOnly = [⟨1, 6, 0, 0x400000, 120, 120⟩] := by decide +kernel
  have loadable : Loadable headersOnly := .of_single single (by decide) (by decide) (by decide)
  obtain ⟨⟨s, pml4⟩, loaded⟩ := Option.isSome_iff_exists.mp evaluated
  refine ⟨s, pml4, loaded, (image_reproduced_iff Kernel.small_reachable loaded loadable ?_).mpr ?_⟩
  · rw [single]
    decide
  · rw [single]
    decide +kernel

/-- A program of one byte behind its headers, at the same distance from a page as in memory. -/
def oneByte : NodeData := { size := 121, storage := fun i => if i = 120 then 0xAA else oneSegment 120 0x400078 1 1 i }

/-- The byte is not read: the read for its page starts 0x78 bytes behind it, at the end of the file. -/
theorem image_not_reproduced : ∃ s pml4, Kernel.small.Reachable (fun _ _ => True) ∧
    loadProgram Kernel.small oneByte = some (s, pml4) ∧ Loadable oneByte ∧
    (∀ ph ∈ segments oneByte, ph.offset + ph.fileSize ≤ oneByte.size ∧
      ph.virtAddr % 0x1000 = ph.offset % 0x1000) ∧
    ¬ImageReproduced s.m pml4 oneByte := by
  have evaluated : (loadProgram Kernel.small oneByte).isSome := by decide +kernel
  have single : segments oneByte = [⟨1, 6, 120, 0x400078, 1, 1⟩] := by decide +kernel
  have loadable : Loadable oneByte := .of_single single (by decide) (by decide) (by decide)
  obtain ⟨⟨s, pml4⟩, loaded⟩ := Option.isSome_iff_exists.mp evaluated
  have member : ⟨1, 6, 120, 0x400078, 1, 1⟩ ∈ segments oneByte := single ▸ .head _
  have read := loadProgram_reads Kernel.small_reachable loaded loadable member (show 0 < 1 by decide)
  refine ⟨s, pml4, Kernel.small_reachable, loaded, loadable, ?_, ?_⟩
  · rw [single]
    decide
  · intro reproduced
    have same := (reproduced _ member 0 (by decide)).symm.trans read
    exact absurd same (by decide +kernel)

def BssZero (m : Mem) (pml4 : Nat) (file : NodeData) : Prop :=
  ∀ ph ∈ segments file, ∀ i, ph.fileSize ≤ i → i < ph.memSize → readVirt m pml4 (ph.virtAddr + i) = some 0

/-- The first page of a segment is read to its end, so what follows the image in the file must be zero there. -/
theorem bss_zero_iff {k : Kernel} {file : NodeData} {s : Phys} {pml4 : Nat}
    (reached : k.Reachable fun _ _ => True) (loaded : loadProgram k file = some (s, pml4))
    (loadable : Loadable file) :
    BssZero s.m pml4 file ↔ ∀ ph ∈ segments file, ∀ i, ph.fileSize ≤ i → i < ph.memSize →
      0 < ph.fileSize + ph.misalign → ph.misalign + i < 0x1000 →
        file.byte ((ph.offset + ph.misalign) % 2 ^ 64 + i) = 0 := by
  refine forall₂_congr fun ph member => forall_congr' fun i => forall₂_congr fun behind inside => ?_
  rw [loadProgram_reads reached loaded loadable member inside,
    segmentByte_behind loadable.heap (loadable.fits ph member).2 (loadable.sizes ph member) behind inside, Option.some.injEq]
  by_cases read : 0 < ph.fileSize + ph.misalign ∧ ph.misalign + i < 0x1000
  · rw [if_pos read]
    exact ⟨fun zero _ _ => zero, fun zero => zero read.1 read.2⟩
  · rw [if_neg read]
    exact ⟨fun _ some first => absurd ⟨some, first⟩ read, fun _ => rfl⟩

theorem bss_zero_iff_onePage : ∃ s pml4, loadProgram Kernel.small (onePage 0x400000) = some (s, pml4) ∧
    BssZero s.m pml4 (onePage 0x400000) := by
  have evaluated : (loadProgram Kernel.small (onePage 0x400000)).isSome := by decide +kernel
  have single : segments (onePage 0x400000) = [⟨1, 6, 0, 0x400000, 0, 1⟩] := by decide +kernel
  have loadable : Loadable (onePage 0x400000) := .of_single single (by decide) (by decide) (by decide)
  obtain ⟨⟨s, pml4⟩, loaded⟩ := Option.isSome_iff_exists.mp evaluated
  refine ⟨s, pml4, loaded, (bss_zero_iff Kernel.small_reachable loaded loadable).mpr ?_⟩
  rw [single]
  exact List.forall_mem_singleton.mpr fun _ _ _ some => absurd some (by decide)

/-- The first byte of the headers is a segment of two bytes, whose second byte should be zero. -/
def oneByteOfTwo : NodeData := { size := 120, storage := oneSegment 0 0x400000 1 2 }

theorem bss_not_zero : ∃ s pml4, Kernel.small.Reachable (fun _ _ => True) ∧
    loadProgram Kernel.small oneByteOfTwo = some (s, pml4) ∧ Loadable oneByteOfTwo ∧
      ¬BssZero s.m pml4 oneByteOfTwo := by
  have evaluated : (loadProgram Kernel.small oneByteOfTwo).isSome := by decide +kernel
  have single : segments oneByteOfTwo = [⟨1, 6, 0, 0x400000, 1, 2⟩] := by decide +kernel
  have loadable : Loadable oneByteOfTwo := .of_single single (by decide) (by decide) (by decide)
  obtain ⟨⟨s, pml4⟩, loaded⟩ := Option.isSome_iff_exists.mp evaluated
  have member : ⟨1, 6, 0, 0x400000, 1, 2⟩ ∈ segments oneByteOfTwo := single ▸ .head _
  have read := loadProgram_reads Kernel.small_reachable loaded loadable member (show 1 < 2 by decide)
  refine ⟨s, pml4, Kernel.small_reachable, loaded, loadable, ?_⟩
  intro zero
  have same := (zero _ member 1 (by decide) (by decide)).symm.trans read
  exact absurd same (by decide +kernel)

/-- The address behind the last page that moved it, if there was one. -/
theorem foldl_nextFree (virts : List Nat) (first_free_virt : Nat) :
    virts.foldl nextFree first_free_virt = first_free_virt ∨
      ∃ virt ∈ virts, virts.foldl nextFree first_free_virt = (virt + 0x1000) % 2 ^ 64 := by
  induction virts generalizing first_free_virt with
  | nil => exact Or.inl rfl
  | cons virt rest ih =>
    rw [List.foldl_cons]
    rcases ih (nextFree first_free_virt virt) with same | ⟨later, member, last⟩
    · rw [same]
      unfold nextFree
      split
      · exact Or.inr ⟨virt, .head _, rfl⟩
      · exact Or.inl rfl
    · exact Or.inr ⟨later, .tail _ member, last⟩

/-- The `stack_size` bytes below the initial stack pointer are there for the program alone. -/
structure UsableStack (s : Phys) (hhdm : Nat) (file : NodeData) (task : UserTask) : Prop where
  aligned : task.stack % 16 = 0
  room : stackSize ≤ task.stack
  mapped : ∀ virt, task.stack - stackSize ≤ virt → virt < task.stack →
    leaf s.m task.pagemap.pml4 (path virt) &&& stackFlags = stackFlags
  image : ∀ virt, task.stack - stackSize ≤ virt → virt < task.stack → ∀ x ∈ imagePages file, page virt ≠ page x.virt
  mmaps : ∀ s' task', Run (UserTask.step hhdm) (fun _ _ => True) (s, task) (s', task') → ∀ range ∈ task'.pagemap.ranges,
    ∀ virt, task.stack - stackSize ≤ virt → virt < task.stack → ∀ w, range.base ≤ w →
      w < range.base + range.length →
      page virt ≠ page w

/-- The stack pointer of a new task is where the stack begins: below it lies the last page of the program. -/
theorem stack_never_usable {k : Kernel} {file : NodeData} {s : Phys} {task : UserTask}
    (reached : k.Reachable fun _ _ => True)
    (made : newUserTask k.phys k.hhdm k.kernelPagemap.pml4 file = some (s, task)) :
    ¬UsableStack s k.hhdm file task := by
  intro usable
  obtain ⟨lab, labelled⟩ := reached.labelled
  obtain ⟨⟨s₁, pagemap⟩, fresh, filled⟩ := Option.bind_eq_some_iff.mp made
  obtain ⟨lab₁, adopt, top, -⟩ := newUserPagemap_step (K := ∅) labelled.tables labelled.root fresh
  unfold fillUserPagemap at filled
  obtain ⟨⟨pmm, kernelStack⟩, allocated, filled⟩ := Option.bind_eq_some_iff.mp filled
  obtain ⟨⟨s₂, ip, free⟩, loaded, filled⟩ := Option.bind_eq_some_iff.mp filled
  obtain ⟨⟨s₃, base⟩, mapped, returned⟩ := Option.bind_eq_some_iff.mp filled
  obtain ⟨rfl, rfl⟩ := Prod.mk.inj (Option.some.inj returned)
  obtain ⟨-, alloc⟩ := allocPages_step (K := Set.univ) adopt.tables (by decide) allocated
  obtain ⟨end_virt, pages, rfl⟩ := load_eq_some loaded
  obtain ⟨last, -⟩ := loadAll_step (K := Set.univ) alloc.tables top (fun _ _ => trivial) pages
  have room := usable.room
  have image := usable.image
  dsimp only at room image
  unfold stackSize at room image
  unfold alignUp at room image
  rcases foldl_nextFree ((imagePages file).map ImagePage.virt) 0 with none | ⟨virt, member, moved⟩
  · rw [none] at last
    rw [last] at room
    exact absurd room (by decide)
  · obtain ⟨x, listed, rfl⟩ := List.mem_map.mp member
    rw [moved] at last
    have bounded : x.virt < 2 ^ 64 := Nat.mod_lt _ (Nat.two_pow_pos 64)
    -- the last page lies below the stack pointer
    refine image x.virt ?_ ?_ x listed rfl
    · split <;> omega
    · split at room <;> split <;> omega

theorem stack_never_usable_onePage : ∃ s task,
    newUserTask Kernel.small.phys Kernel.small.hhdm Kernel.small.kernelPagemap.pml4 (onePage 0x400000) =
      some (s, task) ∧
    ¬UsableStack s Kernel.small.hhdm (onePage 0x400000) task := by
  have evaluated : (newUserTask Kernel.small.phys Kernel.small.hhdm Kernel.small.kernelPagemap.pml4
      (onePage 0x400000)).isSome := by
    decide +kernel
  obtain ⟨⟨s, task⟩, made⟩ := Option.isSome_iff_exists.mp evaluated
  exact ⟨s, task, made, stack_never_usable Kernel.small_reachable made⟩

/-- With one page at 0x400000, the 64 KiB below the stack pointer 0x401000 hold that page. -/
theorem stack_holds_program : ∃ s task, Kernel.small.Reachable (fun _ _ => True) ∧
    newUserTask Kernel.small.phys Kernel.small.hhdm Kernel.small.kernelPagemap.pml4 (onePage 0x400000) =
      some (s, task) ∧
    task.stack = 0x401000 ∧ ¬UsableStack s Kernel.small.hhdm (onePage 0x400000) task := by
  have evaluated : (newUserTask Kernel.small.phys Kernel.small.hhdm Kernel.small.kernelPagemap.pml4
      (onePage 0x400000)).map (fun r => r.2.stack) = some 0x401000 := by
    decide +kernel
  obtain ⟨⟨s, task⟩, made, stack⟩ := Option.map_eq_some_iff.mp evaluated
  dsimp only at stack
  refine ⟨s, task, Kernel.small_reachable, made, stack, ?_⟩
  intro usable
  have pages : (imagePages (onePage 0x400000)).map ImagePage.virt = [0x400000] := by decide +kernel
  obtain ⟨x, member, virt⟩ := List.mem_map.mp (pages ▸ List.mem_singleton_self 0x400000)
  refine usable.image 0x400000 ?_ ?_ x member (congrArg page virt.symm)
  · rw [stack]
    decide
  · rw [stack]
    decide

end FishOS.Sched
