import FishOS.Userland.Image

/-!
# Segments

What the bytes of a segment read as once the file is loaded, by their distance from the
segment's start.
-/

namespace FishOS.Userland

open RadixTree FishOS.Mem FishOS.Fs

def segments (file : NodeData) : List ProgramHeader :=
  ((List.range (readHeader file).phCount).map (readProgramHeader file (readHeader file))).filter (·.type = ptLoad)

theorem imagePages_eq (file : NodeData) : imagePages file = (segments file).flatMap ProgramHeader.pages := by
  unfold imagePages segments
  generalize List.range (readHeader file).phCount = indices
  induction indices with
  | nil => rfl
  | cons i rest ih =>
    rw [List.flatMap_cons, List.map_cons, List.filter_cons, ih]
    by_cases load : (readProgramHeader file (readHeader file) i).type = ptLoad
    · rw [if_pos (decide_eq_true load), List.flatMap_cons]
    · have none : (readProgramHeader file (readHeader file) i).pages = [] := if_neg load
      rw [if_neg (by simpa using load), none, List.nil_append]

/-- A file in a block of the kernel heap, whose segments are no shorter in memory than in the
file, do not wrap around, neither at 64 bits nor in the 48 bits that the tables translate, and
share no page. -/
structure Loadable (file : NodeData) : Prop where
  heap : file.size ≤ heapSize
  sizes : ∀ ph ∈ segments file, ph.fileSize ≤ ph.memSize
  fits : ∀ ph ∈ segments file, ph.virtAddr + ph.memSize ≤ 2 ^ 64 ∧ ph.misalign + ph.memSize ≤ 2 ^ 48
  apart : (segments file).Pairwise fun a b => ∀ x ∈ a.pages, ∀ y ∈ b.pages, page x.virt ≠ page y.virt

theorem Loadable.of_single {file : NodeData} {ph : ProgramHeader} (single : segments file = [ph])
    (heap : file.size ≤ heapSize) (sizes : ph.fileSize ≤ ph.memSize)
    (fits : ph.virtAddr + ph.memSize ≤ 2 ^ 64 ∧ ph.misalign + ph.memSize ≤ 2 ^ 48) :
    Loadable file where
  heap := heap
  sizes := single ▸ List.forall_mem_singleton.mpr sizes
  fits := single ▸ List.forall_mem_singleton.mpr fits
  apart := single ▸ List.pairwise_singleton _ _

def segmentByte (file : NodeData) (ph : ProgramHeader) (k : Nat) : UInt8 :=
  ImagePage.byte file ⟨ph, (ph.misalign + k) / 0x1000⟩ ((ph.misalign + k) % 0x1000)

theorem ProgramHeader.pages_distinct (ph : ProgramHeader) (fits : ph.misalign + ph.memSize ≤ 2 ^ 48) :
    ph.pages.Pairwise fun x y => page x.virt ≠ page y.virt := by
  unfold ProgramHeader.pages
  split
  · refine List.pairwise_map.mpr (List.pairwise_lt_range.imp_of_mem fun {i j} _ later before => ?_)
    have last := List.mem_range.mp later
    unfold ProgramHeader.memPageCount at last
    unfold ImagePage.virt ProgramHeader.pageVirt page
    dsimp only
    omega
  · exact .nil

theorem Loadable.distinct {file : NodeData} (loadable : Loadable file) :
    (imagePages file).Pairwise fun x y => page x.virt ≠ page y.virt := by
  rw [imagePages_eq]
  exact List.pairwise_flatMap.mpr ⟨fun ph member => ph.pages_distinct (loadable.fits ph member).2, loadable.apart⟩

theorem ProgramHeader.page_of_byte {ph : ProgramHeader} {k : Nat} (fits : ph.misalign + ph.memSize ≤ 2 ^ 48)
    (inside : k < ph.memSize) :
    (ph.misalign + k) / 0x1000 < ph.memPageCount ∧
      page (ph.virtAddr + k) = page (ph.pageVirt ((ph.misalign + k) / 0x1000)) ∧
      (ph.virtAddr + k) % 0x1000 = (ph.misalign + k) % 0x1000 := by
  have misalign := ph.misalign_eq
  unfold memPageCount pageVirt page
  refine ⟨?_, ?_, ?_⟩ <;> omega

section Load

variable {file : NodeData} {pml4 ip first_free_virt : Nat} {s s' : Phys} {lab : Nat → Option (List (Fin 512))}

theorem load_reads (tables : Tables s lab) (top : lab pml4 = some []) (loadable : Loadable file)
    (loaded : load file pml4 s = some (s', ip, first_free_virt)) {ph : ProgramHeader}
    (member : ph ∈ segments file) {k : Nat} (inside : k < ph.memSize) :
    readVirt s'.m pml4 (ph.virtAddr + k) = some (segmentByte file ph k) := by
  obtain ⟨end_virt, pages, -⟩ := load_eq_some loaded
  obtain ⟨lab', -, shown⟩ := loadAll_shown tables top loadable.distinct pages
  obtain ⟨counted, same, rest⟩ := ProgramHeader.page_of_byte (loadable.fits ph member).2 inside
  have segment : ph.type = ptLoad := by simpa using (List.mem_filter.mp member).2
  have listed : (⟨ph, (ph.misalign + k) / 0x1000⟩ : ImagePage) ∈ imagePages file := by
    rw [imagePages_eq]
    refine List.mem_flatMap.mpr ⟨ph, member, ?_⟩
    unfold ProgramHeader.pages
    rw [if_pos segment]
    exact List.mem_map.mpr ⟨_, List.mem_range.mpr counted, rfl⟩
  obtain ⟨frame, backed⟩ := shown _ listed
  rw [backed.readVirt ph.pageFlags_present ph.pageFlags_clear same, rest]
  rfl

end Load

variable {file : NodeData} {ph : ProgramHeader} {k : Nat}

/-- On these pages the loader reads nothing: the last page of the file image, if it is full and
not the first one. -/
def ProgramHeader.Skipped (ph : ProgramHeader) (k : Nat) : Prop :=
  (ph.fileSize + ph.misalign) % 0x1000 = 0 ∧ 0x1000 ≤ ph.misalign + k ∧ ph.fileSize ≤ k + 0x1000

instance : Decidable (ph.Skipped k) := inferInstanceAs (Decidable (_ ∧ _ ∧ _))

theorem ImagePage.byte_of_chunk {x : ImagePage} {dst size offset o : Nat} (heap : file.size ≤ heapSize)
    (counted : x.i < x.ph.filePageCount) (chunk : x.ph.chunk 0 x.i = (dst, size, offset)) :
    x.byte file o = if dst ≤ o ∧ o < dst + size then file.byte (offset + (o - dst)) else 0 := by
  have inside := (x.ph.chunk_inside 0 x.i).2
  unfold heapSize at heap
  unfold ImagePage.byte NodeData.byte
  rw [if_pos counted]
  rw [chunk] at inside ⊢
  dsimp only at inside ⊢
  by_cases beyond : file.size ≤ offset
  · have none : file.transferred size offset = 0 := if_pos beyond
    have zero : ¬offset + (o - dst) < file.size := by omega
    rw [none, if_neg (by omega), if_neg zero, ite_self]
  · rw [file.transferred_eq (by omega)]
    split
    · rw [if_pos (by omega), if_pos (by omega)]
    · split
      · rw [if_neg (by omega)]
      · rfl

theorem segmentByte_file (heap : file.size ≤ heapSize) (within : ph.offset + ph.fileSize ≤ file.size)
    (inside : k < ph.fileSize) :
    segmentByte file ph k = if ph.Skipped k then 0 else file.byte (ph.offset + ph.misalign + k) := by
  have misalign := ph.misalign_eq
  have small := heap
  unfold heapSize at small
  unfold segmentByte
  have counted : (ph.misalign + k) / 0x1000 < ph.filePageCount := by
    unfold ProgramHeader.filePageCount
    omega
  by_cases first : (ph.misalign + k) / 0x1000 = 0
  · have chunk : ph.chunk 0 ((ph.misalign + k) / 0x1000) =
        (ph.misalign, 0x1000 - ph.misalign, ph.offset + ph.misalign) := by
      unfold ProgramHeader.chunk
      dsimp only
      rw [if_pos first, first]
      simp only [Prod.mk.injEq, Nat.zero_add, true_and]
      omega
    have read : ¬ph.Skipped k := fun ⟨_, later, _⟩ => by omega
    rw [ImagePage.byte_of_chunk heap counted chunk, if_pos (by omega), if_neg read]
    congr 1
    omega
  · have offset : (ph.offset + (ph.misalign + k) / 0x1000 * 0x1000) % 2 ^ 64 =
        ph.offset + (ph.misalign + k) / 0x1000 * 0x1000 := Nat.mod_eq_of_lt (by omega)
    by_cases last : (ph.misalign + k) / 0x1000 = ph.filePageCount - 1
    · have chunk : ph.chunk 0 ((ph.misalign + k) / 0x1000) =
          (0, (ph.fileSize + ph.misalign) % 0x1000, ph.offset + (ph.misalign + k) / 0x1000 * 0x1000) := by
        unfold ProgramHeader.chunk
        dsimp only
        rw [if_neg first, if_pos last, offset, Nat.mod_eq_of_lt (show ph.fileSize + ph.misalign < 2 ^ 64 by omega)]
      unfold ProgramHeader.filePageCount at last
      rw [ImagePage.byte_of_chunk heap counted chunk]
      by_cases full : (ph.fileSize + ph.misalign) % 0x1000 = 0
      · have skipped : ph.Skipped k := ⟨full, by omega, by omega⟩
        rw [if_neg (by omega), if_pos skipped]
      · have read : ¬ph.Skipped k := fun skipped => full skipped.1
        rw [if_pos (by omega), if_neg read]
        congr 1
        omega
    · have chunk : ph.chunk 0 ((ph.misalign + k) / 0x1000) =
          (0, 0x1000, ph.offset + (ph.misalign + k) / 0x1000 * 0x1000) := by
        unfold ProgramHeader.chunk
        dsimp only
        rw [if_neg first, if_neg last, offset]
      unfold ProgramHeader.filePageCount at last
      have read : ¬ph.Skipped k := fun ⟨_, _, near⟩ => by omega
      rw [ImagePage.byte_of_chunk heap counted chunk, if_pos (by omega), if_neg read]
      congr 1
      omega

theorem segmentByte_behind (heap : file.size ≤ heapSize) (fits : ph.misalign + ph.memSize ≤ 2 ^ 48)
    (sizes : ph.fileSize ≤ ph.memSize) (behind : ph.fileSize ≤ k) (inside : k < ph.memSize) :
    segmentByte file ph k = if 0 < ph.fileSize + ph.misalign ∧ ph.misalign + k < 0x1000 then
      file.byte ((ph.offset + ph.misalign) % 2 ^ 64 + k) else 0 := by
  have misalign := ph.misalign_eq
  unfold segmentByte
  by_cases counted : (ph.misalign + k) / 0x1000 < ph.filePageCount
  · by_cases first : (ph.misalign + k) / 0x1000 = 0
    · have chunk : ph.chunk 0 ((ph.misalign + k) / 0x1000) =
          (ph.misalign, 0x1000 - ph.misalign, (ph.offset + ph.misalign) % 2 ^ 64) := by
        unfold ProgramHeader.chunk
        dsimp only
        rw [if_pos first, first]
        simp only [Prod.mk.injEq, Nat.zero_add, true_and]
        omega
      unfold ProgramHeader.filePageCount at counted
      rw [ImagePage.byte_of_chunk heap counted chunk, if_pos (by omega), if_pos (by omega)]
      congr 1
      omega
    · have last : (ph.misalign + k) / 0x1000 = ph.filePageCount - 1 := by
        unfold ProgramHeader.filePageCount at counted ⊢
        omega
      have chunk : ph.chunk 0 ((ph.misalign + k) / 0x1000) = (0, (ph.fileSize + ph.misalign) % 2 ^ 64 % 0x1000,
          (ph.offset + (ph.misalign + k) / 0x1000 * 0x1000) % 2 ^ 64) := by
        unfold ProgramHeader.chunk
        dsimp only
        rw [if_neg first, if_pos last]
      rw [ImagePage.byte_of_chunk heap counted chunk]
      unfold ProgramHeader.filePageCount at last
      rw [if_neg (by omega), if_neg (by omega)]
  · have none : ImagePage.byte file ⟨ph, (ph.misalign + k) / 0x1000⟩ ((ph.misalign + k) % 0x1000) = 0 :=
      if_neg counted
    unfold ProgramHeader.filePageCount at counted
    rw [none, if_neg (by omega)]

end FishOS.Userland
