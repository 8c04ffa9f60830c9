import FishOS.Mem.FlatMap
import FishOS.Userland.Segments

/-!
# The end of the image

The loader keeps a running maximum of unaligned page addresses and rounds it up once, at the
end. No page that it mapped reaches over the result.
-/

namespace FishOS.Userland

open RadixTree FishOS.Mem FishOS.Fs FishOS.Mem.Pmm

/-- The segment ends two pages below the top of the address space. -/
def ProgramHeader.Low (ph : ProgramHeader) : Prop := ph.virtAddr + ph.memSize + 0x2000 ≤ 2 ^ 64

/-- The end of the page that `map_page` maps for `virt`. -/
def pageEnd (virt : Nat) : Nat := virt / 0x1000 * 0x1000 + 0x1000

theorem ProgramHeader.Low.pageEnd_le {ph : ProgramHeader} (low : ph.Low) {i : Nat} (counted : i < ph.memPageCount) :
    pageEnd (ph.pageVirt i) + 0x2000 ≤ 2 ^ 64 := by
  have misalign := ph.misalign_eq
  unfold Low at low
  unfold memPageCount at counted
  unfold pageEnd pageVirt
  omega

theorem mem_imagePages {file : NodeData} {x : ImagePage} (member : x ∈ imagePages file) :
    x.ph ∈ segments file ∧ x.i < x.ph.memPageCount := by
  rw [imagePages_eq] at member
  obtain ⟨ph, segment, member⟩ := List.mem_flatMap.mp member
  unfold ProgramHeader.pages at member
  split at member
  · obtain ⟨i, counted, rfl⟩ := List.mem_map.mp member
    exact ⟨segment, List.mem_range.mp counted⟩
  · cases member

theorem imagePages_low {file : NodeData} (low : ∀ ph ∈ segments file, ph.Low) {x : ImagePage}
    (member : x ∈ imagePages file) : pageEnd x.virt + 0x2000 ≤ 2 ^ 64 := by
  obtain ⟨segment, counted⟩ := mem_imagePages member
  exact (low x.ph segment).pageEnd_le counted

section Maximum

variable {first_free_virt : Nat}

theorem nextFree_spec {virt : Nat} (low : pageEnd virt + 0x2000 ≤ 2 ^ 64) (start : first_free_virt + 0x1000 ≤ 2 ^ 64) :
    first_free_virt ≤ nextFree first_free_virt virt ∧ virt < nextFree first_free_virt virt ∧
      nextFree first_free_virt virt + 0x1000 ≤ 2 ^ 64 := by
  unfold pageEnd at low
  unfold nextFree
  split <;> omega

theorem foldl_nextFree {virts : List Nat} (low : ∀ virt ∈ virts, pageEnd virt + 0x2000 ≤ 2 ^ 64)
    (start : first_free_virt + 0x1000 ≤ 2 ^ 64) :
    first_free_virt ≤ virts.foldl nextFree first_free_virt ∧
      (∀ virt ∈ virts, virt < virts.foldl nextFree first_free_virt) ∧
      virts.foldl nextFree first_free_virt + 0x1000 ≤ 2 ^ 64 := by
  induction virts generalizing first_free_virt with
  | nil => simpa using start
  | cons virt rest ih =>
    obtain ⟨grows, above, bounded⟩ := nextFree_spec (low virt (.head _)) start
    obtain ⟨grows', above', bounded'⟩ := ih (fun v member => low v (.tail _ member)) bounded
    rw [List.foldl_cons]
    refine ⟨Nat.le_trans grows grows', ?_, bounded'⟩
    intro v member
    rcases List.mem_cons.mp member with rfl | later
    · exact Nat.lt_of_lt_of_le above grows'
    · exact above' v later

/-- Rounding up is what carries the end of the page over the maximum. -/
theorem pageEnd_le_alignUp {virt end_virt : Nat} (above : virt < end_virt) (bounded : end_virt + 0x1000 ≤ 2 ^ 64) :
    pageEnd virt ≤ alignUp end_virt := by
  rw [alignUp_eq (by omega)]
  unfold pageEnd
  omega

theorem alignUp_aligned (i : Nat) : alignUp i % 0x1000 = 0 := by
  unfold alignUp
  split <;> omega

end Maximum

section Load

variable {file : NodeData} {pml4 ip first_free_virt end_virt : Nat} {s s' : Phys}

theorem loadAll_end {xs : List ImagePage} (loaded : loadAll file pml4 s first_free_virt xs = some (s', end_virt)) :
    end_virt = (xs.map ImagePage.virt).foldl nextFree first_free_virt := by
  induction xs generalizing s first_free_virt with
  | nil => exact (Prod.mk.inj (Option.some.inj loaded)).2.symm
  | cons x xs ih =>
    unfold loadAll at loaded
    obtain ⟨⟨s₁, free⟩, first, loaded⟩ := Option.bind_eq_some_iff.mp loaded
    unfold loadPage at first
    obtain ⟨⟨pmm, frame⟩, -, first⟩ := Option.bind_eq_some_iff.mp first
    obtain ⟨s₂, -, returned⟩ := Option.bind_eq_some_iff.mp first
    obtain ⟨-, rfl⟩ := Prod.mk.inj (Option.some.inj returned)
    rw [ih loaded]
    rfl

theorem load_end (low : ∀ ph ∈ segments file, ph.Low) (loaded : load file pml4 s = some (s', ip, first_free_virt)) :
    first_free_virt % 0x1000 = 0 ∧ ∀ x ∈ imagePages file, pageEnd x.virt ≤ first_free_virt := by
  obtain ⟨end_virt, pages, rfl⟩ := load_eq_some loaded
  obtain rfl := loadAll_end pages
  have bounds : ∀ virt ∈ (imagePages file).map ImagePage.virt, pageEnd virt + 0x2000 ≤ 2 ^ 64 := by
    intro virt member
    obtain ⟨x, listed, rfl⟩ := List.mem_map.mp member
    exact imagePages_low low listed
  obtain ⟨-, above, bounded⟩ := foldl_nextFree bounds (show 0 + 0x1000 ≤ 2 ^ 64 by decide)
  refine ⟨alignUp_aligned _, ?_⟩
  intro x member
  exact pageEnd_le_alignUp (above x.virt (List.mem_map.mpr ⟨x, member, rfl⟩)) bounded

/-- The result is aligned and lies above all pages of the image, and the loader changes no other entry. -/
theorem first_free_virt_clears_image {lab : Nat → Option (List (Fin 512))} (tables : Tables s lab)
    (top : lab pml4 = some []) (low : ∀ ph ∈ segments file, ph.Low)
    (loaded : load file pml4 s = some (s', ip, first_free_virt)) :
    first_free_virt % 0x1000 = 0 ∧ (∀ x ∈ imagePages file, pageEnd x.virt ≤ first_free_virt) ∧
      ∀ w, leaf s'.m pml4 (path w) ≠ leaf s.m pml4 (path w) → ∃ x ∈ imagePages file, page w = page x.virt := by
  obtain ⟨aligned, above⟩ := load_end low loaded
  obtain ⟨end_virt, pages, -⟩ := load_eq_some loaded
  obtain ⟨-, lab', step⟩ := loadAll_step (K := {key | ∃ x ∈ imagePages file, key = path x.virt}) tables top
    (fun x member => ⟨x, member, rfl⟩) pages
  refine ⟨aligned, above, ?_⟩
  intro w changed
  by_contra elsewhere
  apply changed
  apply step.leaf top rfl
  rintro key ⟨x, member, rfl⟩ front
  exact elsewhere ⟨x, member, path_prefix_path.mp front⟩

end Load

/-- A segment that begins in the middle of a page. -/
def misaligned : NodeData := { size := 120, storage := oneSegment 0 0x400123 0 0x1000 }

theorem first_free_virt_clears_image_misaligned :
    ∃ s' ip, load misaligned 0x1000 smallPhys = some (s', ip, 0x403000) ∧
      ∀ x ∈ imagePages misaligned, pageEnd x.virt ≤ 0x403000 := by
  have evaluated : (load misaligned 0x1000 smallPhys).map (fun r => r.2.2) = some 0x403000 := by decide +kernel
  have single : segments misaligned = [⟨1, 6, 0, 0x400123, 0, 0x1000⟩] := by decide +kernel
  obtain ⟨⟨s', ip, first_free_virt⟩, loaded, same⟩ := Option.map_eq_some_iff.mp evaluated
  obtain rfl : first_free_virt = 0x403000 := same
  have low : ∀ ph ∈ segments misaligned, ph.Low := by
    rw [single]
    exact List.forall_mem_singleton.mpr (show 0x400123 + 0x1000 + 0x2000 ≤ 2 ^ 64 by decide)
  exact ⟨s', ip, loaded, (first_free_virt_clears_image smallPhys_zeroPml4.tables (if_pos rfl) low loaded).2.1⟩

end FishOS.Userland
