import FishOS.Mem.Walk

/-!
# Page faults

The four ways through `handle_page_fault`.
-/

namespace FishOS.Mem

open RadixTree Pmm

def Present (m : Mem) (root virt : Nat) : Prop := leaf m root (path virt) &&& pagePresent ≠ 0

def ZeroFrame (m : Mem) (frame : Nat) : Prop := ∀ x, frame ≤ x → x < frame + 0x1000 → m x = 0

/-- What a fault found, what it left in the entry of its page, and whether it stays unhandled. -/
inductive FaultOutcome (hhdm : Nat) (s : Phys) (pagemap : Pagemap) (virt : Nat) (s' : Phys) : Bool → Prop where
  | present (found : Present s.m pagemap.pml4 virt)
      (same : leaf s'.m pagemap.pml4 (path virt) = leaf s.m pagemap.pml4 (path virt)) :
      FaultOutcome hhdm s pagemap virt s' true
  | unmapped (absent : ¬Present s.m pagemap.pml4 virt) (none : addrToRange pagemap virt = none)
      (same : leaf s'.m pagemap.pml4 (path virt) = leaf s.m pagemap.pml4 (path virt)) :
      FaultOutcome hhdm s pagemap virt s' true
  | anonymous (range : MappedRange) (frame : Nat) (absent : ¬Present s.m pagemap.pml4 virt)
      (found : addrToRange pagemap virt = some range) (type : range.type = .anonymous) (handed : Handed s s' frame)
      (zero : ZeroFrame s'.m frame)
      (entry : leaf s'.m pagemap.pml4 (path virt) = (frame ||| range.pageFlags) % 2 ^ 64) :
      FaultOutcome hhdm s pagemap virt s' false
  | direct (range : MappedRange) (absent : ¬Present s.m pagemap.pml4 virt)
      (found : addrToRange pagemap virt = some range) (type : range.type = .direct)
      (entry : leaf s'.m pagemap.pml4 (path virt) = leafWord (directPhy hhdm virt) range.pageFlags % 2 ^ 64) :
      FaultOutcome hhdm s pagemap virt s' false

variable {s s₁ s' : Phys} {lab : Nat → Option (List (Fin 512))} {K : Set (List (Fin 512))}

theorem Handed.after {frame : Nat} (handed : Handed s₁ s' frame) (grows : Grows s.pmm.bitmap s₁.pmm.bitmap) :
    Handed s s' frame :=
  ⟨handed.aligned, handed.bounded, fun taken => handed.free (grows.taken _ taken), handed.taken⟩

theorem Step.leaf_tablePath {lab' : Nat → Option (List (Fin 512))} {virt root : Nat}
    (step : Step {tablePath virt} s lab s' lab') (top : lab root = some []) (w : Nat) :
    FishOS.Mem.leaf s'.m root (path w) = FishOS.Mem.leaf s.m root (path w) := by
  apply step.leaf top rfl
  intro key member front
  obtain rfl : key = tablePath virt := member
  exact absurd front.length_le (by simp [path, tablePath])

theorem handlePageFault_step {hhdm virt : Nat} {pagemap : Pagemap} {unhandled : Bool} (tables : Tables s lab)
    (top : lab pagemap.pml4 = some []) (faulted : handlePageFault hhdm s pagemap virt = some (s', unhandled)) :
    (∃ lab', Step {path virt} s lab s' lab') ∧ FaultOutcome hhdm s pagemap virt s' unhandled := by
  unfold handlePageFault at faulted
  obtain ⟨⟨s₁, t⟩, walked, faulted⟩ := Option.bind_eq_some_iff.mp faulted
  obtain ⟨lab₁, walk, way⟩ := lastTable_step tables top walked
  have down := walk.mono (tablePath_begins virt)
  have top₁ := walk.keeps top
  have kept := walk.leaf_tablePath top virt
  have read : entry s₁.m t ((virt >>> 12) &&& 0x1FF) = leaf s.m pagemap.pml4 (path virt) := by
    rw [← kept, leaf_path way]
    rfl
  dsimp only at faulted
  rw [read] at faulted
  split at faulted
  · rename_i zero
    have absent : ¬Present s.m pagemap.pml4 virt := fun present => present zero
    split at faulted
    · rename_i none
      obtain ⟨rfl, rfl⟩ := Prod.mk.inj (Option.some.inj faulted)
      exact ⟨⟨lab₁, down⟩, .unmapped absent none kept⟩
    · rename_i range found
      split at faulted
      · rename_i type
        obtain ⟨⟨s₂, frame⟩, allocated, same⟩ := Option.bind_eq_some_iff.mp faulted
        obtain ⟨rfl, rfl⟩ := Prod.mk.inj (Option.some.inj same)
        obtain ⟨handed, cleared, zeroed⟩ := allocZeroed_step (K := {path virt}) walk.tables allocated
        have way₂ := cleared.follow walk.tables top₁ (by simp [tablePath]) way
        obtain ⟨set, stored⟩ :=
          cleared.tables.setLeaf (v := frame ||| range.pageFlags) (cleared.keeps top₁) way₂
        have here := walk.tables.labels.follow_label top₁ (by simp [tablePath]) way
        have apart : t ≠ frame := by
          intro same
          rw [same, handed.unlabelled walk.tables] at here
          cases here
        have zero : ZeroFrame (setEntry s₂.m t (level virt 12) (frame ||| range.pageFlags)) frame := by
          intro x lower upper
          have tAligned := walk.tables.aligned here
          have aligned := handed.aligned
          rw [setEntry_other _ _ (by omega), zeroed, Mem.memset_inside _ lower upper]
        refine ⟨⟨lab₁, (down.trans cleared).trans set⟩,
          .anonymous range frame absent found type ⟨handed.aligned, handed.bounded, ?_, handed.taken⟩ zero ?_⟩
        · exact (handed.after walk.grows).free
        · exact leaf_of_reach stored
      · rename_i type
        obtain ⟨rfl, rfl⟩ := Prod.mk.inj (Option.some.inj faulted)
        obtain ⟨set, stored⟩ := walk.tables.setLeaf
          (v := (directPhy hhdm virt &&& addressMask) ||| range.pageFlags) top₁ way
        have entry := leaf_of_reach stored
        refine ⟨⟨lab₁, down.trans set⟩, ?_⟩
        refine .direct range absent found type ?_
        rw [leafWord]
        exact entry
  · rename_i present
    obtain ⟨rfl, rfl⟩ := Prod.mk.inj (Option.some.inj faulted)
    exact ⟨⟨lab₁, down⟩, .present present kept⟩

theorem Step.present_iff {lab' : Nat → Option (List (Fin 512))} {virt root w : Nat}
    (step : Step {path virt} s lab s' lab') (top : lab root = some []) (other : page w ≠ page virt) :
    Present s'.m root w ↔ Present s.m root w := by
  have same : FishOS.Mem.leaf s'.m root (path w) = FishOS.Mem.leaf s.m root (path w) := by
    apply step.leaf top rfl
    intro key member front
    obtain rfl : key = path virt := member
    exact other (path_prefix_path.mp front)
  unfold Present
  rw [same]

/-- A fault that leaves the entry of its page as it is makes no page present. -/
theorem Step.absent_of_same {lab' : Nat → Option (List (Fin 512))} {virt root w : Nat}
    (step : Step {path virt} s lab s' lab') (top : lab root = some [])
    (same : FishOS.Mem.leaf s'.m root (path virt) = FishOS.Mem.leaf s.m root (path virt))
    (absent : ¬Present s.m root w) : ¬Present s'.m root w := by
  by_cases here : page w = page virt
  · unfold Present at absent ⊢
    rw [path_eq_iff.mpr here] at absent ⊢
    rwa [same]
  · rwa [step.present_iff top here]

end FishOS.Mem
