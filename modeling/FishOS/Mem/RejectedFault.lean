import FishOS.Mem.FlatMap
import FishOS.Mem.Fault

/-!
# Rejected faults

`handle_page_fault` walks down to the entry of a page before it looks for a range, and the walk
adds the tables that are missing. A fault that no range covers leaves them behind.
-/

namespace FishOS.Mem

open RadixTree Pmm

/-- All words that walks from the root read, at every level. -/
def SameTree (m m' : Mem) (root : Nat) : Prop :=
  ∀ p : List (Fin 512), p.length ≤ 4 → reach next (word m') root p = reach next (word m) root p

/-- A fault that stays unhandled changes nothing, and one that is handled only its own page. -/
structure FaultContract (s s' : Phys) (lab : Nat → Option (List (Fin 512))) (root virt : Nat) (unhandled : Bool) : Prop where
  rejected : unhandled = true → SameTree s.m s'.m root ∧ s'.pmm.bitmap = s.pmm.bitmap
  handled : unhandled = false → ∀ top, lab top = some [] → ∀ w, page w ≠ page virt →
    leaf s'.m top (path w) = leaf s.m top (path w)

def TablesThere (m : Mem) (root virt : Nat) : Prop := (follow next (word m) root (tablePath virt)).isSome

variable {s s' : Phys} {lab : Nat → Option (List (Fin 512))} {pagemap : Pagemap} {hhdm virt : Nat} {unhandled : Bool}

theorem Present.tablesThere {m : Mem} {root : Nat} (present : Present m root virt) : TablesThere m root virt := by
  have shape : path virt = tablePath virt ++ [level virt 12] := rfl
  unfold TablesThere
  cases way : follow next (word m) root (tablePath virt) with
  | some t => rfl
  | none =>
    unfold Present leaf at present
    rw [shape, reach_snoc, way] at present
    simp at present

/-- A rejection returns the state that the walk left. -/
theorem handlePageFault_walked (faulted : handlePageFault hhdm s pagemap virt = some (s', true)) :
    ∃ t, lastTable s pagemap.pml4 virt = some (s', t) := by
  unfold handlePageFault at faulted
  obtain ⟨⟨s₁, t⟩, walked, faulted⟩ := Option.bind_eq_some_iff.mp faulted
  refine ⟨t, ?_⟩
  dsimp only at faulted
  split at faulted
  · split at faulted
    · simp only [Option.some.injEq, Prod.mk.injEq] at faulted
      rw [walked, faulted.1]
    · split at faulted
      · simp [Option.bind_eq_some_iff] at faulted
      · simp at faulted
  · simp only [Option.some.injEq, Prod.mk.injEq] at faulted
    rw [walked, faulted.1]

theorem handlePageFault_rejected (there : TablesThere s.m pagemap.pml4 virt)
    (faulted : handlePageFault hhdm s pagemap virt = some (s', true)) : s' = s := by
  obtain ⟨t, walked⟩ := handlePageFault_walked faulted
  obtain ⟨t', way⟩ := Option.isSome_iff_exists.mp there
  rw [lastTable_of_follow way] at walked
  exact (Prod.mk.inj (Option.some.inj walked)).1.symm

/-- The walk of a fault leaves all tables for its page behind. -/
theorem handlePageFault_tablesThere (tables : Tables s lab) (top : lab pagemap.pml4 = some [])
    (faulted : handlePageFault hhdm s pagemap virt = some (s', true)) : TablesThere s'.m pagemap.pml4 virt := by
  obtain ⟨t, walked⟩ := handlePageFault_walked faulted
  obtain ⟨-, -, way⟩ := lastTable_step tables top walked
  exact Option.isSome_iff_exists.mpr ⟨t, way⟩

theorem FaultOutcome.tablesThere (outcome : FaultOutcome hhdm s pagemap virt s' unhandled)
    (there : TablesThere s.m pagemap.pml4 virt ∨ (addrToRange pagemap virt).isSome) (handled : unhandled = true) :
    TablesThere s.m pagemap.pml4 virt := by
  rcases there with there | found
  · exact there
  · cases outcome with
    | present present same => exact present.tablesThere
    | unmapped absent none same =>
      rw [none] at found
      cases found
    | anonymous range frame absent found type handed zero entry => cases handled
    | direct range absent found type entry => cases handled

/-- A rejected fault costs nothing exactly when its tables were all there. -/
theorem rejected_fault_costs_nothing_iff (tables : Tables s lab) (top : lab pagemap.pml4 = some [])
    (faulted : handlePageFault hhdm s pagemap virt = some (s', unhandled)) :
    FaultContract s s' lab pagemap.pml4 virt unhandled ↔
      TablesThere s.m pagemap.pml4 virt ∨ (addrToRange pagemap virt).isSome := by
  obtain ⟨⟨lab', step⟩, outcome⟩ := handlePageFault_step tables top faulted
  have other : ∀ root, lab root = some [] → ∀ w, page w ≠ page virt →
      leaf s'.m root (path w) = leaf s.m root (path w) := by
    intro root top w apart
    apply step.leaf top rfl
    intro key member front
    obtain rfl : key = path virt := member
    exact apart (path_prefix_path.mp front)
  constructor
  · intro contract
    cases outcome with
    | anonymous range frame absent found type handed zero entry => exact Or.inr (Option.isSome_iff_exists.mpr ⟨range, found⟩)
    | direct range absent found type entry => exact Or.inr (Option.isSome_iff_exists.mpr ⟨range, found⟩)
    | present present same => exact Or.inl present.tablesThere
    | unmapped absent none same =>
      -- the walk reads an entry for the page now, so it did before
      obtain ⟨t, way⟩ := Option.isSome_iff_exists.mp (handlePageFault_tablesThere tables top faulted)
      have tree := (contract.rejected rfl).1 (path virt) (Nat.le_refl 4)
      have shape : path virt = tablePath virt ++ [level virt 12] := rfl
      rw [reach_path way, shape, reach_snoc] at tree
      left
      unfold TablesThere
      cases before : follow next (word s.m) pagemap.pml4 (tablePath virt) with
      | some t => rfl
      | none =>
        rw [before] at tree
        cases tree
  · intro there
    refine ⟨?_, fun _ => other⟩
    intro rejected
    have walked := outcome.tablesThere there rejected
    subst rejected
    obtain rfl := handlePageFault_rejected walked faulted
    exact ⟨fun _ _ => rfl, rfl⟩

/-- An anonymous range that begins at 0x400000. -/
def smallPagemap : Pagemap where
  pml4 := 0x1000
  ranges := [{ base := 0x400000, length := 0x1000, pageFlags := 7, type := .anonymous }]

theorem rejected_fault_costs_nothing_iff_handled :
    ∃ s', handlePageFault 0 smallPhys smallPagemap 0x400123 = some (s', false) ∧
      ∀ w, page w ≠ page 0x400123 → leaf s'.m 0x1000 (path w) = leaf smallPhys.m 0x1000 (path w) := by
  have evaluated : (handlePageFault 0 smallPhys smallPagemap 0x400123).map Prod.snd = some false := by decide +kernel
  obtain ⟨⟨s', unhandled⟩, faulted, same⟩ := Option.map_eq_some_iff.mp evaluated
  obtain rfl : unhandled = false := same
  have tables := smallPhys_zeroPml4.tables
  have contract := (rejected_fault_costs_nothing_iff tables (if_pos rfl) faulted).mpr
    (Or.inr (by decide))
  exact ⟨s', faulted, contract.handled rfl 0x1000 (if_pos rfl)⟩

/-- No range covers 0x800000, and the rejected fault still takes three frames for tables. -/
theorem rejected_fault_takes_frames :
    ∃ s', handlePageFault 0 smallPhys smallPagemap 0x800000 = some (s', true) ∧
      (List.range 16).map smallPhys.pmm.bitmap.get = List.replicate 2 true ++ List.replicate 14 false ∧
      (List.range 16).map s'.pmm.bitmap.get = List.replicate 5 true ++ List.replicate 11 false ∧
      ∀ lab, ¬FaultContract smallPhys s' lab smallPagemap.pml4 0x800000 true := by
  have evaluated : (handlePageFault 0 smallPhys smallPagemap 0x800000).map
      (fun r => (r.2, (List.range 16).map r.1.pmm.bitmap.get)) =
        some (true, List.replicate 5 true ++ List.replicate 11 false) := by decide +kernel
  obtain ⟨⟨s', unhandled⟩, faulted, same⟩ := Option.map_eq_some_iff.mp evaluated
  obtain ⟨rfl, taken⟩ := Prod.mk.inj same
  have before : (List.range 16).map smallPhys.pmm.bitmap.get = List.replicate 2 true ++ List.replicate 14 false := by
    decide
  refine ⟨s', faulted, before, taken, ?_⟩
  intro lab contract
  rw [(contract.rejected rfl).2, before] at taken
  exact absurd taken (by decide)

end FishOS.Mem
