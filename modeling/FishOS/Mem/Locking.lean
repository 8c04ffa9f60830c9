import FishOS.Klib.Lock
import FishOS.Mem.FlatMap
import FishOS.Mem.Handout

/-!
# Locks of the page table walks

The guards that `map_page` and `handle_page_fault` construct and destroy while they run. Every
frame they allocate on the way takes `pmm_lock` inside the lock of the pagemap.
-/

namespace FishOS.Mem

open Klib

inductive KernelLock where
  | pagemap
  | pmm
  deriving DecidableEq

abbrev LockEvents := List (GuardEvent KernelLock)

def allocPagesEvents : LockEvents := [.acquire .pmm, .release .pmm]

def pageTableNextLevelEvents (s : Phys) (current_table index : Nat) : LockEvents :=
  if entry s.m current_table index &&& pagePresent ≠ 0 then [] else allocPagesEvents

def lastTableEvents (s : Phys) (pml4 virt : Nat) : Option LockEvents := do
  let first := pageTableNextLevelEvents s pml4 ((virt >>> 39) &&& 0x1FF)
  let (s, current_table) ← pageTableNextLevel s pml4 ((virt >>> 39) &&& 0x1FF)
  let second := pageTableNextLevelEvents s current_table ((virt >>> 30) &&& 0x1FF)
  let (s, current_table) ← pageTableNextLevel s current_table ((virt >>> 30) &&& 0x1FF)
  some (first ++ second ++ pageTableNextLevelEvents s current_table ((virt >>> 21) &&& 0x1FF))

def mapPageEvents (s : Phys) (pml4 virt : Nat) : Option LockEvents := do
  let walk ← lastTableEvents s pml4 virt
  some ([.acquire .pagemap] ++ walk ++ [.release .pagemap])

def handlePageFaultEvents (s : Phys) (pagemap : Pagemap) (virt : Nat) : Option LockEvents := do
  let walk ← lastTableEvents s pagemap.pml4 virt
  let (s, current_table) ← lastTable s pagemap.pml4 virt
  let index := (virt >>> 12) &&& 0x1FF
  let page :=
    if entry s.m current_table index &&& pagePresent = 0 ∧
        (addrToRange pagemap virt).map MappedRange.type = some .anonymous then allocPagesEvents
    else []
  some ([.acquire .pagemap] ++ (walk ++ page) ++ [.release .pagemap])

/-- `n` frames allocated one after another. -/
def allocations (n : Nat) : LockEvents := (List.replicate n allocPagesEvents).flatten

def Phys.allocated (s : Phys) : Nat := s.pmm.totalAllocated

theorem allocations_add (n k : Nat) : allocations (n + k) = allocations n ++ allocations k := by
  unfold allocations
  rw [List.replicate_add, List.flatten_append]

theorem Pmm.totalAllocated_innerAllocLoop (num_pages limit fuel : Nat) (p : Pmm) (pages : Nat) :
    (innerAllocLoop num_pages limit fuel p pages).1.totalAllocated = p.totalAllocated := by
  induction fuel generalizing p pages with
  | zero => rfl
  | succ fuel ih =>
    unfold innerAllocLoop
    split
    · split
      · dsimp only
        split
        · rw [totalAllocated_setRange]
        · rw [ih]
      · rw [ih]
    · rfl

theorem Pmm.allocPages_total {p p' : Pmm} {num_pages result : Nat}
    (allocated : p.allocPages num_pages = some (p', result)) :
    p'.totalAllocated = p.totalAllocated + num_pages * 0x1000 := by
  have searched (p : Pmm) (limit : Nat) : (p.innerAlloc num_pages limit).1.totalAllocated = p.totalAllocated :=
    totalAllocated_innerAllocLoop num_pages limit (limit - p.pageBitmapIndex) p 0
  rw [allocPages_eq] at allocated
  dsimp only at allocated
  split at allocated
  · obtain ⟨rfl, _⟩ := Prod.mk.inj (Option.some.inj allocated)
    rw [searched]
  · split at allocated
    · obtain ⟨rfl, _⟩ := Prod.mk.inj (Option.some.inj allocated)
      rw [searched, searched]
    · cases allocated

theorem Phys.allocated_allocZeroed {s s' : Phys} {new_page : Nat}
    (zeroed : s.allocZeroed = some (s', new_page)) :
    s'.allocated = s.allocated + 0x1000 := by
  obtain ⟨⟨pmm, page⟩, allocated, returned⟩ := Option.bind_eq_some_iff.mp zeroed
  obtain ⟨rfl, _⟩ := Prod.mk.inj (Option.some.inj returned)
  exact Pmm.allocPages_total allocated

theorem pageTableNextLevelEvents_eq {s s' : Phys} {current_table index next_table : Nat}
    (stepped : pageTableNextLevel s current_table index = some (s', next_table)) :
    ∃ n, pageTableNextLevelEvents s current_table index = allocations n ∧
      s'.allocated = s.allocated + n * 0x1000 := by
  unfold pageTableNextLevelEvents
  simp only [pageTableNextLevel] at stepped
  split at stepped
  · rename_i present
    obtain ⟨rfl, _⟩ := Prod.mk.inj (Option.some.inj stepped)
    exact ⟨0, if_pos present, by simp⟩
  · rename_i absent
    obtain ⟨⟨s₁, new_page⟩, zeroed, returned⟩ := Option.bind_eq_some_iff.mp stepped
    obtain ⟨rfl, _⟩ := Prod.mk.inj (Option.some.inj returned)
    have grown := Phys.allocated_allocZeroed zeroed
    refine ⟨1, if_neg absent, ?_⟩
    rw [Nat.one_mul]
    exact grown

/-- The walk takes `pmm_lock` once for every frame by which the total grows. -/
theorem lastTableEvents_eq {s s' : Phys} {pml4 virt table : Nat}
    (walked : lastTable s pml4 virt = some (s', table)) :
    ∃ n, lastTableEvents s pml4 virt = some (allocations n) ∧ s'.allocated = s.allocated + n * 0x1000 := by
  obtain ⟨⟨s₁, table₁⟩, first, walked⟩ := Option.bind_eq_some_iff.mp walked
  obtain ⟨⟨s₂, table₂⟩, second, third⟩ := Option.bind_eq_some_iff.mp walked
  obtain ⟨n₁, events₁, grown₁⟩ := pageTableNextLevelEvents_eq first
  obtain ⟨n₂, events₂, grown₂⟩ := pageTableNextLevelEvents_eq second
  obtain ⟨n₃, events₃, grown₃⟩ := pageTableNextLevelEvents_eq third
  refine ⟨n₁ + n₂ + n₃, ?_, by omega⟩
  unfold lastTableEvents
  rw [first, Option.bind_eq_bind, Option.bind_some]
  dsimp only
  rw [second, Option.bind_some]
  dsimp only
  rw [events₁, events₂, events₃, allocations_add, allocations_add]

/-- A critical section of the pagemap that allocates `n` frames. -/
def walkEvents (n : Nat) : LockEvents := [.acquire .pagemap] ++ allocations n ++ [.release .pagemap]

theorem heldAfter_walkEvents (n : Nat) : heldAfter (walkEvents n) = some [] := by
  have inside : (allocations n).foldlM nest [KernelLock.pagemap] = some [KernelLock.pagemap] := by
    induction n with
    | zero => rfl
    | succ n ih =>
      rw [allocations_add, List.foldlM_append, ih]
      rfl
  unfold heldAfter walkEvents
  rw [List.foldlM_append, List.foldlM_append]
  have outer : [GuardEvent.acquire KernelLock.pagemap].foldlM nest [] = some [KernelLock.pagemap] := rfl
  rw [outer, Option.bind_eq_bind, Option.bind_some, inside]
  rfl

/-- Interrupts stay off in a critical section of a pagemap exactly when it allocates nothing. -/
theorem interruptsOff_walkEvents {core : Core KernelLock} (free : ∀ l, core.locked l = false) (n : Nat) :
    core.InterruptsOff (walkEvents n) ↔ n = 0 := by
  constructor
  · intro off
    cases n with
    | zero => rfl
    | succ n =>
      have early : [.acquire .pagemap] ++ allocPagesEvents <+: walkEvents (n + 1) := by
        refine ⟨allocations n ++ [.release .pagemap], ?_⟩
        simp [walkEvents, allocations, List.replicate_succ]
      have ran : core.run ([.acquire .pagemap] ++ allocPagesEvents) =
          some (((core.cli.setLocked .pagemap true).cli.setLocked .pmm true).unlock .pmm) := by
        simp [Core.run, allocPagesEvents, Core.step, Core.lock, Core.cli, Core.setLocked, free]
      cases off _ _ .pagemap early ran rfl
  · rintro rfl
    intro done core' l early ran holding
    have two : done <+: [.acquire .pagemap, .release .pagemap] := early
    rcases List.prefix_cons_iff.mp two with rfl | ⟨rest, rfl, one⟩
    · obtain rfl := Option.some.inj ran
      rw [free l] at holding
      cases holding
    · have entered : core.step (.acquire .pagemap) = some (core.cli.setLocked .pagemap true) := by
        simp [Core.step, Core.lock, Core.cli, free]
      unfold Core.run at ran
      rw [List.foldlM_cons, entered, Option.bind_eq_bind, Option.bind_some] at ran
      rcases List.prefix_cons_iff.mp one with rfl | ⟨rest, rfl, none⟩
      · obtain rfl := Option.some.inj ran
        rfl
      · obtain rfl := List.prefix_nil.mp none
        obtain rfl := Option.some.inj ran
        cases l with
        | pagemap => cases holding
        | pmm =>
          have clear : core.locked .pmm = true := holding
          rw [free] at clear
          cases clear

variable {core : Core KernelLock} {s s' : Phys} {pml4 phy virt flags : Nat}

/-- `map_page` runs with interrupts off exactly when its walk creates no table. -/
theorem mapPage_interruptsOff_iff (free : ∀ l, core.locked l = false)
    (mapped : mapPage s pml4 phy virt flags = some s') :
    ∃ events, mapPageEvents s pml4 virt = some events ∧ heldAfter events = some [] ∧
      (core.InterruptsOff events ↔ s'.allocated = s.allocated) := by
  obtain ⟨⟨s₁, table⟩, walked, returned⟩ := Option.bind_eq_some_iff.mp mapped
  obtain rfl := Option.some.inj returned
  obtain ⟨n, events, grown⟩ := lastTableEvents_eq walked
  refine ⟨walkEvents n, ?_, heldAfter_walkEvents n, ?_⟩
  · unfold mapPageEvents
    rw [events]
    rfl
  · have same : Phys.allocated { s₁ with
        m := setEntry s₁.m table ((virt >>> 12) &&& 0x1FF) ((phy &&& addressMask) ||| flags) } = s₁.allocated := rfl
    rw [interruptsOff_walkEvents free, same]
    omega

/-- A mapping into empty page tables creates three tables, and the first of them turns interrupts
on while the lock of the pagemap is held. -/
theorem map_page_enables_interrupts : ∃ events, mapPageEvents smallPhys 0x1000 0x400000 = some events ∧
    heldAfter events = some [] ∧
    ¬Core.InterruptsOff { interrupts := true, locked := fun _ => false } events := by
  have created : (mapPage smallPhys 0x1000 0x5000 0x400000 5).map Phys.allocated = some 0x3000 :=
    by decide +kernel
  obtain ⟨s', mapped, total⟩ := Option.map_eq_some_iff.mp created
  have free : ∀ l, (⟨true, fun _ => false⟩ : Core KernelLock).locked l = false := fun _ => rfl
  obtain ⟨events, traced, nested, off⟩ := mapPage_interruptsOff_iff free mapped
  refine ⟨events, traced, nested, ?_⟩
  intro kept
  exact absurd (total.symm.trans (off.mp kept)) (by decide)

/-- A page fault is handled with interrupts off exactly when it allocates neither a table nor a page. -/
theorem handlePageFault_interruptsOff_iff {hhdm : Nat} {pagemap : Pagemap} {unhandled : Bool}
    (free : ∀ l, core.locked l = false) (handled : handlePageFault hhdm s pagemap virt = some (s', unhandled)) :
    ∃ events, handlePageFaultEvents s pagemap virt = some events ∧ heldAfter events = some [] ∧
      (core.InterruptsOff events ↔ s'.allocated = s.allocated) := by
  obtain ⟨⟨s₁, table⟩, walked, filled⟩ := Option.bind_eq_some_iff.mp handled
  obtain ⟨n, events, grown⟩ := lastTableEvents_eq walked
  dsimp only at filled
  have filling : ∃ k, (if entry s₁.m table ((virt >>> 12) &&& 0x1FF) &&& pagePresent = 0 ∧
      (addrToRange pagemap virt).map MappedRange.type = some .anonymous then allocPagesEvents else []) =
        allocations k ∧
      s'.allocated = s₁.allocated + k * 0x1000 := by
    split at filled
    · rename_i absent
      cases found : addrToRange pagemap virt with
      | none =>
        rw [found] at filled
        obtain ⟨rfl, _⟩ := Prod.mk.inj (Option.some.inj filled)
        exact ⟨0, if_neg (by simp), by simp⟩
      | some range =>
        simp only [found] at filled
        cases kind : range.type with
        | anonymous =>
          simp only [kind] at filled
          obtain ⟨⟨s₂, new_page⟩, zeroed, returned⟩ := Option.bind_eq_some_iff.mp filled
          obtain ⟨rfl, _⟩ := Prod.mk.inj (Option.some.inj returned)
          have grown := Phys.allocated_allocZeroed zeroed
          refine ⟨1, if_pos ⟨absent, congrArg some kind⟩, ?_⟩
          rw [Nat.one_mul]
          exact grown
        | direct =>
          simp only [kind] at filled
          obtain ⟨rfl, _⟩ := Prod.mk.inj (Option.some.inj filled)
          exact ⟨0, if_neg (by simp [kind]), by simp [Phys.allocated]⟩
    · rename_i present
      obtain ⟨rfl, _⟩ := Prod.mk.inj (Option.some.inj filled)
      exact ⟨0, if_neg fun both => present both.1, by simp⟩
  obtain ⟨k, page, filled⟩ := filling
  refine ⟨walkEvents (n + k), ?_, heldAfter_walkEvents (n + k), ?_⟩
  · unfold handlePageFaultEvents
    rw [events, Option.bind_eq_bind, Option.bind_some, walked, Option.bind_eq_bind, Option.bind_some]
    dsimp only
    rw [page, ← allocations_add]
    rfl
  · rw [interruptsOff_walkEvents free]
    omega

end FishOS.Mem
