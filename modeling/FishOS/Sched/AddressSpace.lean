import FishOS.Lib.Runs
import FishOS.Sched.UserTask
import FishOS.Userland.Image

/-!
# All address spaces at once

In every run of the kernel, the PML4s of the kernel and of all user tasks are roots of one
labelled family of tables.
-/

namespace FishOS.Sched

open RadixTree FishOS.Mem FishOS.Mem.Pmm FishOS.Fs FishOS.Userland Runs

section Roots

variable {s s₁ s' : Phys} {lab lab₁ lab' : Nat → Option (List (Fin 512))} {K : Set (List (Fin 512))}
  {root pml4 hhdm : Nat}

theorem adoptRoot (step : Step K s lab s₁ lab₁) (handed : Handed s s₁ pml4) (unlabelled : lab₁ pml4 = none)
    (children : ∀ {i t}, next (word s₁.m pml4 i) = some t → lab₁ t = some [i]) :
    Step K s lab s₁ (Function.update lab₁ pml4 (some [])) := by
  have keeps : ∀ {t p}, lab₁ t = some p → Function.update lab₁ pml4 (some []) t = some p := by
    intro t p label
    have other : t ≠ pml4 := by
      intro same
      rw [same, unlabelled] at label
      cases label
    rwa [Function.update_of_ne other]
  have split : ∀ {t p}, Function.update lab₁ pml4 (some []) t = some p → t = pml4 ∧ p = [] ∨ lab₁ t = some p :=
    fun {t p} label => by
      by_cases new : t = pml4
      · rw [new, Function.update_self, Option.some.injEq] at label
        exact Or.inl ⟨new, label.symm⟩
      · exact Or.inr (by rwa [Function.update_of_ne new] at label)
  exact
    { tables :=
        { labels :=
            { short := fun label => by
                rcases split label with ⟨-, rfl⟩ | old
                · decide
                · exact step.tables.labels.short old
              child := fun label deep below => by
                rcases split label with ⟨rfl, rfl⟩ | old
                · exact keeps (children below)
                · exact keeps (step.tables.labels.child old deep below) }
          aligned := fun label => (split label).elim (fun new => new.1 ▸ handed.aligned) step.tables.aligned
          taken := fun label => (split label).elim (fun new => new.1 ▸ handed.taken) step.tables.taken
          cursor := step.tables.cursor
          size := step.tables.size }
      grows := step.grows
      keeps := fun label => keeps (step.keeps label)
      fresh := fun label => (split label).elim (fun new => Or.inr (new.1 ▸ handed.free)) step.fresh
      held := step.held
      only := step.only
      leaf := step.leaf
      data := step.data }

theorem word_mapKernelLoop (m : Mem) {pml4 kernelPml4 : Nat} (aligned : pml4 % 0x1000 = 0)
    (rootAligned : kernelPml4 % 0x1000 = 0) (other : kernelPml4 ≠ pml4) {i n : Nat} (bounded : i + n ≤ 512)
    (j : Fin 512) :
    word (mapKernelLoop pml4 kernelPml4 m i n) pml4 j =
      if i ≤ j.val ∧ j.val < i + n then word m kernelPml4 j else word m pml4 j := by
  induction n generalizing m i with
  | zero => rw [if_neg (by omega)]; rfl
  | succ n ih =>
    have here : i < 512 := by omega
    have value : entry m kernelPml4 i % 2 ^ 64 = word m kernelPml4 ⟨i, here⟩ :=
      Nat.mod_eq_of_lt (word_lt m kernelPml4 ⟨i, here⟩)
    have first : word (setEntry m pml4 i (entry m kernelPml4 i)) pml4 j =
        if j = ⟨i, here⟩ then word m kernelPml4 ⟨i, here⟩ else word m pml4 j := by
      have stored := word_setEntry m (entry m kernelPml4 i) ⟨i, here⟩ j aligned aligned
      rw [value] at stored
      simpa only [true_and] using stored
    have source : word (setEntry m pml4 i (entry m kernelPml4 i)) kernelPml4 j = word m kernelPml4 j := by
      have stored := word_setEntry m (entry m kernelPml4 i) ⟨i, here⟩ j aligned rootAligned
      rwa [if_neg fun place => other place.1] at stored
    unfold mapKernelLoop
    rw [ih _ (by omega), first, source]
    by_cases new : j = ⟨i, here⟩
    · subst new
      rw [if_pos rfl, ite_self, if_pos ⟨Nat.le_refl i, Nat.lt_add_of_pos_right (Nat.zero_lt_succ n)⟩]
    · have apart : j.val ≠ i := fun same => new (Fin.ext same)
      have range : (i + 1 ≤ j.val ∧ j.val < i + 1 + n) ↔ (i ≤ j.val ∧ j.val < i + (n + 1)) := by omega
      simp only [if_neg new, range]

theorem mapKernelLoop_other (m : Mem) (pml4 kernelPml4 : Nat) {i n x : Nat} (bounded : i + n ≤ 512)
    (outside : x < pml4 ∨ pml4 + 0x1000 ≤ x) : mapKernelLoop pml4 kernelPml4 m i n x = m x := by
  induction n generalizing m i with
  | zero => rfl
  | succ n ih =>
    unfold mapKernelLoop
    rw [ih _ (by omega)]
    exact setEntry_other m ⟨i, by omega⟩ outside

/-- A new user pagemap shares the upper half of the kernel's PML4, and has nothing below. -/
structure FreshPagemap (s : Phys) (root : Nat) (pagemap : Pagemap) : Prop where
  upper : ∀ i : Fin 512, 256 ≤ i.val → word s.m pagemap.pml4 i = word s.m root i
  lower : ∀ i : Fin 512, i.val < 256 → word s.m pagemap.pml4 i = 0
  ranges : pagemap.ranges = []

theorem newUserPagemap_step {pagemap : Pagemap} (tables : Tables s lab) (top : lab root = some [])
    (made : newUserPagemap s root = some (s', pagemap)) :
    ∃ lab', Step K s lab s' lab' ∧ lab' pagemap.pml4 = some [] ∧ FreshPagemap s' root pagemap := by
  unfold newUserPagemap at made
  obtain ⟨⟨s₁, pml4⟩, allocated, returned⟩ := Option.bind_eq_some_iff.mp made
  obtain ⟨rfl, rfl⟩ := Prod.mk.inj (Option.some.inj returned)
  obtain ⟨handed, alloc, cleared⟩ := allocZeroed_step (K := K) tables allocated
  have unlabelled := handed.unlabelled tables
  have other : root ≠ pml4 := by
    intro same
    rw [same, unlabelled] at top
    cases top
  have outside : ∀ x, x < pml4 ∨ pml4 + 0x1000 ≤ x → mapKernel s₁.m pml4 root x = s₁.m x :=
    fun x apart => mapKernelLoop_other s₁.m pml4 root (show 256 + 256 ≤ 512 by decide) apart
  have rootWord : ∀ i, word (mapKernel s₁.m pml4 root) root i = word s₁.m root i := fun i =>
    alloc.tables.word_outside handed.aligned unlabelled outside top
  have words : ∀ i : Fin 512, word (mapKernel s₁.m pml4 root) pml4 i =
      if 256 ≤ i.val then word s₁.m root i else 0 := by
    intro i
    have upper : (256 ≤ i.val ∧ i.val < 256 + 256) ↔ 256 ≤ i.val := by omega
    have zero : word s₁.m pml4 i = 0 := by rw [cleared, word_memset_self]
    have copied :=
      word_mapKernelLoop s₁.m handed.aligned (tables.aligned top) other (show 256 + 256 ≤ 512 by decide) i
    simp only [upper, zero] at copied
    exact copied
  have step := alloc.fill handed.aligned handed.free unlabelled outside
  have handed' : Handed s { s₁ with m := mapKernel s₁.m pml4 root } pml4 :=
    ⟨handed.aligned, handed.bounded, handed.free, handed.taken⟩
  refine ⟨_, adoptRoot step handed' unlabelled ?_, Function.update_self _ _ _, ?_, ?_, rfl⟩
  · intro i t below
    dsimp only at below
    rw [words i] at below
    split at below
    · exact alloc.tables.labels.child top (by decide) below
    · cases below
  · intro i upper
    dsimp only
    rw [words i, if_pos upper, rootWord i]
  · intro i lower
    dsimp only
    rw [words i, if_neg (by omega)]

def stackPages (base : Nat) : Nat → List Nat
  | 0 => []
  | n + 1 => base :: stackPages ((base + 0x1000) % 2 ^ 64) n

theorem mapStack_step {base end_virt n : Nat} (tables : Tables s lab) (top : lab pml4 = some [])
    (within : ∀ virt ∈ stackPages base n, path virt ∈ K)
    (mapped : mapStack pml4 s base n = some (s', end_virt)) :
    ∃ lab', Step K s lab s' lab' := by
  induction n generalizing s lab base with
  | zero =>
    obtain ⟨rfl, -⟩ := Prod.mk.inj (Option.some.inj mapped)
    exact ⟨lab, .refl tables⟩
  | succ n ih =>
    unfold mapStack at mapped
    obtain ⟨⟨s₁, frame⟩, allocated, mapped⟩ := Option.bind_eq_some_iff.mp mapped
    obtain ⟨s₂, page, mapped⟩ := Option.bind_eq_some_iff.mp mapped
    obtain ⟨-, alloc, -⟩ := allocZeroed_step (K := K) tables allocated
    obtain ⟨lab₁, map, -⟩ := mapPage_step alloc.tables top page
    obtain ⟨lab', rest⟩ :=
      ih map.tables (map.keeps top) (fun virt member => within virt (.tail _ member)) mapped
    have here : ∀ key ∈ ({path base} : Set (List (Fin 512))), ∃ key' ∈ K, key <+: key' :=
      fun key member => ⟨key, member ▸ within base (.head _), List.prefix_rfl⟩
    exact ⟨lab', (alloc.trans (map.mono here)).trans rest⟩

/-- Filling a pagemap goes to the entries of the program's pages and of the stack's pages. -/
theorem fillUserPagemap_step {pagemap : Pagemap} {file : NodeData} {task : UserTask} (tables : Tables s lab)
    (top : lab pagemap.pml4 = some []) (filled : fillUserPagemap s hhdm pagemap file = some (s', task))
    (image : ∀ x ∈ imagePages file, path x.virt ∈ K)
    (stack : ∀ virt ∈ stackPages task.stack (stackSize / 0x1000), path virt ∈ K) :
    task.pagemap = pagemap ∧ ∃ lab', Step K s lab s' lab' := by
  unfold fillUserPagemap at filled
  obtain ⟨⟨pmm, kernelStack⟩, allocated, filled⟩ := Option.bind_eq_some_iff.mp filled
  obtain ⟨⟨s₁, ip, free⟩, loaded, filled⟩ := Option.bind_eq_some_iff.mp filled
  obtain ⟨⟨s₂, base⟩, mapped, returned⟩ := Option.bind_eq_some_iff.mp filled
  obtain ⟨rfl, rfl⟩ := Prod.mk.inj (Option.some.inj returned)
  obtain ⟨-, alloc⟩ := allocPages_step (K := K) tables (by decide) allocated
  obtain ⟨end_virt, pages, -⟩ := load_eq_some loaded
  obtain ⟨-, lab₁, load⟩ := loadAll_step alloc.tables top image pages
  obtain ⟨lab', stacked⟩ := mapStack_step load.tables (load.keeps top) stack mapped
  exact ⟨rfl, lab', (alloc.trans load).trans stacked⟩

theorem newUserTask_step {file : NodeData} {task : UserTask} (tables : Tables s lab) (top : lab root = some [])
    (made : newUserTask s hhdm root file = some (s', task)) :
    ∃ lab', Step Set.univ s lab s' lab' ∧ lab' task.pagemap.pml4 = some [] := by
  unfold newUserTask at made
  obtain ⟨⟨s₁, pagemap⟩, fresh, filled⟩ := Option.bind_eq_some_iff.mp made
  obtain ⟨lab₁, adopt, label, -⟩ := newUserPagemap_step (K := Set.univ) tables top fresh
  obtain ⟨same, lab', fill⟩ := fillUserPagemap_step (K := Set.univ) adopt.tables label filled
    (fun _ _ => trivial) fun _ _ => trivial
  exact ⟨lab', adopt.trans fill, same ▸ fill.keeps label⟩

theorem userStep_step {task task' : UserTask} {event : UserTask.Event} (tables : Tables s lab)
    (label : lab task.pagemap.pml4 = some []) (stepped : UserTask.step hhdm (s, task) event = some (s', task'))
    (within : ∀ virt, event = .fault virt → path virt ∈ K) :
    task'.pagemap.pml4 = task.pagemap.pml4 ∧ ∃ lab', Step K s lab s' lab' := by
  cases UserTask.step_cases stepped with
  | mmap length prot flags =>
    refine ⟨?_, lab, .refl tables⟩
    dsimp only [UserTask.mmap, syscallMmap]
    split <;> rfl
  | fault virt s' unhandled faulted =>
    obtain ⟨⟨lab', fault⟩, -⟩ := handlePageFault_step tables label faulted
    exact ⟨rfl, lab', fault.mono fun key member => ⟨key, member ▸ within virt rfl, List.prefix_rfl⟩⟩

end Roots

/-- A program with one page of zeros at `virt`. -/
def onePage (virt : Nat) : NodeData := { size := 120, storage := oneSegment 0 virt 0 1 }

namespace Kernel

/-- Zero memory with 64 frames, of which the first two are in use, the second as the kernel's PML4. -/
def small : Kernel where
  phys :=
    { m := fun _ => 0
      pmm := { bitmap := { mBuffer := fun i => if i = 0 then 3 else 0, mSize := 64 }, pageBitmapIndex := 0, totalAllocated := 0 } }
  hhdm := 0xFFFF800000000000
  kernelPagemap := { pml4 := 0x1000, ranges := kernelRanges 0xFFFF800000000000 }
  tasks := []

theorem small_boot : Boot small where
  pml4 :=
    { aligned := by decide
      taken := Or.inl (by decide)
      zero := fun _ => Mem.read64_blank _
      cursor := by decide
      size := by decide }
  ranges := rfl
  tasks := rfl

structure Labelled (k : Kernel) (lab : Nat → Option (List (Fin 512))) : Prop where
  tables : Tables k.phys lab
  root : lab k.kernelPagemap.pml4 = some []
  tasks : ∀ task ∈ k.tasks, lab task.pagemap.pml4 = some []

def Reachable (permits : Kernel → Event → Prop) (k : Kernel) : Prop := ∃ k₀, Boot k₀ ∧ Run step permits k₀ k

variable {k k' : Kernel} {lab : Nat → Option (List (Fin 512))} {event : Event} {permits : Kernel → Event → Prop}

theorem small_reachable : small.Reachable permits := ⟨small, small_boot, .refl _⟩

theorem Boot.labelled (boot : Boot k) : ∃ lab, Labelled k lab :=
  ⟨_, boot.pml4.tables, if_pos rfl, fun task member => by
    rw [boot.tasks] at member
    cases member⟩

theorem Labelled.after {K : Set (List (Fin 512))} {s' : Phys} {lab' : Nat → Option (List (Fin 512))}
    (labelled : Labelled k lab) (step : Step K k.phys lab s' lab') : Labelled { k with phys := s' } lab' :=
  ⟨step.tables, step.keeps labelled.root, fun task member => step.keeps (labelled.tasks task member)⟩

theorem step_labelled (labelled : Labelled k lab) (stepped : k.step event = some k') :
    ∃ lab', Labelled k' lab' := by
  cases step_cases stepped with
  | mapPage phy virt flags s' mapped =>
    obtain ⟨lab', map, -⟩ := mapPage_step labelled.tables labelled.root mapped
    exact ⟨lab', labelled.after map⟩
  | fault virt s' faulted =>
    obtain ⟨⟨lab', fault⟩, -⟩ := handlePageFault_step labelled.tables labelled.root faulted
    exact ⟨lab', labelled.after fault⟩
  | newUserTask file s' task made =>
    obtain ⟨lab', step, label⟩ := newUserTask_step labelled.tables labelled.root made
    refine ⟨lab', step.tables, step.keeps labelled.root, ?_⟩
    intro t member
    rcases List.mem_append.mp member with old | new
    · exact step.keeps (labelled.tasks t old)
    · exact List.mem_singleton.mp new ▸ label
  | user index event task s' task' found moved =>
    have label := labelled.tasks task (List.mem_of_getElem? found)
    obtain ⟨root, lab', step⟩ := userStep_step (K := Set.univ) labelled.tables label moved fun _ _ => trivial
    refine ⟨lab', step.tables, step.keeps labelled.root, ?_⟩
    intro t member
    rcases List.mem_or_eq_of_mem_set member with old | rfl
    · exact step.keeps (labelled.tasks t old)
    · rw [root]
      exact step.keeps label

theorem Reachable.labelled (reached : Reachable permits k) : ∃ lab, Labelled k lab := by
  obtain ⟨k₀, boot, run⟩ := reached
  refine run.invariant (P := fun k => ∃ lab, Labelled k lab) boot.labelled ?_
  rintro _ _ _ ⟨lab, labelled⟩ - stepped
  exact step_labelled labelled stepped

end Kernel

end FishOS.Sched
