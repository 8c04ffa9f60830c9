import FishOS.Lib.Runs
import FishOS.Sched.UserAccess

/-!
# Isolation of user tasks

The kernel with the stores of its user tasks. Every step of it is a step of private memories
that lie side by side.
-/

namespace FishOS.Sched

open RadixTree FishOS.Mem FishOS.Mem.Pmm FishOS.Fs FishOS.Userland Runs

/-- An event of the kernel, or a store that a user task makes. -/
inductive Act where
  | kernel (event : Kernel.Event)
  | store (index virt : Nat) (byte : UInt8)

namespace Act

/-- What the task of this number does in an event. -/
def own (index : Nat) : Act → Option Own
  | .kernel (.user i event) => if i = index then some (.event event) else none
  | .store i virt byte => if i = index then some (.store virt byte) else none
  | _ => none

def file : Act → Option NodeData
  | .kernel (.newUserTask elf_file) => some elf_file
  | _ => none

/-- No call of `map_page` for the kernel passes `PAGE_USER`. -/
def KernelPages : Act → Prop
  | .kernel (.mapPage _ _ flags) => flags &&& pageUser = 0
  | _ => True

end Act

/-- All private memories side by side, which is what the kernel is for. -/
def actAll (memories : List Private) : Act → Option (List Private)
  | .kernel (.mapPage _ _ _) => some memories
  | .kernel (.fault _) => some memories
  | .kernel (.newUserTask elf_file) => some (memories ++ [.load elf_file])
  | .kernel (.user index event) => do
    let p ← memories[index]?
    let p ← p.own (.event event)
    some (memories.set index p)
  | .store index virt byte => do
    let p ← memories[index]?
    let p ← p.own (.store virt byte)
    some (memories.set index p)

namespace Kernel

def act (k : Kernel) : Act → Option Kernel
  | .kernel event => k.step event
  | .store index virt byte => do
    let task ← k.tasks[index]?
    let s ← userStore k.phys task.pagemap.pml4 virt byte
    some { k with phys := s }

def memories (k : Kernel) : List Private := k.tasks.map (taskMemory k.phys.m)

def roots (k : Kernel) : List Nat := k.kernelPagemap.pml4 :: k.tasks.map fun task => task.pagemap.pml4

structure Isolated (k : Kernel) (lab : Nat → Option (List (Fin 512))) : Prop where
  owned : Owned k.phys lab
  tops : ∀ root ∈ k.roots, lab root = some []
  distinct : k.roots.Nodup
  kernelRanges : ∀ range ∈ k.kernelPagemap.ranges, range.pageFlags &&& pageUser = 0
  ranges : ∀ task ∈ k.tasks, MmapRanges task.pagemap
  pages : ∀ task ∈ k.tasks, UserPages k.phys.m task.pagemap.pml4

variable {k k' : Kernel} {lab lab' : Nat → Option (List (Fin 512))} {K : Set (List (Fin 512))} {s' : Phys}
  {index : Nat} {task task' : UserTask}

theorem Boot.isolated (boot : Boot k) : ∃ lab, Isolated k lab := by
  have only : ∀ {t : Nat} {p : List (Fin 512)}, (if t = k.kernelPagemap.pml4 then some [] else none) = some p →
      t = k.kernelPagemap.pml4 ∧ p = [] := by
    intro t p label
    split at label
    · exact ⟨‹_›, (Option.some.inj label).symm⟩
    · cases label
  have tables := boot.pml4.tables
  refine ⟨_, ⟨tables, ⟨?_⟩, ?_, ?_, ?_⟩, ?_, ?_, ?_, ?_, ?_⟩
  · intro t t' p i c label label' short place below below'
    exact (only label).1.trans (only label').1.symm
  · intro t p i c label short below
    rw [(only label).1, boot.pml4.zero, next_zero] at below
    cases below
  · rintro frame ⟨t, p, i, label, length, found⟩
    rw [(only label).2] at length
    cases length
  · intro t p i t' p' i' frame label length label' length' found found'
    rw [(only label).2] at length
    cases length
  · intro root member
    unfold roots at member
    rw [boot.tasks] at member
    exact if_pos (List.mem_singleton.mp member)
  · unfold roots
    rw [boot.tasks]
    simp
  · rw [boot.ranges]
    unfold kernelRanges
    simp only [List.mem_cons, List.not_mem_nil, or_false, forall_eq_or_imp, forall_eq]
    exact ⟨rfl, rfl⟩
  · rw [boot.tasks]
    exact fun task member => nomatch member
  · rw [boot.tasks]
    exact fun task member => nomatch member

theorem mem_roots (member : task ∈ k.tasks) : task.pagemap.pml4 ∈ k.roots :=
  List.mem_cons_of_mem _ (List.mem_map.mpr ⟨task, member, rfl⟩)

theorem Isolated.kernel_ne (isolated : Isolated k lab) (member : task ∈ k.tasks) :
    k.kernelPagemap.pml4 ≠ task.pagemap.pml4 := by
  intro same
  apply (List.nodup_cons.mp isolated.distinct).1
  exact same ▸ List.mem_map.mpr ⟨task, member, rfl⟩

theorem Isolated.task_ne {j : Nat} (isolated : Isolated k lab) (found : k.tasks[index]? = some task)
    (foundOther : k.tasks[j]? = some task') (apart : j ≠ index) : task.pagemap.pml4 ≠ task'.pagemap.pml4 := by
  intro same
  have distinct := (List.nodup_cons.mp isolated.distinct).2
  have here : (k.tasks.map fun task => task.pagemap.pml4)[index]? = some task.pagemap.pml4 := by
    rw [List.getElem?_map, found]
    rfl
  have there : (k.tasks.map fun task => task.pagemap.pml4)[j]? = some task'.pagemap.pml4 := by
    rw [List.getElem?_map, foundOther]
    rfl
  obtain ⟨inside, -⟩ := List.getElem?_eq_some_iff.mp there
  exact apart ((List.getElem?_inj inside distinct).mp (there.trans (same ▸ here.symm)))

theorem map_set_eq {A B : Type} {l : List A} {f g : A → B} {i : Nat} {x : A}
    (same : ∀ j y, j ≠ i → l[j]? = some y → f y = g y) : (l.set i x).map f = (l.map g).set i (f x) := by
  apply List.ext_getElem?
  intro j
  rw [List.map_set, List.getElem?_set, List.getElem?_set, List.length_map, List.length_map, List.getElem?_map,
    List.getElem?_map]
  by_cases here : i = j
  · rw [if_pos here, if_pos here]
  · rw [if_neg here, if_neg here]
    cases found : l[j]? with
    | none => rfl
    | some y => exact congrArg some (same j y (Ne.symm here) found)

theorem taskMemory_eq {m m' : Mem} (same : view m' task.pagemap.pml4 = view m task.pagemap.pml4) :
    taskMemory m' task = taskMemory m task := by
  unfold taskMemory
  rw [same]

/-- A step on the tables below one root leaves all other tasks alone. -/
theorem Isolated.others {root : Nat} (isolated : Isolated k lab) (top : lab root = some [])
    (step : OwnStep K root k.phys lab s' lab') (member : task ∈ k.tasks) (apart : root ≠ task.pagemap.pml4) :
    view s'.m task.pagemap.pml4 = view k.phys.m task.pagemap.pml4 ∧ UserPages s'.m task.pagemap.pml4 := by
  have other := isolated.tops _ (mem_roots member)
  exact ⟨step.view_other isolated.owned top other apart, (isolated.pages task member).of_same fun v lower =>
    step.leaf_other isolated.owned top other apart lower⟩

theorem Isolated.kernel_step (isolated : Isolated k lab) (step : OwnStep K k.kernelPagemap.pml4 k.phys lab s' lab') :
    Isolated { k with phys := s' } lab' ∧ Kernel.memories { k with phys := s' } = k.memories := by
  have top := isolated.tops _ (List.mem_cons_self : k.kernelPagemap.pml4 ∈ k.roots)
  have others : ∀ task ∈ k.tasks, view s'.m task.pagemap.pml4 = view k.phys.m task.pagemap.pml4 ∧
      UserPages s'.m task.pagemap.pml4 := fun task member =>
    isolated.others top step member (isolated.kernel_ne member)
  refine ⟨⟨step.owned, fun root member => step.keeps (isolated.tops root member), isolated.distinct,
    isolated.kernelRanges, isolated.ranges, fun task member => (others task member).2⟩, ?_⟩
  exact List.map_congr_left fun task member => taskMemory_eq (others task member).1

/-- What is left to show of a step of one task. -/
theorem Isolated.task_step (isolated : Isolated k lab) (found : k.tasks[index]? = some task) (task' : UserTask)
    (root : task'.pagemap.pml4 = task.pagemap.pml4) (owned : Owned s' lab')
    (keeps : ∀ {t p}, lab t = some p → lab' t = some p)
    (others : ∀ j other, j ≠ index → k.tasks[j]? = some other →
      view s'.m other.pagemap.pml4 = view k.phys.m other.pagemap.pml4 ∧ UserPages s'.m other.pagemap.pml4)
    (ranges : MmapRanges task'.pagemap) (pages : UserPages s'.m task'.pagemap.pml4) :
    Isolated { k with phys := s', tasks := k.tasks.set index task' } lab' ∧
      Kernel.memories { k with phys := s', tasks := k.tasks.set index task' } =
        k.memories.set index (taskMemory s'.m task') := by
  have roots : Kernel.roots { k with phys := s', tasks := k.tasks.set index task' } = k.roots := by
    unfold Kernel.roots
    dsimp only
    rw [List.map_set, root]
    obtain ⟨inside, here⟩ := List.getElem?_eq_some_iff.mp found
    have bound : index < (k.tasks.map fun task => task.pagemap.pml4).length := by simpa using inside
    have value : (k.tasks.map fun task => task.pagemap.pml4)[index] = task.pagemap.pml4 := by
      rw [List.getElem_map, here]
    rw [← value, List.set_getElem_self]
  have each : ∀ j other, (k.tasks.set index task')[j]? = some other →
      (j = index ∧ other = task') ∨ (j ≠ index ∧ k.tasks[j]? = some other) := by
    intro j other there
    by_cases here : j = index
    · subst here
      rw [List.getElem?_set_self (List.getElem?_eq_some_iff.mp found).1] at there
      exact Or.inl ⟨rfl, (Option.some.inj there).symm⟩
    · rw [List.getElem?_set_ne (Ne.symm here)] at there
      exact Or.inr ⟨here, there⟩
  refine ⟨⟨owned, ?_, ?_, isolated.kernelRanges, ?_, ?_⟩, ?_⟩
  · rw [roots]
    exact fun root member => keeps (isolated.tops root member)
  · rw [roots]
    exact isolated.distinct
  · intro other member
    obtain ⟨j, there⟩ := List.getElem?_of_mem member
    rcases each j other there with ⟨-, rfl⟩ | ⟨-, old⟩
    · exact ranges
    · exact isolated.ranges other (List.mem_of_getElem? old)
  · intro other member
    obtain ⟨j, there⟩ := List.getElem?_of_mem member
    rcases each j other there with ⟨-, rfl⟩ | ⟨away, old⟩
    · exact pages
    · exact (others j other away old).2
  · unfold Kernel.memories
    exact map_set_eq fun j other away there => taskMemory_eq (others j other away there).1

theorem MmapRanges.mmap {length prot flags : Nat} (ranges : MmapRanges task.pagemap) :
    MmapRanges (task.mmap length prot flags).pagemap := by
  unfold UserTask.mmap syscallMmap
  by_cases refused : flags &&& mapPrivate = 0 ∨ flags &&& mapShared ≠ 0 ∨ flags &&& mapAnonymous = 0
  · rw [if_pos refused]
    exact ranges
  · rw [if_neg refused]
    intro range member
    rcases List.mem_cons.mp member with rfl | old
    · exact ⟨rfl, prot, rfl⟩
    · exact ranges range old

theorem mmap_pml4 (task : UserTask) (length prot flags : Nat) :
    (task.mmap length prot flags).pagemap.pml4 = task.pagemap.pml4 := by
  dsimp only [UserTask.mmap, syscallMmap]
  split <;> rfl

theorem taskMemory_mmap (m : Mem) (task : UserTask) (length prot flags : Nat) :
    taskMemory m (task.mmap length prot flags) = (taskMemory m task).mmap length prot flags := by
  have pages := mmap_pml4 task length prot flags
  unfold taskMemory Private.mmap
  rw [pages]
  unfold UserTask.mmap syscallMmap
  by_cases refused : flags &&& mapPrivate = 0 ∨ flags &&& mapShared ≠ 0 ∨ flags &&& mapAnonymous = 0
  · rw [if_pos refused, if_pos refused]
  · rw [if_neg refused, if_neg refused]

theorem Isolated.user_step {event : UserTask.Event} (isolated : Isolated k lab) (found : k.tasks[index]? = some task)
    (moved : UserTask.step k.hhdm (k.phys, task) event = some (s', task')) :
    (∃ lab', Isolated { k with phys := s', tasks := k.tasks.set index task' } lab') ∧
      actAll k.memories (.kernel (.user index event)) =
        some (Kernel.memories { k with phys := s', tasks := k.tasks.set index task' }) := by
  have member := List.mem_of_getElem? found
  have top := isolated.tops _ (mem_roots member)
  have memory : k.memories[index]? = some (taskMemory k.phys.m task) := by
    unfold Kernel.memories
    rw [List.getElem?_map, found]
    rfl
  unfold actAll
  dsimp only
  rw [memory, Option.bind_eq_bind, Option.bind_some]
  cases UserTask.step_cases moved with
  | mmap length prot flags =>
    have root := mmap_pml4 task length prot flags
    obtain ⟨after, same⟩ := isolated.task_step found (task.mmap length prot flags) root isolated.owned id
      (fun j other _ there => ⟨rfl, isolated.pages other (List.mem_of_getElem? there)⟩)
      (MmapRanges.mmap (isolated.ranges task member)) (root ▸ isolated.pages task member)
    refine ⟨⟨lab, after⟩, ?_⟩
    rw [same, taskMemory_mmap]
    rfl
  | fault virt s' unhandled faulted =>
    obtain ⟨lab', step⟩ := handlePageFault_own isolated.owned top (MmapRanges.harmless (isolated.ranges task member)) faulted
    obtain ⟨own, user⟩ := handlePageFault_view isolated.owned top (isolated.ranges task member)
      (isolated.pages task member) faulted
    obtain ⟨after, same⟩ := isolated.task_step found task rfl step.owned step.keeps
      (fun j other away there => isolated.others top step (List.mem_of_getElem? there)
        (isolated.task_ne found there away)) (isolated.ranges task member) user
    refine ⟨⟨lab', after⟩, ?_⟩
    rw [same, own]
    rfl

theorem taskMemory_store {m m' : Mem} {virt : Nat} {byte : UInt8}
    (written : ∀ n, view m' task.pagemap.pml4 n =
      if n = page virt then (view m task.pagemap.pml4 n).map fun old => old.set (virt % 0x1000) byte
      else view m task.pagemap.pml4 n) :
    (taskMemory m task).store virt byte = taskMemory m' task := by
  unfold Private.store
  cases here : (taskMemory m task).pages (page virt) with
  | none =>
    have same : view m' task.pagemap.pml4 = view m task.pagemap.pml4 := by
      funext n
      rw [written n]
      split
      · rename_i place
        rw [place, show view m task.pagemap.pml4 (page virt) = none from here]
        rfl
      · rfl
    exact (taskMemory_eq same).symm
  | some old =>
    have same : view m' task.pagemap.pml4 =
        (view m task.pagemap.pml4).put virt (old.set (virt % 0x1000) byte) := by
      funext n
      unfold Pages.put
      have lower : page virt < 2 ^ 35 := by
        by_contra upper
        rw [show (taskMemory m task).pages (page virt) = none from view_upper upper m] at here
        cases here
      rw [written n]
      by_cases place : n = page virt
      · rw [place, if_pos rfl, if_pos ⟨rfl, lower⟩, show view m task.pagemap.pml4 (page virt) = some old from here]
        rfl
      · rw [if_neg place, if_neg fun both => place both.1]
    unfold taskMemory
    rw [same]

theorem Isolated.store_step {virt : Nat} {byte : UInt8} (isolated : Isolated k lab) (found : k.tasks[index]? = some task)
    (stored : userStore k.phys task.pagemap.pml4 virt byte = some s') :
    Isolated { k with phys := s' } lab ∧
      actAll k.memories (.store index virt byte) = some (Kernel.memories { k with phys := s' }) := by
  have member := List.mem_of_getElem? found
  have owned := isolated.owned
  have top := isolated.tops _ (mem_roots member)
  have memory : k.memories[index]? = some (taskMemory k.phys.m task) := by
    unfold Kernel.memories
    rw [List.getElem?_map, found]
    rfl
  obtain ⟨frame, user, same⟩ := owned.userStore_cases top stored
  have written : ∀ other ∈ k.roots, ∀ n, view s'.m other n =
      if other = task.pagemap.pml4 ∧ n = page virt then
        (view k.phys.m other n).map fun old => old.set (virt % 0x1000) byte
      else view k.phys.m other n := by
    intro other root n
    rw [same]
    exact write8_view owned top user byte (isolated.tops other root)
  have leaves : ∀ other ∈ k.roots, ∀ v, leaf s'.m other (path v) = leaf k.phys.m other (path v) := by
    intro other root v
    rw [same]
    exact write8_leaf owned top user byte (isolated.tops other root)
  have whole : k.tasks.set index task = k.tasks := by
    obtain ⟨inside, here⟩ := List.getElem?_eq_some_iff.mp found
    rw [← here, List.set_getElem_self]
  have after : Owned s' lab := same ▸ owned.congr fun label => write8_word owned top user byte label
  have step := isolated.task_step found task rfl after id ?_ (isolated.ranges task member)
    ((isolated.pages task member).of_same fun v _ => leaves _ (mem_roots member) v)
  · rw [whole] at step
    refine ⟨step.1, ?_⟩
    rw [step.2]
    unfold actAll
    dsimp only
    rw [memory, Option.bind_eq_bind, Option.bind_some]
    unfold Private.own
    have allowed : ¬(page virt < 2 ^ 35 ∧ (taskMemory k.phys.m task).writable virt = false) := by
      rintro ⟨lower, refused⟩
      have through := owned.userStore_isSome top lower byte
      rw [stored, refused] at through
      cases through
    dsimp only
    rw [if_neg allowed, Option.bind_some]
    rw [taskMemory_store fun n => ?_]
    rw [written _ (mem_roots member) n]
    simp only [true_and]
  · intro j other away there
    have root := mem_roots (List.mem_of_getElem? there)
    have apart := isolated.task_ne found there away
    refine ⟨?_, (isolated.pages other (List.mem_of_getElem? there)).of_same fun v _ => leaves _ root v⟩
    funext n
    rw [written _ root n, if_neg fun both => apart both.1.symm]

theorem Isolated.newUserTask_step {file : NodeData} (isolated : Isolated k lab)
    (made : Sched.newUserTask k.phys k.hhdm k.kernelPagemap.pml4 file = some (s', task)) :
    (∃ lab', Isolated { k with phys := s', tasks := k.tasks ++ [task] } lab') ∧
      Kernel.memories { k with phys := s', tasks := k.tasks ++ [task] } = k.memories ++ [.load file] := by
  have owned := isolated.owned
  have top := isolated.tops _ (List.mem_cons_self : k.kernelPagemap.pml4 ∈ k.roots)
  unfold Sched.newUserTask at made
  obtain ⟨⟨s₁, pagemap⟩, fresh, filled⟩ := Option.bind_eq_some_iff.mp made
  obtain ⟨lab₁, adopt, owned₁, top₁, unlabelled, ranges, empty⟩ := newUserPagemap_own owned top fresh
  obtain ⟨lab', fill, rfl, memory, pages⟩ := fillUserPagemap_own owned₁ top₁ ranges empty filled
  have apart : ∀ root ∈ k.roots, task.pagemap.pml4 ≠ root := by
    rintro root member rfl
    rw [isolated.tops _ member] at unlabelled
    cases unlabelled
  have others : ∀ other ∈ k.tasks, view s'.m other.pagemap.pml4 = view k.phys.m other.pagemap.pml4 ∧
      UserPages s'.m other.pagemap.pml4 := by
    intro other member
    have root := mem_roots member
    have label := isolated.tops _ root
    have kept : ∀ v, leaf s₁.m other.pagemap.pml4 (path v) = leaf k.phys.m other.pagemap.pml4 (path v) := fun v =>
      adopt.leaf label rfl fun _ absurd => absurd.elim
    have different := apart _ root
    refine ⟨?_, ?_⟩
    · rw [fill.view_other owned₁ top₁ (adopt.keeps label) different, owned.view_step label adopt fun n => kept _]
    · exact ((isolated.pages other member).of_same fun v _ => kept v).of_same fun v lower =>
        fill.leaf_other owned₁ top₁ (adopt.keeps label) different lower
  have roots : Kernel.roots { k with phys := s', tasks := k.tasks ++ [task] } = k.roots ++ [task.pagemap.pml4] := by
    unfold Kernel.roots
    rw [List.map_append, List.map_singleton, List.cons_append]
  refine ⟨⟨lab', fill.owned, ?_, ?_, isolated.kernelRanges, ?_, ?_⟩, ?_⟩
  · rw [roots]
    intro root member
    rcases List.mem_append.mp member with old | new
    · exact fill.keeps (adopt.keeps (isolated.tops root old))
    · exact List.mem_singleton.mp new ▸ fill.keeps top₁
  · rw [roots, List.nodup_append]
    refine ⟨isolated.distinct, by simp, ?_⟩
    intro root old other new
    rw [List.mem_singleton.mp new]
    exact (apart root old).symm
  · intro other member
    rcases List.mem_append.mp member with old | new
    · exact isolated.ranges other old
    · rw [List.mem_singleton.mp new]
      unfold MmapRanges
      rw [ranges]
      exact fun range member => nomatch member
  · intro other member
    rcases List.mem_append.mp member with old | new
    · exact (others other old).2
    · rw [List.mem_singleton.mp new]
      exact pages
  · unfold Kernel.memories
    have same : k.tasks.map (taskMemory s'.m) = k.tasks.map (taskMemory k.phys.m) :=
      List.map_congr_left fun other member => taskMemory_eq (others other member).1
    dsimp only
    rw [List.map_append, List.map_singleton, memory, same]

/-- Every step keeps the tasks apart, and is a step of the private memories. -/
theorem Isolated.act {k' : Kernel} {a : Act} (isolated : Isolated k lab) (allowed : a.KernelPages)
    (stepped : k.act a = some k') : (∃ lab', Isolated k' lab') ∧ actAll k.memories a = some k'.memories := by
  cases a with
  | store index virt byte =>
    obtain ⟨task, found, stepped⟩ := Option.bind_eq_some_iff.mp stepped
    obtain ⟨s', stored, returned⟩ := Option.bind_eq_some_iff.mp stepped
    obtain rfl := Option.some.inj returned
    obtain ⟨after, same⟩ := isolated.store_step found stored
    exact ⟨⟨lab, after⟩, same⟩
  | kernel event =>
    have top := isolated.tops _ (List.mem_cons_self : k.kernelPagemap.pml4 ∈ k.roots)
    cases step_cases stepped with
    | mapPage phy virt flags s' mapped =>
      obtain ⟨lab', step, -⟩ := mapPage_own isolated.owned top (.of_none (userFrame_kernel phy allowed)) mapped
      obtain ⟨after, same⟩ := isolated.kernel_step step
      exact ⟨⟨lab', after⟩, congrArg some same.symm⟩
    | fault virt s' faulted =>
      obtain ⟨lab', step⟩ := handlePageFault_own isolated.owned top
        (fun range member => Or.inl (isolated.kernelRanges range member)) faulted
      obtain ⟨after, same⟩ := isolated.kernel_step step
      exact ⟨⟨lab', after⟩, congrArg some same.symm⟩
    | newUserTask file s' task made =>
      obtain ⟨after, same⟩ := isolated.newUserTask_step made
      exact ⟨after, congrArg some same.symm⟩
    | user index event task s' task' found moved => exact isolated.user_step found moved

/-- The kernel refines the private memories side by side. -/
theorem memories_of_run {k₀ : Kernel} (boot : Boot k₀) {acts : List Act} (allowed : ∀ a ∈ acts, a.KernelPages)
    (ran : acts.foldlM Kernel.act k₀ = some k) :
    (∃ lab, Isolated k lab) ∧ acts.foldlM actAll [] = some k.memories := by
  induction acts using List.reverseRecOn generalizing k with
  | nil =>
    obtain rfl := Option.some.inj ran
    refine ⟨boot.isolated, ?_⟩
    unfold Kernel.memories
    rw [boot.tasks]
    rfl
  | append_singleton acts a ih =>
    rw [foldlM_snoc] at ran ⊢
    obtain ⟨k₁, before, stepped⟩ := Option.bind_eq_some_iff.mp ran
    obtain ⟨⟨lab, isolated⟩, replayed⟩ := ih (fun b member => allowed b (List.mem_append_left _ member)) before
    obtain ⟨after, same⟩ := isolated.act (allowed a (List.mem_append_right _ (List.mem_singleton_self a))) stepped
    exact ⟨after, by rw [replayed, Option.bind_some, same]⟩

end Kernel

end FishOS.Sched
