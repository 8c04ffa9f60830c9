import FishOS.Mem.RejectedFault
import FishOS.Sched.Isolation

/-!
# Noninterference

In every run, what a task finds in its lower half is the replay of its own program, `mmap`
calls, faults and stores. Above the lower half that is not so.
-/

namespace FishOS.Sched

open RadixTree FishOS.Mem FishOS.Mem.Pmm FishOS.Fs FishOS.Userland Runs

/-- What an event does to the private memories: nothing, a new one, or a step of one of them. -/
inductive ActedAll (memories : List Private) (a : Act) : List Private → Prop where
  | kernel (file : a.file = none) (own : ∀ i, a.own i = none) : ActedAll memories a memories
  | spawned (elf_file : NodeData) (file : a.file = some elf_file) (own : ∀ i, a.own i = none) :
      ActedAll memories a (memories ++ [.load elf_file])
  | acted (index : Nat) (event : Own) (p p' : Private) (file : a.file = none) (own : a.own index = some event)
      (others : ∀ i, i ≠ index → a.own i = none) (found : memories[index]? = some p) (moved : p.own event = some p') :
      ActedAll memories a (memories.set index p')

theorem actAll_cases {memories memories' : List Private} {a : Act} (acted : actAll memories a = some memories') :
    ActedAll memories a memories' := by
  cases a with
  | store index virt byte =>
    obtain ⟨p, found, acted⟩ := Option.bind_eq_some_iff.mp acted
    obtain ⟨p', moved, returned⟩ := Option.bind_eq_some_iff.mp acted
    obtain rfl := Option.some.inj returned
    exact .acted index _ p p' rfl (if_pos rfl) (fun i away => if_neg (Ne.symm away)) found moved
  | kernel event =>
    cases event with
    | mapPage phy virt flags =>
      obtain rfl := Option.some.inj acted
      exact .kernel rfl fun i => rfl
    | fault virt =>
      obtain rfl := Option.some.inj acted
      exact .kernel rfl fun i => rfl
    | newUserTask file =>
      obtain rfl := Option.some.inj acted
      exact .spawned file rfl fun i => rfl
    | user index event =>
      obtain ⟨p, found, acted⟩ := Option.bind_eq_some_iff.mp acted
      obtain ⟨p', moved, returned⟩ := Option.bind_eq_some_iff.mp acted
      obtain rfl := Option.some.inj returned
      exact .acted index _ p p' rfl (if_pos rfl) (fun i away => if_neg (Ne.symm away)) found moved

/-- The file and the events that are a task's own. -/
def files (acts : List Act) : List NodeData := acts.filterMap Act.file

def ownEvents (index : Nat) (acts : List Act) : List Own := acts.filterMap (Act.own index)

structure Replayed (acts : List Act) (memories : List Private) : Prop where
  count : (files acts).length = memories.length
  later : ∀ index, memories.length ≤ index → ownEvents index acts = []
  replay : ∀ index p, memories[index]? = some p →
    ∃ file, (files acts)[index]? = some file ∧ Private.replay file (ownEvents index acts) = some p

theorem files_snoc (acts : List Act) (a : Act) : files (acts ++ [a]) = files acts ++ a.file.toList := by
  unfold files
  rw [List.filterMap_append]
  cases h : a.file <;> simp [h]

theorem ownEvents_snoc (index : Nat) (acts : List Act) (a : Act) :
    ownEvents index (acts ++ [a]) = ownEvents index acts ++ (a.own index).toList := by
  unfold ownEvents
  rw [List.filterMap_append]
  cases h : a.own index <;> simp [h]

theorem Replayed.snoc {acts : List Act} {a : Act} {memories memories' : List Private}
    (replayed : Replayed acts memories) (acted : ActedAll memories a memories') :
    Replayed (acts ++ [a]) memories' := by
  cases acted with
  | kernel file own =>
    have events : ∀ index, ownEvents index (acts ++ [a]) = ownEvents index acts := by
      intro index
      rw [ownEvents_snoc, own, Option.toList_none, List.append_nil]
    have same : files (acts ++ [a]) = files acts := by rw [files_snoc, file, Option.toList_none, List.append_nil]
    refine ⟨same ▸ replayed.count, ?_, ?_⟩
    · intro index beyond
      rw [events, replayed.later index beyond]
    · intro index p found
      rw [same, events]
      exact replayed.replay index p found
  | spawned elf_file file own =>
    have events : ∀ index, ownEvents index (acts ++ [a]) = ownEvents index acts := by
      intro index
      rw [ownEvents_snoc, own, Option.toList_none, List.append_nil]
    have same : files (acts ++ [a]) = files acts ++ [elf_file] := by rw [files_snoc, file]; rfl
    have count := replayed.count
    refine ⟨by rw [same, List.length_append, List.length_append, count]; rfl, ?_, ?_⟩
    · intro index beyond
      rw [List.length_append] at beyond
      rw [events, replayed.later index (by omega)]
    · intro index p found
      rw [same, events]
      by_cases old : index < memories.length
      · rw [List.getElem?_append_left old] at found
        rw [List.getElem?_append_left (by omega)]
        exact replayed.replay index p found
      · -- the new task has done nothing yet
        rw [List.getElem?_append_right (by omega)] at found
        rw [List.getElem?_append_right (by omega), count, replayed.later index (by omega)]
        obtain ⟨inside, here⟩ := List.getElem?_eq_some_iff.mp found
        have zero : index - memories.length = 0 := by simpa using inside
        rw [zero] at found ⊢
        exact ⟨elf_file, rfl, found⟩
  | acted i event p₀ p' file own others found moved =>
    have same : files (acts ++ [a]) = files acts := by rw [files_snoc, file, Option.toList_none, List.append_nil]
    have inside := (List.getElem?_eq_some_iff.mp found).1
    refine ⟨by rw [same, replayed.count, List.length_set], ?_, ?_⟩
    · intro index beyond
      rw [List.length_set] at beyond
      rw [ownEvents_snoc, others index (by omega), replayed.later index beyond]
      rfl
    · intro index p there
      rw [same, ownEvents_snoc]
      by_cases here : index = i
      · subst here
        rw [List.getElem?_set_self inside] at there
        obtain rfl := Option.some.inj there
        obtain ⟨f, made, before⟩ := replayed.replay index p₀ found
        unfold Private.replay at before ⊢
        refine ⟨f, made, ?_⟩
        rw [own, Option.toList_some, foldlM_snoc, before]
        exact moved
      · rw [List.getElem?_set_ne (Ne.symm here)] at there
        rw [others index here, Option.toList_none, List.append_nil]
        exact replayed.replay index p there

theorem replayed_of_run {acts : List Act} {memories : List Private} (ran : acts.foldlM actAll [] = some memories) :
    Replayed acts memories := by
  induction acts using List.reverseRecOn generalizing memories with
  | nil =>
    obtain rfl := Option.some.inj ran
    exact ⟨rfl, fun _ _ => rfl, fun index p found => nomatch found⟩
  | append_singleton acts a ih =>
    rw [foldlM_snoc] at ran
    obtain ⟨before, earlier, acted⟩ := Option.bind_eq_some_iff.mp ran
    exact (ih earlier).snoc (actAll_cases acted)

section Runs

variable {k₀ k₀' k k' : Kernel} {acts acts' : List Act} {index index' : Nat} {task other : UserTask}

theorem memory_of_run (boot : Kernel.Boot k₀) (allowed : ∀ a ∈ acts, a.KernelPages)
    (ran : acts.foldlM Kernel.act k₀ = some k) (found : k.tasks[index]? = some task) :
    ∃ file, (files acts)[index]? = some file ∧
      Private.replay file (ownEvents index acts) = some (taskMemory k.phys.m task) := by
  obtain ⟨-, replayed⟩ := Kernel.memories_of_run boot allowed ran
  apply (replayed_of_run replayed).replay index
  unfold Kernel.memories
  rw [List.getElem?_map, found]
  rfl

/-- What user code can observe of an address. -/
theorem observed_of_run (boot : Kernel.Boot k₀) (allowed : ∀ a ∈ acts, a.KernelPages)
    (ran : acts.foldlM Kernel.act k₀ = some k) (found : k.tasks[index]? = some task) {virt : Nat}
    (lower : page virt < 2 ^ 35) :
    userLoad k.phys.m task.pagemap.pml4 virt = (taskMemory k.phys.m task).read virt ∧
      ∀ byte, (userStore k.phys task.pagemap.pml4 virt byte).isSome = (taskMemory k.phys.m task).writable virt := by
  obtain ⟨⟨lab, isolated⟩, -⟩ := Kernel.memories_of_run boot allowed ran
  have top := isolated.tops _ (Kernel.mem_roots (List.mem_of_getElem? found))
  exact ⟨isolated.owned.userLoad_eq top lower, isolated.owned.userStore_isSome top lower⟩

/-- In every run, a task's loads and stores in the lower half find what its own file and its
own events make. -/
theorem memory_is_replay (boot : Kernel.Boot k₀) (allowed : ∀ a ∈ acts, a.KernelPages)
    (ran : acts.foldlM Kernel.act k₀ = some k) (found : k.tasks[index]? = some task) :
    ∃ file p, (files acts)[index]? = some file ∧ Private.replay file (ownEvents index acts) = some p ∧
      ∀ virt, page virt < 2 ^ 35 → userLoad k.phys.m task.pagemap.pml4 virt = p.read virt ∧
        ∀ byte, (userStore k.phys task.pagemap.pml4 virt byte).isSome = p.writable virt := by
  obtain ⟨file, made, done⟩ := memory_of_run boot allowed ran found
  exact ⟨file, _, made, done, fun virt lower => observed_of_run boot allowed ran found lower⟩

/-- Zero memory like `small`, with 128 frames. -/
def Kernel.wide : Kernel :=
  { Kernel.small with
    phys :=
      { m := fun _ => 0
        pmm :=
          { bitmap := { mBuffer := fun i => if i = 0 then 3 else 0, mSize := 128 }
            pageBitmapIndex := 0
            totalAllocated := 0 } } }

theorem Kernel.wide_boot : Kernel.Boot Kernel.wide where
  pml4 :=
    { aligned := by decide
      taken := Or.inl (by decide)
      zero := fun _ => Mem.read64_blank _
      cursor := by decide
      size := by decide }
  ranges := rfl
  tasks := rfl

/-- A program of one writable page is started twice. The second task stores a byte. -/
def twoTasks : List Act :=
  [.kernel (.newUserTask (onePage 0x400000)), .kernel (.newUserTask (onePage 0x400000)), .store 1 0x400010 7]

theorem twoTasks_kernelPages : ∀ a ∈ twoTasks, a.KernelPages := by
  unfold twoTasks
  simp [Act.KernelPages]

theorem twoTasks_run : ∃ k first second, twoTasks.foldlM Kernel.act Kernel.wide = some k ∧
    k.tasks[0]? = some first ∧ k.tasks[1]? = some second := by
  have evaluated : (twoTasks.foldlM Kernel.act Kernel.wide).map (fun k => k.tasks.length) = some 2 := by
    decide +kernel
  obtain ⟨k, ran, length⟩ := Option.map_eq_some_iff.mp evaluated
  exact ⟨k, _, _, ran, List.getElem?_eq_getElem (by omega), List.getElem?_eq_getElem (by omega)⟩

theorem memory_is_replay_twoTasks : ∃ k first second, twoTasks.foldlM Kernel.act Kernel.wide = some k ∧
    k.tasks[0]? = some first ∧ k.tasks[1]? = some second ∧
    userLoad k.phys.m first.pagemap.pml4 0x400010 = some 0 ∧
    userLoad k.phys.m second.pagemap.pml4 0x400010 = some 7 := by
  obtain ⟨k, first, second, ran, one, two⟩ := twoTasks_run
  obtain ⟨file, p, made, done, finds⟩ := memory_is_replay Kernel.wide_boot twoTasks_kernelPages ran one
  obtain ⟨file', p', made', done', finds'⟩ := memory_is_replay Kernel.wide_boot twoTasks_kernelPages ran two
  obtain rfl : onePage 0x400000 = file := Option.some.inj made
  obtain rfl : onePage 0x400000 = file' := Option.some.inj made'
  have lower : page 0x400010 < 2 ^ 35 := by decide
  have zero : (Private.replay (onePage 0x400000) []).bind (·.read 0x400010) = some 0 := by decide +kernel
  have seven : (Private.replay (onePage 0x400000) [.store 0x400010 7]).bind (·.read 0x400010) = some 7 := by
    decide +kernel
  rw [show Private.replay (onePage 0x400000) [] = some p from done] at zero
  rw [show Private.replay (onePage 0x400000) [.store 0x400010 7] = some p' from done'] at seven
  exact ⟨k, first, second, ran, one, two, (finds 0x400010 lower).1.trans zero, (finds' 0x400010 lower).1.trans seven⟩

/-- Two tasks of two kernels that were made from the same file and did the same see the same,
whatever else happened. -/
theorem tasks_do_not_interfere (boot : Kernel.Boot k₀) (boot' : Kernel.Boot k₀')
    (allowed : ∀ a ∈ acts, a.KernelPages) (allowed' : ∀ a ∈ acts', a.KernelPages)
    (ran : acts.foldlM Kernel.act k₀ = some k) (ran' : acts'.foldlM Kernel.act k₀' = some k')
    (found : k.tasks[index]? = some task) (found' : k'.tasks[index']? = some other)
    (file : (files acts)[index]? = (files acts')[index']?) (own : ownEvents index acts = ownEvents index' acts')
    {virt : Nat} (lower : page virt < 2 ^ 35) :
    userLoad k.phys.m task.pagemap.pml4 virt = userLoad k'.phys.m other.pagemap.pml4 virt ∧
      ∀ byte, (userStore k.phys task.pagemap.pml4 virt byte).isSome =
        (userStore k'.phys other.pagemap.pml4 virt byte).isSome := by
  obtain ⟨f, made, done⟩ := memory_of_run boot allowed ran found
  obtain ⟨f', made', done'⟩ := memory_of_run boot' allowed' ran' found'
  obtain rfl : f = f' := Option.some.inj (made.symm.trans (file.trans made'))
  have same : taskMemory k.phys.m task = taskMemory k'.phys.m other :=
    Option.some.inj (done.symm.trans (own ▸ done'))
  obtain ⟨load, store⟩ := observed_of_run boot allowed ran found lower
  obtain ⟨load', store'⟩ := observed_of_run boot' allowed' ran' found' lower
  refine ⟨by rw [load, load', same], ?_⟩
  intro byte
  rw [store, store', same]

theorem tasks_do_not_interfere_twoTasks : ∃ k first, twoTasks.foldlM Kernel.act Kernel.wide = some k ∧
    k.tasks[0]? = some first ∧ ∃ k' only, [Act.kernel (.newUserTask (onePage 0x400000))].foldlM Kernel.act Kernel.wide =
      some k' ∧ k'.tasks[0]? = some only ∧
    userLoad k.phys.m first.pagemap.pml4 0x400010 = userLoad k'.phys.m only.pagemap.pml4 0x400010 := by
  obtain ⟨k, first, -, ran, one, -⟩ := twoTasks_run
  have evaluated : ([Act.kernel (.newUserTask (onePage 0x400000))].foldlM Kernel.act Kernel.wide).map
      (fun k => k.tasks.length) = some 1 := by
    decide +kernel
  obtain ⟨k', ran', length⟩ := Option.map_eq_some_iff.mp evaluated
  have only : k'.tasks[0]? = some _ := List.getElem?_eq_getElem (by omega)
  have allowed : ∀ a ∈ [Act.kernel (.newUserTask (onePage 0x400000))], a.KernelPages := by simp [Act.KernelPages]
  exact ⟨k, first, ran, one, k', _, ran', only, (tasks_do_not_interfere Kernel.wide_boot Kernel.wide_boot
    twoTasks_kernelPages allowed ran ran' one only rfl rfl (by decide)).1⟩

/-- A frame that a task reaches below the kernel half is in use, holds no table of any pagemap,
and no task reaches it through another page. -/
theorem user_frames_private (boot : Kernel.Boot k₀) (allowed : ∀ a ∈ acts, a.KernelPages)
    (ran : acts.foldlM Kernel.act k₀ = some k) (found : k.tasks[index]? = some task) {virt frame : Nat}
    (lower : page virt < 2 ^ 35) (here : userFrame (leaf k.phys.m task.pagemap.pml4 (path virt)) = some frame) :
    Taken k.phys.pmm.bitmap (frame / 0x1000) ∧
      (∀ root ∈ k.roots, ∀ p : List (Fin 512), p.length < 4 → follow next (word k.phys.m) root p ≠ some frame) ∧
      ∀ index' other w, k.tasks[index']? = some other →
        userFrame (leaf k.phys.m other.pagemap.pml4 (path w)) = some frame → index' = index ∧ page w = page virt := by
  obtain ⟨⟨lab, isolated⟩, -⟩ := Kernel.memories_of_run boot allowed ran
  have top := isolated.tops _ (Kernel.mem_roots (List.mem_of_getElem? found))
  have data := isolated.owned.frames (isolated.owned.referenced top here)
  refine ⟨data.taken, ?_, ?_⟩
  · intro root member p short way
    have label := isolated.owned.tables.labels.follow_label (isolated.tops root member)
      (by rw [List.length_nil]; omega) way
    rw [data.unlabelled] at label
    cases label
  · intro index' other w found' there
    have top' := isolated.tops _ (Kernel.mem_roots (List.mem_of_getElem? found'))
    obtain ⟨root, same⟩ := isolated.owned.frame_eq top' top lower there here
    refine ⟨?_, same⟩
    by_contra apart
    exact isolated.task_ne found found' apart root.symm

/-- Wherever user code stores, every walk through every pagemap reads the same words as before. -/
theorem store_keeps_translations (boot : Kernel.Boot k₀) (allowed : ∀ a ∈ acts, a.KernelPages)
    (ran : acts.foldlM Kernel.act k₀ = some k) {virt : Nat} {byte : UInt8}
    (stored : k.act (.store index virt byte) = some k') :
    k'.roots = k.roots ∧ ∀ root ∈ k.roots, SameTree k.phys.m k'.phys.m root := by
  obtain ⟨⟨lab, isolated⟩, -⟩ := Kernel.memories_of_run boot allowed ran
  obtain ⟨task, found, moved⟩ := Option.bind_eq_some_iff.mp stored
  obtain ⟨s', through, returned⟩ := Option.bind_eq_some_iff.mp moved
  obtain rfl := Option.some.inj returned
  have top := isolated.tops _ (Kernel.mem_roots (List.mem_of_getElem? found))
  obtain ⟨frame, user, rfl⟩ := isolated.owned.userStore_cases top through
  refine ⟨rfl, ?_⟩
  intro root member p short
  exact isolated.owned.tables.labels.reach_congr (isolated.tops root member) (by simpa using short)
    fun u q j label _ => write8_word isolated.owned top user byte label

theorem store_keeps_translations_twoTasks : ∃ k k', Kernel.act k (.store 0 0x400020 9) = some k' ∧
    twoTasks.foldlM Kernel.act Kernel.wide = some k ∧ ∀ root ∈ k.roots, SameTree k.phys.m k'.phys.m root := by
  have evaluated : ((twoTasks.foldlM Kernel.act Kernel.wide).bind fun k => k.act (.store 0 0x400020 9)).isSome := by
    decide +kernel
  obtain ⟨k', evaluated⟩ := Option.isSome_iff_exists.mp evaluated
  obtain ⟨k, ran, stored⟩ := Option.bind_eq_some_iff.mp evaluated
  exact ⟨k, k', stored, ran, (store_keeps_translations Kernel.wide_boot twoTasks_kernelPages ran stored).2⟩

theorem user_frames_private_twoTasks : ∃ k first second frame, twoTasks.foldlM Kernel.act Kernel.wide = some k ∧
    k.tasks[0]? = some first ∧ k.tasks[1]? = some second ∧
    userFrame (leaf k.phys.m first.pagemap.pml4 (path 0x400010)) = some frame ∧
    userFrame (leaf k.phys.m second.pagemap.pml4 (path 0x400010)) ≠ some frame := by
  have evaluated : (twoTasks.foldlM Kernel.act Kernel.wide).bind (fun k => k.tasks[0]?.bind fun first =>
      (userFrame (leaf k.phys.m first.pagemap.pml4 (path 0x400010))).map fun _ => k.tasks.length) = some 2 := by
    decide +kernel
  obtain ⟨k, ran, evaluated⟩ := Option.bind_eq_some_iff.mp evaluated
  obtain ⟨first, one, evaluated⟩ := Option.bind_eq_some_iff.mp evaluated
  obtain ⟨frame, here, length⟩ := Option.map_eq_some_iff.mp evaluated
  have two : k.tasks[1]? = some _ := List.getElem?_eq_getElem (by omega)
  refine ⟨k, first, _, frame, ran, one, two, here, ?_⟩
  intro there
  have apart := (user_frames_private Kernel.wide_boot twoTasks_kernelPages ran one (by decide) here).2.2 1 _ _ two there
  exact absurd apart.1 (by decide)

theorem Owned.userLoad_some {s : Phys} {lab : Nat → Option (List (Fin 512))} {root virt : Nat} (owned : Owned s lab)
    (top : lab root = some []) (user : leaf s.m root (path virt) &&& userRead = userRead) :
    userLoad s.m root virt = some (s.m (physical s.m root virt)) := by
  unfold userLoad
  rw [if_pos ((owned.permits_read top virt).mpr user)]

theorem Owned.userLoad_none {s : Phys} {lab : Nat → Option (List (Fin 512))} {root virt : Nat} (owned : Owned s lab)
    (top : lab root = some []) (other : ¬leaf s.m root (path virt) &&& userRead = userRead) :
    userLoad s.m root virt = none := by
  unfold userLoad
  rw [if_neg]
  exact fun allowed => other ((owned.permits_read top virt).mp allowed)

theorem Kernel.fault_moved {virt : Nat} (found : k.tasks[index]? = some task)
    (faulted : k.act (.kernel (.user index (.fault virt))) = some k') :
    ∃ s', (∃ unhandled, handlePageFault k.hhdm k.phys task.pagemap virt = some (s', unhandled)) ∧
      k' = { k with phys := s' } := by
  have stepped : k.step (.user index (.fault virt)) = some k' := faulted
  cases Kernel.step_cases stepped with
  | user index event running s' running' here moved =>
    obtain rfl : task = running := Option.some.inj (found.symm.trans here)
    cases UserTask.step_cases moved with
    | fault virt s' unhandled handled =>
      obtain ⟨inside, value⟩ := List.getElem?_eq_some_iff.mp found
      refine ⟨s', ⟨unhandled, handled⟩, ?_⟩
      rw [← value, List.set_getElem_self]

theorem faultOutcome_page {hhdm virt : Nat} {s s' : Phys} {pagemap : Pagemap} {unhandled : Bool}
    {range : MappedRange} (outcome : FaultOutcome hhdm s pagemap virt s' unhandled) (ranges : MmapRanges pagemap)
    (absent : ¬Present s.m pagemap.pml4 virt) (covered : addrToRange pagemap virt = some range) :
    leaf s'.m pagemap.pml4 (path virt) &&& userRead = userRead ∧
      ∀ o < 0x1000, s'.m ((leaf s'.m pagemap.pml4 (path virt) &&& addressMask) + o) = 0 := by
  cases outcome with
  | present found same => exact absurd found absent
  | unmapped _ none same => exact nomatch none.symm.trans covered
  | anonymous range' frame _ found type handed zero entry =>
    obtain rfl := Option.some.inj (covered.symm.trans found)
    obtain ⟨-, prot, flags⟩ := ranges range (List.mem_of_find?_eq_some found)
    rw [entry, anonymous_word ranges found handed]
    refine ⟨?_, ?_⟩
    · rw [leafWord_and (by decide), flags, mmapPageFlags_user]
    · intro o inside
      rw [leafWord_address (flags ▸ mmapPageFlags_clear prot), aligned_and_addressMask handed.aligned handed.bounded]
      exact zero _ (Nat.le_add_right _ _) (by omega)
  | direct range' _ found type entry =>
    have anonymous := (ranges range' (List.mem_of_find?_eq_some found)).1
    rw [type] at anonymous
    cases anonymous

theorem leaf_same_top {m : Mem} {root other virt : Nat} (same : word m other (level virt 39) = word m root (level virt 39)) :
    leaf m other (path virt) = leaf m root (path virt) := by
  unfold leaf path
  rw [reach, reach, same]

/-- Above the lower half there is no isolation: a page that a range of one task brings there on
a fault is there for every task with the same entry in its PML4, with what the one task stores. -/
theorem kernel_half_page_shared {k₁ k₂ : Kernel} (boot : Kernel.Boot k₀) (allowed : ∀ a ∈ acts, a.KernelPages)
    (ran : acts.foldlM Kernel.act k₀ = some k) (found : k.tasks[index]? = some task)
    (found' : k.tasks[index']? = some other) {virt : Nat} {byte : UInt8} {range : MappedRange}
    (same : word k.phys.m other.pagemap.pml4 (level virt 39) = word k.phys.m task.pagemap.pml4 (level virt 39))
    (there : (next (word k.phys.m task.pagemap.pml4 (level virt 39))).isSome)
    (absent : ¬Present k.phys.m task.pagemap.pml4 virt) (covered : addrToRange task.pagemap virt = some range)
    (faulted : k.act (.kernel (.user index (.fault virt))) = some k₁)
    (stored : k₁.act (.store index virt byte) = some k₂) :
    userLoad k.phys.m other.pagemap.pml4 virt = none ∧
      userLoad k₁.phys.m other.pagemap.pml4 virt = some 0 ∧
      userLoad k₂.phys.m other.pagemap.pml4 virt = some byte := by
  obtain ⟨⟨lab, isolated⟩, -⟩ := Kernel.memories_of_run boot allowed ran
  have owned := isolated.owned
  have top := isolated.tops _ (Kernel.mem_roots (List.mem_of_getElem? found))
  have topOther := isolated.tops _ (Kernel.mem_roots (List.mem_of_getElem? found'))
  have ranges := isolated.ranges task (List.mem_of_getElem? found)
  obtain ⟨s', handled, rfl⟩ := Kernel.fault_moved found faulted
  obtain ⟨unhandled, handled⟩ := handled
  obtain ⟨lab₁, step⟩ := handlePageFault_own owned top (MmapRanges.harmless ranges) handled
  obtain ⟨-, outcome⟩ := handlePageFault_step owned.tables top handled
  obtain ⟨below, hangs⟩ := Option.isSome_iff_exists.mp there
  -- the entries of both PML4s stay, so both tasks read the same entry below
  have shared : leaf s'.m other.pagemap.pml4 (path virt) = leaf s'.m task.pagemap.pml4 (path virt) := by
    apply leaf_same_top
    rw [step.held top (by decide) hangs, step.held topOther (by decide) (same ▸ hangs), same]
  obtain ⟨entry, blank⟩ := faultOutcome_page outcome ranges absent covered
  have user : leaf s'.m other.pagemap.pml4 (path virt) &&& userRead = userRead := shared ▸ entry
  refine ⟨?_, ?_, ?_⟩
  · rw [owned.userLoad_none topOther]
    rw [leaf_same_top same]
    exact fun user => absent (and_userRead.mp user).1
  · rw [step.owned.userLoad_some (step.keeps topOther) user]
    unfold physical
    rw [shared, blank _ (Nat.mod_lt virt (show 0 < 0x1000 by decide))]
  · obtain ⟨task', here, moved⟩ := Option.bind_eq_some_iff.mp stored
    obtain rfl : task = task' := Option.some.inj (found.symm.trans here)
    obtain ⟨s'', through, returned⟩ := Option.bind_eq_some_iff.mp moved
    obtain rfl := Option.some.inj returned
    obtain ⟨frame, reached, rfl⟩ := step.owned.userStore_cases (step.keeps top) through
    have kept := write8_leaf step.owned (step.keeps top) reached byte (v := virt) (step.keeps topOther)
    have after := step.owned.congr fun label => write8_word step.owned (step.keeps top) reached byte label
    have address : leaf s'.m task.pagemap.pml4 (path virt) &&& addressMask = frame := by
      unfold userFrame at reached
      rw [if_pos (and_userRead.mp entry)] at reached
      exact Option.some.inj reached
    have user' : leaf (s'.m.write8 (frame + virt % 0x1000) byte) other.pagemap.pml4 (path virt) &&& userRead = userRead := by
      rw [kept]
      exact user
    rw [after.userLoad_some (step.keeps topOther) user']
    unfold physical
    dsimp only
    rw [kept, shared, address]
    unfold Mem.write8
    rw [if_pos rfl]

/-- Two programs are started after the first mapping above, and the first one asks for more than the lower half. -/
def climbing : List Act :=
  [.kernel (.mapPage 0x5000 0xFFFF800000000000 3), .kernel (.newUserTask (onePage 0x400000)),
    .kernel (.newUserTask (onePage 0x400000)), .kernel (.user 0 (.mmap 0xFFFF800000000000 3 9))]

theorem kernel_half_page_shared_climbing : ∃ k k₁ k₂ other, climbing.foldlM Kernel.act Kernel.wide = some k ∧
    k.tasks[1]? = some other ∧ k.act (.kernel (.user 0 (.fault 0xFFFF800000001000))) = some k₁ ∧
    k₁.act (.store 0 0xFFFF800000001000 9) = some k₂ ∧
    userLoad k₁.phys.m other.pagemap.pml4 0xFFFF800000001000 = some 0 ∧
    userLoad k₂.phys.m other.pagemap.pml4 0xFFFF800000001000 = some 9 := by
  have evaluated : (climbing.foldlM Kernel.act Kernel.wide).bind (fun k => k.tasks[0]?.bind fun task =>
      k.tasks[1]?.bind fun other => (k.act (.kernel (.user 0 (.fault 0xFFFF800000001000)))).bind fun k₁ =>
        (k₁.act (.store 0 0xFFFF800000001000 9)).map fun _ =>
          (decide (word k.phys.m other.pagemap.pml4 256 = word k.phys.m task.pagemap.pml4 256),
            (next (word k.phys.m task.pagemap.pml4 256)).isSome,
            leaf k.phys.m task.pagemap.pml4 (path 0xFFFF800000001000) &&& pagePresent,
            (addrToRange task.pagemap 0xFFFF800000001000).isSome)) = some (true, true, 0, true) := by
    decide +kernel
  obtain ⟨k, ran, evaluated⟩ := Option.bind_eq_some_iff.mp evaluated
  obtain ⟨task, one, evaluated⟩ := Option.bind_eq_some_iff.mp evaluated
  obtain ⟨other, two, evaluated⟩ := Option.bind_eq_some_iff.mp evaluated
  obtain ⟨k₁, faulted, evaluated⟩ := Option.bind_eq_some_iff.mp evaluated
  obtain ⟨k₂, stored, evaluated⟩ := Option.map_eq_some_iff.mp evaluated
  obtain ⟨same, evaluated⟩ := Prod.mk.inj evaluated
  obtain ⟨there, evaluated⟩ := Prod.mk.inj evaluated
  obtain ⟨absent, covered⟩ := Prod.mk.inj evaluated
  obtain ⟨range, covered⟩ := Option.isSome_iff_exists.mp covered
  have allowed : ∀ a ∈ climbing, a.KernelPages := by
    unfold climbing
    simp only [List.mem_cons, List.not_mem_nil, or_false, forall_eq_or_imp, forall_eq, Act.KernelPages, and_true]
    decide
  have first : level 0xFFFF800000001000 39 = 256 := by decide +kernel
  have shared := kernel_half_page_shared Kernel.wide_boot allowed ran one two (first ▸ of_decide_eq_true same)
    (first ▸ there) (fun present => present absent) covered faulted stored
  exact ⟨k, k₁, k₂, other, ran, two, faulted, stored, shared.2.1, shared.2.2⟩

end Runs

end FishOS.Sched
