import FishOS.Sched.AddressSpace

/-!
# Demand paging

The ranges that `mmap` records lie one behind the other, the newest last in memory and first
in the list, and end at `mmap_anon_base`.
-/

namespace FishOS.Sched

open RadixTree FishOS.Mem FishOS.Mem.Pmm FishOS.Fs FishOS.Userland Runs

def Contains (range : MappedRange) (virt : Nat) : Prop := range.base ≤ virt ∧ virt < range.base + range.length

/-- A range as `mmap` makes it. -/
structure Mmapped (range : MappedRange) : Prop where
  positive : 0 < range.length
  type : range.type = .anonymous
  flags : ∃ prot, range.pageFlags = mmapPageFlags prot

def Recorded : List MappedRange → Nat → Prop
  | [], _ => True
  | range :: rest, stop => range.base + range.length = stop ∧ Mmapped range ∧ Recorded rest range.base

section Ranges

variable {ranges : List MappedRange} {range : MappedRange} {stop virt : Nat}

theorem Recorded.le (recorded : Recorded ranges stop) (member : range ∈ ranges) :
    range.base + range.length ≤ stop := by
  induction ranges generalizing stop with
  | nil => cases member
  | cons first rest ih =>
    obtain ⟨ends, -, recorded⟩ := recorded
    rcases List.mem_cons.mp member with rfl | later
    · exact Nat.le_of_eq ends
    · have inner := ih recorded later
      omega

theorem Recorded.mmapped (recorded : Recorded ranges stop) (member : range ∈ ranges) : Mmapped range := by
  induction ranges generalizing stop with
  | nil => cases member
  | cons first rest ih =>
    obtain ⟨-, mmapped, recorded⟩ := recorded
    rcases List.mem_cons.mp member with rfl | later
    · exact mmapped
    · exact ih recorded later

theorem matches_iff (bounded : range.base + range.length < 2 ^ 64) :
    range.matches virt = true ↔ range.base ≤ virt ∧ virt ≤ range.base + range.length := by
  unfold MappedRange.matches
  rw [Nat.mod_eq_of_lt bounded, Bool.and_eq_true, decide_eq_true_eq, decide_eq_true_eq]

theorem Recorded.find_of_contains (recorded : Recorded ranges stop) (bounded : stop < 2 ^ 64)
    (member : range ∈ ranges) (contains : Contains range virt) :
    ranges.find? (·.matches virt) = some range := by
  induction ranges generalizing stop with
  | nil => cases member
  | cons first rest ih =>
    have fits : first.base + first.length < 2 ^ 64 := Nat.lt_of_le_of_lt (recorded.le (.head _)) bounded
    obtain ⟨ends, -, recorded⟩ := recorded
    obtain ⟨lower, upper⟩ := contains
    rcases List.mem_cons.mp member with rfl | later
    · exact List.find?_cons_of_pos ((matches_iff fits).mpr ⟨lower, Nat.le_of_lt upper⟩)
    · have below := recorded.le later
      have skipped : ¬first.matches virt = true := by
        intro found
        have start := ((matches_iff fits).mp found).1
        omega
      rw [List.find?_cons_of_neg skipped]
      exact ih recorded (by omega) later

/-- Away from the end of the newest range, the range that is found contains the address. -/
theorem Recorded.contains_of_find (recorded : Recorded ranges stop) (bounded : stop < 2 ^ 64)
    (other : virt ≠ stop) (found : ranges.find? (·.matches virt) = some range) :
    range ∈ ranges ∧ Contains range virt := by
  induction ranges generalizing stop with
  | nil => cases found
  | cons first rest ih =>
    have fits : first.base + first.length < 2 ^ 64 := Nat.lt_of_le_of_lt (recorded.le (.head _)) bounded
    obtain ⟨ends, -, recorded⟩ := recorded
    by_cases hit : first.matches virt = true
    · rw [List.find?_cons_of_pos hit] at found
      obtain rfl := Option.some.inj found
      obtain ⟨lower, upper⟩ := (matches_iff fits).mp hit
      exact ⟨.head _, lower, by omega⟩
    · rw [List.find?_cons_of_neg hit] at found
      have away : virt ≠ first.base := fun same => hit ((matches_iff fits).mpr (by omega))
      obtain ⟨member, contains⟩ := ih recorded (by omega) away found
      exact ⟨.tail _ member, contains⟩

theorem Recorded.find_stop (recorded : Recorded (range :: ranges) stop) (bounded : stop < 2 ^ 64) :
    (range :: ranges).find? (·.matches stop) = some range := by
  have fits : range.base + range.length < 2 ^ 64 := Nat.lt_of_le_of_lt (recorded.le (.head _)) bounded
  obtain ⟨ends, -, -⟩ := recorded
  exact List.find?_cons_of_pos ((matches_iff fits).mpr (by omega))

end Ranges

theorem mmapPageFlags_lt (prot : Nat) : mmapPageFlags prot < 2 ^ 64 := by
  unfold mmapPageFlags
  dsimp only
  split <;> split <;> decide

/-- A size of at least one byte, rounded up to pages, whose end does not wrap. -/
def LegalMmap (k : Kernel) : Kernel.Event → Prop
  | .user index (.mmap length _ _) => 1 ≤ length ∧ ∀ task ∈ k.tasks[index]?,
      task.mmapAnonBase + (length + 0xFFF) / 0x1000 * 0x1000 < 2 ^ 64
  | _ => True

structure Bumped (task : UserTask) : Prop where
  recorded : Recorded task.pagemap.ranges task.mmapAnonBase
  bounded : task.mmapAnonBase < 2 ^ 64

theorem Bumped.mmap {task : UserTask} {length prot flags : Nat} (bumped : Bumped task)
    (positive : 1 ≤ length) (fits : task.mmapAnonBase + (length + 0xFFF) / 0x1000 * 0x1000 < 2 ^ 64) :
    Bumped (task.mmap length prot flags) := by
  unfold UserTask.mmap syscallMmap
  by_cases refused : flags &&& mapPrivate = 0 ∨ flags &&& mapShared ≠ 0 ∨ flags &&& mapAnonymous = 0
  · rw [if_pos refused]
    exact bumped
  · have size : (length + 0xFFF) / 0x1000 * 0x1000 < 2 ^ 64 := by omega
    have rounded := alignUp_eq size
    rw [if_neg refused]
    dsimp only
    rw [rounded, Nat.mod_eq_of_lt fits]
    refine ⟨⟨rfl, ⟨?_, rfl, prot, rfl⟩, bumped.recorded⟩, fits⟩
    dsimp only
    omega

theorem mapStack_end {pml4 base end_virt n : Nat} {s s' : Phys}
    (mapped : mapStack pml4 s base (n + 1) = some (s', end_virt)) :
    end_virt = (base + (n + 1) * 0x1000) % 2 ^ 64 := by
  induction n generalizing s base with
  | zero =>
    unfold mapStack at mapped
    obtain ⟨⟨s₁, frame⟩, -, mapped⟩ := Option.bind_eq_some_iff.mp mapped
    obtain ⟨s₂, -, mapped⟩ := Option.bind_eq_some_iff.mp mapped
    exact (Prod.mk.inj (Option.some.inj mapped)).2.symm
  | succ n ih =>
    unfold mapStack at mapped
    obtain ⟨⟨s₁, frame⟩, -, mapped⟩ := Option.bind_eq_some_iff.mp mapped
    obtain ⟨s₂, -, mapped⟩ := Option.bind_eq_some_iff.mp mapped
    rw [ih mapped]
    omega

theorem newUserTask_bumped {s s' : Phys} {hhdm root : Nat} {file : NodeData} {task : UserTask}
    (made : newUserTask s hhdm root file = some (s', task)) : Bumped task := by
  unfold newUserTask at made
  obtain ⟨⟨s₁, pagemap⟩, fresh, filled⟩ := Option.bind_eq_some_iff.mp made
  unfold newUserPagemap at fresh
  obtain ⟨⟨s₂, pml4⟩, -, returned⟩ := Option.bind_eq_some_iff.mp fresh
  obtain ⟨-, rfl⟩ := Prod.mk.inj (Option.some.inj returned)
  unfold fillUserPagemap at filled
  obtain ⟨⟨pmm, kernelStack⟩, -, filled⟩ := Option.bind_eq_some_iff.mp filled
  obtain ⟨⟨s₃, ip, free⟩, -, filled⟩ := Option.bind_eq_some_iff.mp filled
  obtain ⟨⟨s₄, base⟩, mapped, returned⟩ := Option.bind_eq_some_iff.mp filled
  obtain ⟨-, rfl⟩ := Prod.mk.inj (Option.some.inj returned)
  have pages : stackSize / 0x1000 = 15 + 1 := rfl
  rw [pages] at mapped
  rw [mapStack_end mapped]
  exact ⟨trivial, Nat.mod_lt _ (Nat.two_pow_pos 64)⟩

theorem reachable_bumped {k : Kernel} (reached : k.Reachable LegalMmap) : ∀ task ∈ k.tasks, Bumped task := by
  obtain ⟨k₀, boot, run⟩ := reached
  refine run.invariant (P := fun k => ∀ task ∈ k.tasks, Bumped task) ?_ ?_
  · intro task member
    rw [boot.tasks] at member
    cases member
  · rintro k event k' bumped legal stepped
    cases Kernel.step_cases stepped with
    | mapPage phy virt flags s' mapped => exact bumped
    | fault virt s' faulted => exact bumped
    | newUserTask file s' task made =>
      intro t member
      rcases List.mem_append.mp member with old | new
      · exact bumped t old
      · exact List.mem_singleton.mp new ▸ newUserTask_bumped made
    | user index event task s' task' found moved =>
      have here := bumped task (List.mem_of_getElem? found)
      intro t member
      rcases List.mem_or_eq_of_mem_set member with old | rfl
      · exact bumped t old
      · cases UserTask.step_cases moved with
        | mmap length prot flags => exact here.mmap legal.1 (legal.2 task found)
        | fault virt s' unhandled faulted => exact here

/-- What a fault at `virt` does when exactly the recorded ranges are paged on demand. -/
structure PagedExactly (s : Phys) (pagemap : Pagemap) (virt : Nat) (s' : Phys) (unhandled : Bool) : Prop where
  answer : ¬Present s.m pagemap.pml4 virt → (unhandled = false ↔ ∃ range ∈ pagemap.ranges, Contains range virt)
  fresh : ¬Present s.m pagemap.pml4 virt → ∀ range ∈ pagemap.ranges, Contains range virt →
    ∃ frame, Handed s s' frame ∧ ZeroFrame s'.m frame ∧
      leaf s'.m pagemap.pml4 (path virt) = frame ||| range.pageFlags
  outside : ∀ w, ¬Present s.m pagemap.pml4 w → Present s'.m pagemap.pml4 w →
    ∃ range ∈ pagemap.ranges, ∃ u, page u = page w ∧ Contains range u

section Fault

variable {k : Kernel} {task : UserTask} {virt : Nat} {s' : Phys} {unhandled : Bool}

theorem Bumped.not_contains {range : MappedRange} (bumped : Bumped task)
    (member : range ∈ task.pagemap.ranges) :
    ¬Contains range task.mmapAnonBase := by
  rintro ⟨-, upper⟩
  have ends := bumped.recorded.le member
  omega

theorem Bumped.addrToRange_base (bumped : Bumped task) (some : task.pagemap.ranges ≠ []) :
    ∃ range, addrToRange task.pagemap task.mmapAnonBase = Option.some range := by
  obtain ⟨first, rest, ranges⟩ := List.exists_cons_of_ne_nil some
  refine ⟨first, ?_⟩
  unfold addrToRange
  rw [ranges]
  exact (ranges ▸ bumped.recorded).find_stop bumped.bounded

/-- Just behind the newest range a fault is handled, though no range is there. -/
theorem Bumped.not_pagedExactly (bumped : Bumped task) (some : task.pagemap.ranges ≠ [])
    (absent : ¬Present k.phys.m task.pagemap.pml4 task.mmapAnonBase)
    (outcome : FaultOutcome k.hhdm k.phys task.pagemap task.mmapAnonBase s' unhandled) :
    ¬PagedExactly k.phys task.pagemap task.mmapAnonBase s' unhandled := by
  rintro ⟨answer, -, -⟩
  obtain ⟨range, hit⟩ := bumped.addrToRange_base some
  have refused : unhandled = true := by
    by_contra handled
    obtain ⟨range, member, contains⟩ := (answer absent).mp (Bool.not_eq_true _ ▸ handled)
    exact bumped.not_contains member contains
  cases outcome with
  | present found same => exact absent found
  | unmapped absent none same => exact nomatch none.symm.trans hit
  | anonymous range frame absent found type handed zero entry => cases refused
  | direct range absent found type entry => cases refused

theorem Bumped.addrToRange_contains {range : MappedRange} (bumped : Bumped task)
    (away : task.pagemap.ranges ≠ [] → virt ≠ task.mmapAnonBase)
    (found : addrToRange task.pagemap virt = some range) :
    range ∈ task.pagemap.ranges ∧ Contains range virt := by
  apply bumped.recorded.contains_of_find bumped.bounded _ found
  apply away
  intro none
  unfold addrToRange at found
  rw [none] at found
  cases found

theorem Bumped.anonymous_entry {range : MappedRange} {frame : Nat} (bumped : Bumped task)
    (member : range ∈ task.pagemap.ranges) (bounded : frame < 2 ^ 52) :
    (frame ||| range.pageFlags) % 2 ^ 64 = frame ||| range.pageFlags := by
  obtain ⟨prot, flags⟩ := (bumped.recorded.mmapped member).flags
  rw [flags]
  exact Nat.mod_eq_of_lt (Nat.or_lt_two_pow (Nat.lt_trans bounded (by decide)) (mmapPageFlags_lt prot))

theorem Bumped.pagedExactly {lab lab' : Nat → Option (List (Fin 512))} (bumped : Bumped task)
    (fine : Present k.phys.m task.pagemap.pml4 virt ∨ ¬(task.pagemap.ranges ≠ [] ∧ virt = task.mmapAnonBase))
    (top : lab task.pagemap.pml4 = some []) (step : Step {path virt} k.phys lab s' lab')
    (outcome : FaultOutcome k.hhdm k.phys task.pagemap virt s' unhandled) :
    PagedExactly k.phys task.pagemap virt s' unhandled := by
  cases outcome with
  | present found same =>
    refine ⟨fun absent => absurd found absent, fun absent => absurd found absent, ?_⟩
    intro w absent present
    exact absurd present (step.absent_of_same top same absent)
  | unmapped absent none same =>
    have uncovered : ∀ range ∈ task.pagemap.ranges, ¬Contains range virt := by
      intro range member contains
      exact nomatch none.symm.trans (bumped.recorded.find_of_contains bumped.bounded member contains)
    refine ⟨?_, ?_, ?_⟩
    · intro _
      exact iff_of_false Bool.noConfusion fun ⟨range, member, contains⟩ => uncovered range member contains
    · intro _ range member contains
      exact absurd contains (uncovered range member)
    · intro w absent present
      exact absurd present (step.absent_of_same top same absent)
  | anonymous range frame absent found type handed zero entry =>
    have covered := bumped.addrToRange_contains (fun some last => fine.resolve_left absent ⟨some, last⟩) found
    rw [bumped.anonymous_entry covered.1 handed.bounded] at entry
    refine ⟨?_, ?_, ?_⟩
    · intro _
      exact iff_of_true rfl ⟨range, covered⟩
    · intro _ other member contains
      have same := (bumped.recorded.find_of_contains bumped.bounded member contains).symm.trans found
      obtain rfl := Option.some.inj same
      exact ⟨frame, handed, zero, entry⟩
    · intro w absent present
      by_cases here : page w = page virt
      · exact ⟨range, covered.1, virt, here.symm, covered.2⟩
      · exact absurd ((step.present_iff top here).mp present) absent
  | direct range absent found type entry =>
    have member : range ∈ task.pagemap.ranges := List.mem_of_find?_eq_some found
    exact nomatch (bumped.recorded.mmapped member).type.symm.trans type

end Fault

/-- In every state of a run, a fault is paged exactly unless it is at the very end of the newest range. -/
theorem fault_paged_iff {k : Kernel} {task : UserTask} {virt : Nat} {s' : Phys} {unhandled : Bool}
    (reached : k.Reachable LegalMmap) (member : task ∈ k.tasks)
    (faulted : handlePageFault k.hhdm k.phys task.pagemap virt = some (s', unhandled)) :
    PagedExactly k.phys task.pagemap virt s' unhandled ↔
      Present k.phys.m task.pagemap.pml4 virt ∨ ¬(task.pagemap.ranges ≠ [] ∧ virt = task.mmapAnonBase) := by
  have bumped := reachable_bumped reached task member
  obtain ⟨lab, labelled⟩ := reached.labelled
  have top := labelled.tasks task member
  obtain ⟨⟨lab', step⟩, outcome⟩ := handlePageFault_step labelled.tables top faulted
  constructor
  · intro exact
    by_contra wrong
    obtain ⟨absent, wrong⟩ := not_or.mp wrong
    obtain ⟨some, rfl⟩ := not_not.mp wrong
    exact bumped.not_pagedExactly some absent outcome exact
  · intro fine
    exact bumped.pagedExactly fine top step outcome

/-- A task has one page mapped with `mmap`, behind its stack, and then faults. -/
def onePageRun (virt : Nat) : Option (Nat × Nat × List MappedRange × Bool) := do
  let (s, task) ← newUserTask Kernel.small.phys Kernel.small.hhdm Kernel.small.kernelPagemap.pml4 (onePage 0x400000)
  let mapped := task.mmap 1 3 9
  let (_, unhandled) ← handlePageFault Kernel.small.hhdm s mapped.pagemap virt
  some (task.mmapAnonBase, mapped.mmapAnonBase, mapped.pagemap.ranges, unhandled)

def oneRange : List MappedRange := [⟨0x411000, 0x1000, mmapPageFlags 3, .anonymous⟩]

theorem onePage_fault (virt : Nat) (evaluated : onePageRun virt = some (0x411000, 0x412000, oneRange, false)) :
    ∃ (k : Kernel) (task : UserTask) (s' : Phys), k.Reachable LegalMmap ∧ task ∈ k.tasks ∧
      task.mmapAnonBase = 0x412000 ∧ task.pagemap.ranges = oneRange ∧
      handlePageFault k.hhdm k.phys task.pagemap virt = some (s', false) := by
  unfold onePageRun at evaluated
  obtain ⟨⟨s, task⟩, made, evaluated⟩ := Option.bind_eq_some_iff.mp evaluated
  dsimp only at evaluated
  obtain ⟨⟨s', unhandled⟩, faulted, evaluated⟩ := Option.bind_eq_some_iff.mp evaluated
  obtain ⟨base, evaluated⟩ := Prod.mk.inj (Option.some.inj evaluated)
  obtain ⟨next, evaluated⟩ := Prod.mk.inj evaluated
  obtain ⟨ranges, rfl⟩ := Prod.mk.inj evaluated
  have spawned : Kernel.small.step (.newUserTask (onePage 0x400000)) =
      some { Kernel.small with phys := s, tasks := [task] } := by
    unfold Kernel.step
    dsimp only
    rw [made]
    rfl
  have legal : LegalMmap { Kernel.small with phys := s, tasks := [task] } (.user 0 (.mmap 1 3 9)) := by
    refine ⟨Nat.le_refl 1, ?_⟩
    intro t same
    obtain rfl : task = t := Option.some.inj same
    rw [show task.mmapAnonBase = 0x411000 from base]
    decide
  have mapped : Kernel.step { Kernel.small with phys := s, tasks := [task] } (.user 0 (.mmap 1 3 9)) =
      some { Kernel.small with phys := s, tasks := [task.mmap 1 3 9] } := by
    unfold Kernel.step
    rfl
  have fresh : LegalMmap Kernel.small (.newUserTask (onePage 0x400000)) := trivial
  have run : Run Kernel.step LegalMmap Kernel.small { Kernel.small with phys := s, tasks := [task.mmap 1 3 9] } :=
    .snoc (.snoc (.refl _) fresh spawned) legal mapped
  exact ⟨_, task.mmap 1 3 9, s', ⟨_, Kernel.small_boot, run⟩, List.mem_singleton.mpr rfl, next, ranges, faulted⟩

theorem fault_paged_iff_inside :
    ∃ (k : Kernel) (task : UserTask) (s' : Phys), k.Reachable LegalMmap ∧ task ∈ k.tasks ∧
    handlePageFault k.hhdm k.phys task.pagemap 0x411000 = some (s', false) ∧
    PagedExactly k.phys task.pagemap 0x411000 s' false := by
  obtain ⟨k, task, s', reached, member, base, -, faulted⟩ := onePage_fault 0x411000 (by decide +kernel)
  refine ⟨k, task, s', reached, member, faulted, (fault_paged_iff reached member faulted).mpr (Or.inr ?_)⟩
  rintro ⟨-, last⟩
  rw [base] at last
  exact absurd last (by decide)

/-- A fault just behind the only range is handled as if the range went on. -/
theorem fault_behind_range :
    ∃ (k : Kernel) (task : UserTask) (s' : Phys), k.Reachable LegalMmap ∧ task ∈ k.tasks ∧
    handlePageFault k.hhdm k.phys task.pagemap 0x412000 = some (s', false) ∧
    ¬Present k.phys.m task.pagemap.pml4 0x412000 ∧
      (∀ range ∈ task.pagemap.ranges, ¬Contains range 0x412000) := by
  obtain ⟨k, task, s', reached, member, -, ranges, faulted⟩ := onePage_fault 0x412000 (by decide +kernel)
  obtain ⟨lab, labelled⟩ := reached.labelled
  obtain ⟨-, outcome⟩ := handlePageFault_step labelled.tables (labelled.tasks task member) faulted
  refine ⟨k, task, s', reached, member, faulted, ?_, ?_⟩
  · cases outcome with
    | anonymous range frame absent found type handed zero entry => exact absent
    | direct range absent found type entry => exact absent
  · rw [ranges, oneRange]
    intro range only contains
    obtain rfl := List.mem_singleton.mp only
    exact absurd contains.2 (by decide)

end FishOS.Sched
