import FishOS.Fs.Syscalls

/-!
# The descriptor table over runs

Opens and closes keep the table and its counter consistent. The hint that `allocate_fdnum` starts
from loses a free slot when a descriptor above it is closed.
-/

namespace FishOS.Fs

open Klib

namespace TaskFiles

/-- An open fails and leaves the table alone, or it fills a slot that was empty. -/
def Opened (task task' : TaskFiles) (result : Int) : Prop :=
  (result < 0 ∧ task' = task) ∨ (0 ≤ result ∧ task.slot result = none ∧ task'.slot result ≠ none ∧
    ∀ fd, fd ≠ result → task'.slot fd = task.slot fd)

structure Closed (task task' : TaskFiles) (fd : Int) : Prop where
  empty : task'.slot fd = none
  others : ∀ fd', fd' ≠ fd → task'.slot fd' = task.slot fd'
  unused : task.slot fd = none → task' = task

variable {task task' : TaskFiles} {fd : Int} {i target : Nat}

theorem used_le (task : TaskFiles) : task.used ≤ 2 ^ 27 := Nat.le_trans List.countP_le_length task.size_le

theorem used_opened (allocated : task.Allocated task' i) (d : FileDescriptor) :
    (task'.put i (some d)).used = task.used + 1 := by
  rw [used_put_some allocated.within ((allocated.slots i).trans allocated.empty), allocated.used]

theorem count_opened (allocated : task.Allocated task' i) (counted : task.numFileDescriptors = task.used)
    (d : FileDescriptor) :
    (task'.put i (some d)).numFileDescriptors = (task'.put i (some d)).used := by
  have small := task.used_le
  rw [used_opened allocated]
  have count : (task'.put i (some d)).numFileDescriptors = (task.numFileDescriptors + 1) % 2 ^ 64 :=
    allocated.count
  rw [count, counted]
  omega

theorem count_closed (found : task.slot fd ≠ none) (counted : task.numFileDescriptors = task.used) :
    (task.closed fd).numFileDescriptors = (task.closed fd).used := by
  have small := task.used_le
  obtain ⟨d, here⟩ := Option.ne_none_iff_exists'.mp found
  obtain ⟨i, rfl, _⟩ := slot_eq_some_iff.mp here
  have fewer : (task.put i none).used + 1 = task.used := used_put_none found
  have count : (task.closed i).numFileDescriptors = (task.numFileDescriptors + 2 ^ 64 - 1) % 2 ^ 64 := rfl
  have same : (task.closed i).used = (task.put i none).used := by
    unfold closed used
    dsimp only
  rw [count, same, counted]
  omega

end TaskFiles

/-- Opens and closes. -/
def Event.OnTable : Event → Prop
  | .openPath _ | .openat _ _ | .close _ => True
  | _ => False

namespace World

variable {w w' : World} {event : Event} {events : List Event} {result : Int} {heap : Nat → Option Nat}

/-- The counter counts, and every node of a descriptor is there. -/
structure Consistent (w : World) : Prop where
  counted : w.task.numFileDescriptors = w.task.used
  nodes : ∀ fd d p, w.task.slot fd = some d → d.node = some p → p < w.shapes.length

theorem Starts.consistent (starts : w.Starts) : w.Consistent := by
  obtain ⟨root, _, made⟩ := starts.task
  obtain ⟨buffer, count, _⟩ := TaskFiles.newUserTask_eq made
  constructor
  · unfold TaskFiles.used
    rw [buffer, count]
    rfl
  · intro fd d p found node
    rw [TaskFiles.slot_newUserTask made] at found
    split at found
    · obtain rfl := Option.some.inj found
      cases node
    · cases found

theorem TaskStep.counted {task : TaskFiles} (step : TaskStep w event result task)
    (counted : w.task.numFileDescriptors = w.task.used) : task.numFileDescriptors = task.used := by
  cases step with
  | kept => exact counted
  | opened opens resolves returned allocated => exact TaskFiles.count_opened allocated counted _
  | closed close used => exact TaskFiles.count_closed used counted
  | moved kept found only => exact counted.trans (TaskFiles.used_put_moved found).symm
  | changed chdir found => exact counted

theorem Resolves.inside {dirfd : Int} {path : List UInt8} {target : Nat}
    (resolves : w.Resolves dirfd path target) :
    target < w.shapes.length := by
  obtain ⟨start, found, _, searched, here⟩ := resolves
  obtain ⟨node, read⟩ := Vfs.pathToNode_target searched here
  unfold shapes
  rw [List.length_map]
  exact (List.getElem?_eq_some_iff.mp read).1

theorem Consistent.step (consistent : w.Consistent) (stepped : w.step event = .ok (w', result)) :
    w'.Consistent := by
  constructor
  · exact (step_task stepped).counted consistent.counted
  · intro fd d p found node
    rw [step_shapes stepped]
    have slot := step_slot stepped fd
    rw [found] at slot
    generalize before : w.task.slot fd = old at slot
    cases slot with
    | opened opens resolves returned =>
      obtain rfl := Option.some.inj node
      exact resolves.inside
    | used kept => exact consistent.nodes fd _ p before node

theorem Consistent.run (consistent : w.Consistent) (ran : w.run events = .ok w') : w'.Consistent := by
  induction events using List.reverseRecOn generalizing w' with
  | nil => exact (Except.ok.inj ran) ▸ consistent
  | append_singleton events event ih =>
    obtain ⟨w₁, result, before, last⟩ := run_snoc_ok ran
    exact (ih before).step last

theorem run_append_ok {before after : List Event} (ran : w.run (before ++ after) = .ok w') :
    ∃ w₁, w.run before = .ok w₁ ∧ w₁.run after = .ok w' := by
  unfold run at ran
  rw [List.foldlM_append] at ran
  exact Except.bind_ok ran

theorem table_step (onTable : event.OnTable) (stepped : w.step event = .ok (w', result)) :
    w'.vfs = w.vfs ∧ w'.task.cwd = w.task.cwd := by
  cases event with
  | openPath path | openat dirfd path =>
    rcases openatInner_ok stepped with ⟨rfl, _⟩ | ⟨i, target, task, rfl, resolves, allocated, rfl⟩
    · exact ⟨rfl, rfl⟩
    · exact ⟨rfl, allocated.cwd⟩
  | close fd =>
    have called := map_ok stepped
    rw [syscallClose_eq] at called
    obtain rfl := Except.ok.inj called
    refine ⟨rfl, ?_⟩
    dsimp only
    split
    · rfl
    · rfl
  | _ => exact onTable.elim

theorem table_run (onTable : ∀ event ∈ events, event.OnTable) (ran : w.run events = .ok w') :
    w'.vfs = w.vfs ∧ w'.task.cwd = w.task.cwd := by
  induction events using List.reverseRecOn generalizing w' with
  | nil => exact (Except.ok.inj ran) ▸ ⟨rfl, rfl⟩
  | append_singleton events event ih =>
    obtain ⟨w₁, result, before, last⟩ := run_snoc_ok ran
    obtain ⟨vfs, cwd⟩ := table_step (onTable event (by simp)) last
    obtain ⟨vfs', cwd'⟩ := ih (fun event member => onTable event (by simp [member])) before
    exact ⟨vfs.trans vfs', cwd.trans cwd'⟩

/-- Nothing but a descriptor without a node keeps `openat_inner` from finding where the path starts. -/
theorem Consistent.startingPoint_total (consistent : w.Consistent) {root : Node}
    (cwd : w.vfs.nodes[w.task.cwd]? = some root) {dirfd : Int} {path : CString}
    (node : ∀ d, w.task.slot dirfd = some d → path.chars.head? = some slash ∨ d.node ≠ none) :
    ∃ start, w.startingPoint dirfd (pathBytes path) = .ok start ∧
      ∀ d, start = .ok (some d) → ∃ node, w.vfs.nodes[d]? = some node := by
  obtain ⟨first, head⟩ : ∃ first, (pathBytes path).head? = some first :=
    ⟨_, List.head?_eq_some_head (by simp [pathBytes])⟩
  unfold startingPoint
  rw [head]
  dsimp only
  split
  · exact ⟨_, rfl, nofun⟩
  · rename_i relative
    split
    · refine ⟨_, rfl, ?_⟩
      rintro d ⟨rfl⟩
      exact ⟨root, cwd⟩
    · rw [descriptor_bind]
      cases found : w.task.slot dirfd with
      | none => exact ⟨_, rfl, nofun⟩
      | some d =>
        cases at_node : d.node with
        | none =>
          rcases node d found with absolute | here
          · have starts : (pathBytes path).head? = some slash := by simp [pathBytes, absolute]
            exact absurd (Option.some.inj (head.symm.trans starts)) relative
          · exact absurd at_node here
        | some p =>
          have inside := consistent.nodes dirfd d p found at_node
          unfold shapes at inside
          rw [List.length_map] at inside
          dsimp only
          rw [at_node]
          dsimp only
          rw [List.getElem?_eq_getElem inside]
          dsimp only
          split
          · exact ⟨_, rfl, nofun⟩
          · refine ⟨_, rfl, ?_⟩
            rintro d ⟨rfl⟩
            exact ⟨_, List.getElem?_eq_getElem inside⟩

theorem Consistent.open_total (consistent : w.Consistent) (tree : w.vfs.Tree) {root : Node}
    (cwd : w.vfs.nodes[w.task.cwd]? = some root) {dirfd : Int} {path : CString}
    (node : ∀ d, w.task.slot dirfd = some d → path.chars.head? = some slash ∨ d.node ≠ none) :
    w.openatInner dirfd (pathBytes path) = .error .noMemory ∨
      ∃ w' result, w.openatInner dirfd (pathBytes path) = .ok (w', result) := by
  obtain ⟨start, started, inside⟩ := consistent.startingPoint_total cwd node
  unfold openatInner
  rw [started]
  cases start with
  | error errno => exact .inr ⟨_, _, rfl⟩
  | ok start =>
    obtain ⟨found, searched⟩ := tree.pathToNode_total path fun d here => inside d (congrArg _ here)
    have searched : w.vfs.pathToNode (pathBytes path) start = some found := searched
    dsimp only [bind, Except.bind]
    rw [searched]
    dsimp only
    cases found.target with
    | none => exact .inr ⟨_, _, rfl⟩
    | some target =>
      cases allocated : w.task.allocateFdnum with
      | error fault =>
        obtain rfl := TaskFiles.allocateFdnum_error allocated
        exact .inl rfl
      | ok allocation => exact .inr ⟨_, _, rfl⟩

theorem step_opens {dirfd : Int} {path : CString} (opens : event.opens = some (dirfd, path)) :
    w.step event = w.openatInner dirfd (pathBytes path) := by
  cases event with
  | openPath | openat =>
    obtain ⟨rfl, rfl⟩ := Prod.mk.inj (Option.some.inj opens)
    rfl
  | _ => cases opens

theorem step_opened {dirfd : Int} {path : CString} (opens : event.opens = some (dirfd, path))
    (stepped : w.step event = .ok (w', result)) : w.task.Opened w'.task result := by
  have called : w.openatInner dirfd (pathBytes path) = .ok (w', result) := (step_opens opens).symm.trans stepped
  rcases openatInner_ok called with ⟨rfl, negative⟩ | ⟨i, target, task, rfl, resolves, allocated, rfl⟩
  · exact .inl ⟨negative, rfl⟩
  · refine .inr ⟨Int.natCast_nonneg i, allocated.empty, ?_, ?_⟩
    · dsimp only
      rw [TaskFiles.slot_put allocated.within, if_pos rfl]
      exact nofun
    · intro fd other
      dsimp only
      rw [TaskFiles.slot_put allocated.within, if_neg other]
      exact allocated.slots fd

theorem step_closed (w : World) (fd : Int) :
    ∃ w', w.step (.close fd) = .ok (w', 0) ∧ w.task.Closed w'.task fd := by
  refine ⟨_, congrArg (Except.map (·, (0 : Int))) (syscallClose_eq w fd), ?_⟩
  dsimp only
  split
  · rename_i empty
    exact ⟨empty, fun _ _ => rfl, fun _ => rfl⟩
  · rename_i used
    refine ⟨?_, ?_, fun empty => absurd empty used⟩
    · rw [TaskFiles.slot_closed used, if_pos rfl]
    · intro fd' other
      rw [TaskFiles.slot_closed used, if_neg other]

/-- The table through every sequence of opens and closes of a new task. An open relative to a
descriptor in use needs a node there. -/
theorem descriptor_table {root : Nat} (built : Vfs.Built (fun _ => none) w.vfs)
    (root_dir : w.vfs.root = some root) (made : TaskFiles.newUserTask root = some w.task)
    (onTable : ∀ event ∈ events, event.OnTable) (ran : w.run events = .ok w') :
    w'.task.numFileDescriptors = w'.task.used ∧
      (∀ event dirfd path, event.opens = some (dirfd, path) →
        (∀ d, w'.task.slot dirfd = some d → path.chars.head? = some slash ∨ d.node ≠ none) →
        w'.step event = .error .noMemory ∨
          ∃ w'' result, w'.step event = .ok (w'', result) ∧ w'.task.Opened w''.task result) ∧
      ∀ fd, ∃ w'', w'.step (.close fd) = .ok (w'', 0) ∧ w'.task.Closed w''.task fd := by
  have starts : w.Starts := ⟨⟨_, built⟩, root, root_dir, made⟩
  have consistent := starts.consistent.run ran
  obtain ⟨vfs, cwd⟩ := table_run onTable ran
  have tree := built.tree fun _ => rfl
  obtain ⟨dir, read, _⟩ := tree.root_unique root_dir
  have here : w'.vfs.nodes[w'.task.cwd]? = some dir := by
    rw [vfs, cwd, (TaskFiles.newUserTask_eq made).2.2.2]
    exact read
  refine ⟨consistent.counted, ?_, step_closed w'⟩
  intro event dirfd path opens node
  have returns := consistent.open_total (vfs ▸ tree) here node
  rw [← step_opens opens] at returns
  refine returns.imp id ?_
  rintro ⟨w'', result, stepped⟩
  exact ⟨w'', result, stepped, step_opened opens stepped⟩

theorem exists_newUserTask (root : Nat) : ∃ task, TaskFiles.newUserTask root = some task :=
  Option.isSome_iff_exists.mp rfl

theorem exists_start {v : Vfs} {root : Nat} (built : Vfs.Built heap v) (root_dir : v.root = some root) :
    ∃ w : World, w.vfs = v ∧ TaskFiles.newUserTask root = some w.task ∧ w.Starts := by
  obtain ⟨task, made⟩ := exists_newUserTask root
  exact ⟨{ vfs := v, task := task, memory := fun _ => 0, typed := fun _ => newline, consumed := 0, console := [] },
    rfl, made, ⟨heap, built⟩, root, root_dir, made⟩

theorem run_close (ran : w.run events = .ok w') (fd : Int) :
    w.run (events ++ [.close fd]) =
      .ok { w' with task := if w'.task.slot fd = none then w'.task else w'.task.closed fd } := by
  rw [run_snoc, ran]
  exact congrArg (fun x => (x.map (·, (0 : Int))).map Prod.fst) (syscallClose_eq w' fd)

/-- Standard output closed twice. -/
theorem descriptor_table_close : ∃ (w w' : World), w.run [.close 1, .close 1] = .ok w' ∧
    w'.task.numFileDescriptors = w'.task.used ∧
      (∀ event dirfd path, event.opens = some (dirfd, path) →
        (∀ d, w'.task.slot dirfd = some d → path.chars.head? = some slash ∨ d.node ≠ none) →
        w'.step event = .error .noMemory ∨
          ∃ w'' result, w'.step event = .ok (w'', result) ∧ w'.task.Opened w''.task result) ∧
      ∀ fd, ∃ w'', w'.step (.close fd) = .ok (w'', 0) ∧ w'.task.Closed w''.task fd := by
  obtain ⟨v, built, root, _⟩ := Vfs.exists_binTree
  obtain ⟨w, rfl, made, _⟩ := exists_start built root
  have ran := run_close (run_close (show w.run [] = .ok w from rfl) 1) 1
  refine ⟨w, _, ran, descriptor_table built root made ?_ ran⟩
  intro event member
  obtain rfl : event = .close 1 := by simpa using member
  trivial

end World

namespace TaskFiles

variable {task task' : TaskFiles} {fd : Int} {i : Nat}

/-- The scan of `allocate_fdnum` starts below every empty slot. -/
def HintBelow (task : TaskFiles) : Prop :=
  ∀ i, i < task.fileDescriptors.size → task.slot i = none → task.firstFreeFdnum ≤ i

/-- `allocate_fdnum` returns the lowest free index, and it grows only a full table. -/
def LowestFirst (task : TaskFiles) : Prop :=
  ∀ task' fd, task.allocateFdnum = .ok (task', fd) → (∀ i : Nat, (i : Int) < fd → task.slot i ≠ none) ∧
    (task.fileDescriptors.size < task'.fileDescriptors.size → ∀ i : Nat, i < task.fileDescriptors.size → task.slot i ≠ none)

/-- No free slot is lost. -/
def SlotsKept (task : TaskFiles) : Prop := task.HintBelow ∧ task.LowestFirst

theorem Allocated.lowest (allocated : task.Allocated task' i) (hint : task.HintBelow) {j : Nat}
    (below : j < i) :
    task.slot j ≠ none := by
  intro empty
  have inside : j < task.fileDescriptors.size := by
    have within := allocated.within
    have grown := allocated.grown
    omega
  exact allocated.passed j (hint j inside empty) below empty

theorem HintBelow.kept (hint : task.HintBelow) : task.SlotsKept := by
  refine ⟨hint, ?_⟩
  intro task' fd called
  obtain ⟨i, rfl, allocated⟩ := allocateFdnum_spec called
  constructor
  · intro j below
    exact allocated.lowest hint (by omega)
  · intro grown j inside
    exact allocated.lowest hint (by rw [allocated.grown grown]; exact inside)

end TaskFiles

namespace World

variable {w w' : World} {event : Event} {events : List Event} {result : Int}

theorem Starts.hintBelow (starts : w.Starts) : w.task.HintBelow := by
  obtain ⟨root, _, made⟩ := starts.task
  obtain ⟨buffer, _⟩ := TaskFiles.newUserTask_eq made
  intro i inside empty
  unfold Klib.Vector.size at inside
  rw [buffer] at inside
  have small : i < 3 := inside
  rw [TaskFiles.slot_newUserTask made, if_pos (by omega)] at empty
  cases empty

theorem TaskStep.hintBelow {task : TaskFiles} (step : TaskStep w event result task)
    (hint : w.task.HintBelow)
    (lowest : ∀ fd, event = .close fd → w.task.slot fd ≠ none → ∀ i : Nat, (i : Int) < fd →
      w.task.slot i ≠ none) :
    task.HintBelow := by
  intro j inside empty
  cases step with
  | kept => exact hint j inside empty
  | @opened dirfd path target i mid opens resolves returned allocated =>
    rw [TaskFiles.slot_put allocated.within] at empty
    split at empty
    · cases empty
    · rw [allocated.slots] at empty
      have start : (mid.put i (some { node := some target, cursor := 0 })).firstFreeFdnum = i := allocated.hint
      rw [start]
      by_contra below
      exact allocated.lowest hint (by omega) empty
  | @closed fd close used =>
    have start : (w.task.closed fd).firstFreeFdnum = fd.toNat := rfl
    rw [start]
    by_contra below
    have apart : (j : Int) ≠ fd := by omega
    rw [TaskFiles.slot_closed used, if_neg apart] at empty
    exact lowest fd close used j (by omega) empty
  | moved kept found only =>
    rw [TaskFiles.slot_put_self (by rw [found]; exact nofun)] at empty
    split at empty
    · cases empty
    · rw [TaskFiles.size_put] at inside
      exact hint j inside empty
  | changed chdir found => exact hint j inside empty

/-- Every close of a descriptor in use leaves no empty slot below it. -/
def ClosesLowest (w : World) (events : List Event) : Prop :=
  ∀ done fd rest w₁, events = done ++ .close fd :: rest → w.run done = .ok w₁ → w₁.task.slot fd ≠ none →
    ∀ i : Nat, (i : Int) < fd → w₁.task.slot i ≠ none

theorem free_slots_kept_iff (starts : w.Starts) (ran : w.run events = .ok w') :
    (∀ done w₁, done <+: events → w.run done = .ok w₁ → w₁.task.SlotsKept) ↔ w.ClosesLowest events := by
  constructor
  · rintro kept done fd rest w₁ rfl before used i below empty
    have closing := run_close before fd
    rw [if_neg used] at closing
    have first : done ++ [.close fd] <+: done ++ .close fd :: rest := ⟨rest, by simp⟩
    have inside := TaskFiles.slot_inside used
    have size := TaskFiles.size_closed w₁.task fd
    have above : fd.toNat ≤ i := by
      apply (kept _ _ first closing).1 i
      · dsimp only
        omega
      · dsimp only
        rw [TaskFiles.slot_closed used, if_neg (by omega)]
        exact empty
    omega
  · intro lowest done w₁ first before
    apply TaskFiles.HintBelow.kept
    induction done using List.reverseRecOn generalizing w₁ with
    | nil => exact (Except.ok.inj before) ▸ starts.hintBelow
    | append_singleton done event ih =>
      obtain ⟨w₂, result, earlier, last⟩ := run_snoc_ok before
      obtain ⟨rest, rfl⟩ := first
      have hint := ih w₂ ⟨event :: rest, by simp⟩ earlier
      apply (step_task last).hintBelow hint
      rintro fd rfl
      exact lowest done fd rest w₂ (by simp) earlier

/-- Closing standard input and then standard output hides the slot 0 from `allocate_fdnum`. -/
theorem free_slot_lost :
    ∃ (w w' : World), w.Starts ∧ w.run [.close 0, .close 1] = .ok w' ∧ w'.task.slot 0 = none ∧
    w'.task.firstFreeFdnum = 1 ∧ ¬w'.task.SlotsKept := by
  obtain ⟨v, built, root, _⟩ := Vfs.exists_binTree
  obtain ⟨w, rfl, made, starts⟩ := exists_start built root
  have input : w.task.slot 0 ≠ none := by rw [TaskFiles.slot_newUserTask made]; exact nofun
  have output : (w.task.closed 0).slot 1 ≠ none := by
    rw [TaskFiles.slot_closed input, if_neg (by decide), TaskFiles.slot_newUserTask made]
    exact nofun
  have first := run_close (show w.run [] = .ok w from rfl) 0
  rw [if_neg input] at first
  have second := run_close first 1
  dsimp only at second
  rw [if_neg output] at second
  have empty : ((w.task.closed 0).closed 1).slot 0 = none := by
    rw [TaskFiles.slot_closed output, if_neg (by decide), TaskFiles.slot_closed input, if_pos rfl]
  refine ⟨w, _, starts, second, empty, rfl, ?_⟩
  intro kept
  have inside := TaskFiles.slot_inside output
  have size := TaskFiles.size_closed (w.task.closed 0) 1
  have hint := kept.1 0 (by dsimp only; omega) empty
  exact Nat.not_succ_le_zero 0 hint

/-- The sequence that loses a slot, and the one in the other order. -/
theorem free_slots_kept_iff_close : ∃ (w w' : World), w.Starts ∧ w.run [.close 1, .close 0] = .ok w' ∧
    ((∀ done w₁, done <+: [.close 1, .close 0] → w.run done = .ok w₁ → w₁.task.SlotsKept) ↔
      w.ClosesLowest [.close 1, .close 0]) := by
  obtain ⟨v, built, root, _⟩ := Vfs.exists_binTree
  obtain ⟨w, rfl, made, starts⟩ := exists_start built root
  have ran := run_close (run_close (show w.run [] = .ok w from rfl) 1) 0
  exact ⟨w, _, starts, ran, free_slots_kept_iff starts ran⟩

end World

end FishOS.Fs
