import FishOS.Klib.Vector
import FishOS.Mem.Vmm

/-!
# Descriptor tables

The file descriptors of a task, `sched::Task::allocate_fdnum` and `syscall_close`. A table of
pointers fits in the heap, so the `int` casts of its size and of its indices change nothing.
-/

namespace FishOS.Fs

/-- What ends a call: a null `node` or `fs` that is followed, any other stray pointer, and a heap
without room. -/
inductive Fault where
  | nullNode
  | nullFs
  | badPointer
  | noMemory
  deriving DecidableEq

/-- The conversion of a `usize` to `int`. -/
def toInt (n : Nat) : Int := Int.bmod n (2 ^ 32)

structure FileDescriptor where
  node : Option Nat
  cursor : Nat
  deriving DecidableEq

def pointerSize : Nat := 8

/-- The part of a task that its descriptors and its working directory are in. A null pointer in the
table is `none`. -/
structure TaskFiles where
  fileDescriptors : Klib.Vector (Option FileDescriptor) (Mem.heapSize / pointerSize)
  numFileDescriptors : Nat
  firstFreeFdnum : Nat
  cwd : Nat

namespace TaskFiles

/-- The descriptors that `new_user_task` makes have no node. -/
def newUserTask (root : Nat) : Option TaskFiles := do
  let fileDescriptors := Klib.Vector.create (Option FileDescriptor) (Mem.heapSize / pointerSize)
  let fileDescriptors ← fileDescriptors.pushBack (some { node := none, cursor := 0 })
  let fileDescriptors ← fileDescriptors.pushBack (some { node := none, cursor := 0 })
  let fileDescriptors ← fileDescriptors.pushBack (some { node := none, cursor := 0 })
  some { fileDescriptors := fileDescriptors, numFileDescriptors := 3, firstFreeFdnum := 3, cwd := root }

/-- The loop looks at the slots from `first_free_fdnum` on. -/
def allocateFdnum (task : TaskFiles) : Except Fault (TaskFiles × Int) :=
  let task := { task with numFileDescriptors := (task.numFileDescriptors + 1) % 2 ^ 64 }
  match (task.fileDescriptors.mBuffer.drop task.firstFreeFdnum).findIdx? Option.isNone with
  | some k =>
    let i := task.firstFreeFdnum + k
    .ok ({ task with firstFreeFdnum := i }, toInt i)
  | none =>
    let task := { task with firstFreeFdnum := task.fileDescriptors.size }
    match task.fileDescriptors.pushBack none with
    | none => .error .noMemory
    | some fileDescriptors =>
      .ok ({ task with fileDescriptors := fileDescriptors }, toInt (fileDescriptors.size - 1))

/-- The range check that the system calls begin with. -/
def Outside (task : TaskFiles) (fd : Int) : Prop := fd ≥ toInt task.fileDescriptors.size ∨ fd < 0

instance (task : TaskFiles) (fd : Int) : Decidable (task.Outside fd) :=
  inferInstanceAs (Decidable (_ ∨ _))

/-- The descriptor that the system calls go on with: `none` where they return. -/
def descriptor (task : TaskFiles) (fd : Int) : Except Fault (Option FileDescriptor) :=
  if task.Outside fd then .ok none
  else match task.fileDescriptors.mBuffer[fd.toNat]? with
    | none => .error .badPointer
    | some descriptor => .ok descriptor

def put (task : TaskFiles) (fd : Int) (descriptor : Option FileDescriptor) : TaskFiles :=
  { task with fileDescriptors := task.fileDescriptors.set fd.toNat descriptor }

def syscallClose (task : TaskFiles) (fd : Int) : Except Fault TaskFiles := do
  match ← task.descriptor fd with
  | none => .ok task
  | some _ =>
    let task := task.put fd none
    .ok { task with numFileDescriptors := (task.numFileDescriptors + 2 ^ 64 - 1) % 2 ^ 64, firstFreeFdnum := fd.toNat }

/-- What the slot `fd` points at, `none` for a null pointer and outside of the table. -/
def slot (task : TaskFiles) (fd : Int) : Option FileDescriptor :=
  if 0 ≤ fd then task.fileDescriptors.mBuffer[fd.toNat]?.join else none

/-- The number of slots that are not empty. -/
def used (task : TaskFiles) : Nat := task.fileDescriptors.mBuffer.countP Option.isSome

variable {task task' : TaskFiles} {fd fd' : Int} {i : Nat} {d : Option FileDescriptor}

theorem size_le (task : TaskFiles) : task.fileDescriptors.size ≤ 2 ^ 27 := task.fileDescriptors.size_le

theorem toInt_eq {n : Nat} (small : n ≤ 2 ^ 27) : toInt n = n := by
  unfold toInt
  rw [Int.bmod_def]
  omega

theorem slot_natCast (task : TaskFiles) (i : Nat) : task.slot i = task.fileDescriptors.mBuffer[i]?.join := by
  simp [slot]

theorem slot_eq_some_iff {descriptor : FileDescriptor} : task.slot fd = some descriptor ↔
    ∃ i : Nat, fd = i ∧ task.fileDescriptors.mBuffer[i]? = some (some descriptor) := by
  constructor
  · intro found
    unfold slot at found
    split at found
    · rename_i nonneg
      exact ⟨fd.toNat, (Int.toNat_of_nonneg nonneg).symm, Option.join_eq_some_iff.mp found⟩
    · cases found
  · rintro ⟨i, rfl, found⟩
    rw [slot_natCast, found]
    rfl

theorem outside_iff : task.Outside fd ↔ (task.fileDescriptors.size : Int) ≤ fd ∨ fd < 0 := by
  have whole := toInt_eq task.size_le
  unfold Outside
  rw [whole]

theorem slot_outside (outside : task.Outside fd) : task.slot fd = none := by
  rw [outside_iff] at outside
  unfold slot
  split
  · have beyond : task.fileDescriptors.mBuffer.length ≤ fd.toNat := by
      unfold Klib.Vector.size at outside
      omega
    rw [List.getElem?_eq_none beyond]
    rfl
  · rfl

theorem descriptor_eq (task : TaskFiles) (fd : Int) : task.descriptor fd = .ok (task.slot fd) := by
  unfold descriptor
  split
  · rename_i outside
    rw [slot_outside outside]
  · rename_i inside
    rw [outside_iff] at inside
    have within : fd.toNat < task.fileDescriptors.mBuffer.length := by
      unfold Klib.Vector.size at inside
      omega
    unfold slot
    rw [List.getElem?_eq_getElem within, if_pos (by omega)]
    rfl

theorem size_put (task : TaskFiles) (fd : Int) (d : Option FileDescriptor) :
    (task.put fd d).fileDescriptors.size = task.fileDescriptors.size := List.length_set

theorem slot_inside (found : task.slot fd ≠ none) : 0 ≤ fd ∧ fd < task.fileDescriptors.size := by
  obtain ⟨descriptor, found⟩ := Option.ne_none_iff_exists'.mp found
  obtain ⟨i, rfl, here⟩ := slot_eq_some_iff.mp found
  have within := (List.getElem?_eq_some_iff.mp here).1
  unfold Klib.Vector.size
  omega

theorem slot_put (within : i < task.fileDescriptors.size) :
    (task.put i d).slot fd = if fd = i then d else task.slot fd := by
  unfold Klib.Vector.size at within
  unfold slot put Klib.Vector.set
  dsimp only [Int.toNat_natCast]
  rw [List.getElem?_set]
  by_cases same : fd = i
  · subst same
    simp [within]
  · by_cases nonneg : 0 ≤ fd
    · have other : i ≠ fd.toNat := by omega
      rw [if_neg other, if_neg same]
    · rw [if_neg nonneg, if_neg same, if_neg nonneg]

theorem used_put_some (within : i < task.fileDescriptors.size) (empty : task.slot i = none)
    (descriptor : FileDescriptor) :
    (task.put i (some descriptor)).used = task.used + 1 := by
  unfold Klib.Vector.size at within
  rw [slot_natCast, List.getElem?_eq_getElem within] at empty
  have null : task.fileDescriptors.mBuffer[i] = none := empty
  unfold used put Klib.Vector.set
  dsimp only [Int.toNat_natCast]
  rw [List.countP_set within, null]
  rfl

theorem used_put_none (found : task.slot i ≠ none) : (task.put i none).used + 1 = task.used := by
  obtain ⟨descriptor, found⟩ := Option.ne_none_iff_exists'.mp found
  obtain ⟨j, same, here⟩ := slot_eq_some_iff.mp found
  obtain rfl : i = j := by omega
  obtain ⟨within, here⟩ := List.getElem?_eq_some_iff.mp here
  have positive : 0 < task.used := List.countP_pos_iff.mpr ⟨_, List.getElem_mem within, by rw [here]; rfl⟩
  unfold used at positive ⊢
  unfold put Klib.Vector.set
  dsimp only [Int.toNat_natCast]
  rw [List.countP_set within, here, Option.isSome_some, Option.isSome_none, if_pos rfl]
  simp only [Bool.false_eq_true, if_false]
  omega

theorem used_put_moved {before after : FileDescriptor} (found : task.slot fd = some before) :
    (task.put fd (some after)).used = task.used := by
  obtain ⟨i, rfl, here⟩ := slot_eq_some_iff.mp found
  obtain ⟨within, here⟩ := List.getElem?_eq_some_iff.mp here
  have positive : 0 < task.used := List.countP_pos_iff.mpr ⟨_, List.getElem_mem within, by rw [here]; rfl⟩
  unfold used at positive ⊢
  unfold put Klib.Vector.set
  dsimp only [Int.toNat_natCast]
  rw [List.countP_set within, here, Option.isSome_some, Option.isSome_some, if_pos rfl]
  omega

theorem slot_of_ge {i : Nat} (beyond : task.fileDescriptors.size ≤ i) : task.slot i = none := by
  unfold Klib.Vector.size at beyond
  rw [slot_natCast, List.getElem?_eq_none beyond]
  rfl

theorem scan_found {slots : List (Option FileDescriptor)} {first k : Nat}
    (found : (slots.drop first).findIdx? Option.isNone = some k) :
    slots[first + k]? = some none ∧ ∀ j, first ≤ j → j < first + k → ∃ d, slots[j]? = some (some d) := by
  obtain ⟨inside, empty, passed⟩ := List.findIdx?_eq_some_iff_getElem.mp found
  rw [List.length_drop] at inside
  rw [List.getElem_drop] at empty
  constructor
  · rw [List.getElem?_eq_getElem (by omega), Option.isNone_iff_eq_none.mp empty]
  · intro j lower upper
    have busy := passed (j - first) (by omega)
    have place : first + (j - first) = j := by omega
    rw [List.getElem_drop] at busy
    simp only [place] at busy
    rw [List.getElem?_eq_getElem (by omega)]
    obtain ⟨d, here⟩ := Option.ne_none_iff_exists'.mp fun null => busy (Option.isNone_iff_eq_none.mpr null)
    exact ⟨d, by rw [here]⟩

theorem scan_exhausted {slots : List (Option FileDescriptor)} {first : Nat}
    (exhausted : (slots.drop first).findIdx? Option.isNone = none) {j : Nat} (lower : first ≤ j)
    (inside : j < slots.length) : ∃ d, slots[j]? = some (some d) := by
  have place : first + (j - first) = j := by omega
  have member : slots[j] ∈ slots.drop first :=
    List.mem_drop_iff_getElem.mpr ⟨j - first, by omega, by simp only [place]⟩
  have busy := List.findIdx?_eq_none_iff.mp exhausted _ member
  obtain ⟨d, here⟩ := Option.isSome_iff_exists.mp (by simpa using busy)
  exact ⟨d, by rw [List.getElem?_eq_getElem inside, here]⟩

theorem slot_ne_none (found : ∃ d, task.fileDescriptors.mBuffer[i]? = some (some d)) : task.slot i ≠ none := by
  obtain ⟨d, found⟩ := found
  rw [slot_natCast, found]
  exact nofun

theorem slot_pushed (grown : task'.fileDescriptors.mBuffer = task.fileDescriptors.mBuffer ++ [none])
    (fd : Int) :
    task'.slot fd = task.slot fd := by
  have same : task'.fileDescriptors.mBuffer[fd.toNat]?.join = task.fileDescriptors.mBuffer[fd.toNat]?.join := by
    rw [grown, List.getElem?_append]
    split
    · rfl
    · rename_i beyond
      rw [List.getElem?_eq_none (Nat.le_of_not_lt beyond), List.getElem?_singleton]
      split <;> rfl
  unfold slot
  rw [same]

/-- What `allocate_fdnum` returns and leaves behind. -/
structure Allocated (task task' : TaskFiles) (i : Nat) : Prop where
  within : i < task'.fileDescriptors.size
  empty : task.slot i = none
  slots : ∀ fd, task'.slot fd = task.slot fd
  used : task'.used = task.used
  count : task'.numFileDescriptors = (task.numFileDescriptors + 1) % 2 ^ 64
  hint : task'.firstFreeFdnum = i
  cwd : task'.cwd = task.cwd
  passed : ∀ j : Nat, task.firstFreeFdnum ≤ j → j < i → task.slot j ≠ none
  grown : task.fileDescriptors.size < task'.fileDescriptors.size → i = task.fileDescriptors.size

theorem allocateFdnum_spec (allocated : task.allocateFdnum = .ok (task', fd)) :
    ∃ i : Nat, fd = i ∧ Allocated task task' i := by
  have small := task.size_le
  unfold allocateFdnum at allocated
  dsimp only at allocated
  split at allocated
  · rename_i k found
    obtain ⟨empty, passed⟩ := scan_found found
    obtain ⟨within, _⟩ := List.getElem?_eq_some_iff.mp empty
    unfold Klib.Vector.size at small
    obtain ⟨rfl, rfl⟩ := Prod.mk.inj (Except.ok.inj allocated)
    refine ⟨_, toInt_eq (by omega),
      { within := within, empty := ?_, slots := fun _ => rfl, used := rfl, count := rfl, hint := rfl, cwd := rfl,
        passed := ?_, grown := fun grown => absurd grown (Nat.lt_irrefl _) }⟩
    · rw [slot_natCast, empty]
      rfl
    · intro j lower upper
      exact slot_ne_none (passed j lower upper)
  · rename_i exhausted
    split at allocated
    · cases allocated
    · rename_i fileDescriptors pushed
      have grown := Klib.Vector.mBuffer_pushBack pushed
      obtain ⟨rfl, rfl⟩ := Prod.mk.inj (Except.ok.inj allocated)
      have size : fileDescriptors.size = task.fileDescriptors.size + 1 := by
        unfold Klib.Vector.size
        rw [grown, List.length_append]
        rfl
      rw [size, Nat.add_sub_cancel]
      refine ⟨_, toInt_eq small,
        { within := by dsimp only; omega, empty := slot_of_ge (Nat.le_refl _), slots := slot_pushed grown, used := ?_,
          count := rfl, hint := rfl, cwd := rfl, passed := ?_, grown := fun _ => rfl }⟩
      · unfold used
        dsimp only
        rw [grown, List.countP_append]
        rfl
      · intro j lower upper
        exact slot_ne_none (scan_exhausted exhausted lower upper)

theorem allocateFdnum_size (allocated : task.allocateFdnum = .ok (task', fd)) :
    task.fileDescriptors.size ≤ task'.fileDescriptors.size := by
  unfold allocateFdnum at allocated
  dsimp only at allocated
  split at allocated
  · obtain ⟨rfl, -⟩ := Prod.mk.inj (Except.ok.inj allocated)
    exact Nat.le_refl _
  · split at allocated
    · cases allocated
    · rename_i fileDescriptors pushed
      obtain ⟨rfl, -⟩ := Prod.mk.inj (Except.ok.inj allocated)
      unfold Klib.Vector.size
      rw [Klib.Vector.mBuffer_pushBack pushed, List.length_append]
      exact Nat.le_add_right _ _

theorem exists_allocation (inside : i < task.fileDescriptors.size) (empty : task.slot i = none)
    (hint : task.firstFreeFdnum ≤ i) : ∃ task' fd, task.allocateFdnum = .ok (task', fd) := by
  unfold allocateFdnum
  dsimp only
  cases scanned : (task.fileDescriptors.mBuffer.drop task.firstFreeFdnum).findIdx? Option.isNone with
  | some k => exact ⟨_, _, rfl⟩
  | none => exact absurd empty (slot_ne_none (scan_exhausted scanned hint inside))

theorem allocateFdnum_error {fault : Fault} (failed : task.allocateFdnum = .error fault) :
    fault = .noMemory := by
  unfold allocateFdnum at failed
  dsimp only at failed
  split at failed
  · cases failed
  · split at failed
    · exact (Except.error.inj failed).symm
    · cases failed

theorem slot_put_self (found : task.slot fd ≠ none) (fd' : Int) :
    (task.put fd d).slot fd' = if fd' = fd then d else task.slot fd' := by
  obtain ⟨descriptor, found⟩ := Option.ne_none_iff_exists'.mp found
  obtain ⟨i, rfl, here⟩ := slot_eq_some_iff.mp found
  exact slot_put (List.getElem?_eq_some_iff.mp here).1

/-- The table after `close` on a descriptor in use. -/
def closed (task : TaskFiles) (fd : Int) : TaskFiles :=
  { task.put fd none with
    numFileDescriptors := (task.numFileDescriptors + 2 ^ 64 - 1) % 2 ^ 64, firstFreeFdnum := fd.toNat }

theorem close_eq (task : TaskFiles) (fd : Int) :
    task.syscallClose fd = .ok (if task.slot fd = none then task else task.closed fd) := by
  unfold syscallClose
  rw [descriptor_eq]
  cases task.slot fd with
  | none => rfl
  | some descriptor => rfl

theorem size_closed (task : TaskFiles) (fd : Int) :
    (task.closed fd).fileDescriptors.size = task.fileDescriptors.size := by
  unfold closed
  dsimp only
  exact size_put task fd none

theorem slot_closed (found : task.slot fd ≠ none) (fd' : Int) :
    (task.closed fd).slot fd' = if fd' = fd then none else task.slot fd' := by
  rw [← slot_put_self found]
  unfold closed slot
  dsimp only

/-- The descriptors of a new task. -/
def nodeless : FileDescriptor := { node := none, cursor := 0 }

theorem newUserTask_eq {root : Nat} (made : newUserTask root = some task) :
    task.fileDescriptors.mBuffer = [some nodeless, some nodeless, some nodeless] ∧ task.numFileDescriptors = 3 ∧
      task.firstFreeFdnum = 3 ∧ task.cwd = root := by
  unfold newUserTask at made
  obtain ⟨first, pushed₁, made⟩ := Option.bind_eq_some_iff.mp made
  obtain ⟨second, pushed₂, made⟩ := Option.bind_eq_some_iff.mp made
  obtain ⟨third, pushed₃, made⟩ := Option.bind_eq_some_iff.mp made
  obtain rfl := Option.some.inj made
  refine ⟨?_, rfl, rfl, rfl⟩
  dsimp only
  rw [Klib.Vector.mBuffer_pushBack pushed₃, Klib.Vector.mBuffer_pushBack pushed₂, Klib.Vector.mBuffer_pushBack pushed₁]
  rfl

theorem slot_newUserTask {root : Nat} (made : newUserTask root = some task) (fd : Int) :
    task.slot fd = if 0 ≤ fd ∧ fd < 3 then some nodeless else none := by
  have buffer := (newUserTask_eq made).1
  unfold slot
  rw [buffer]
  by_cases nonneg : 0 ≤ fd
  · rw [if_pos nonneg]
    by_cases small : fd < 3
    · rw [if_pos ⟨nonneg, small⟩]
      obtain rfl | rfl | rfl : fd = 0 ∨ fd = 1 ∨ fd = 2 := by omega
      · rfl
      · rfl
      · rfl
    · rw [if_neg fun both => small both.2, List.getElem?_eq_none (by simp; omega)]
      rfl
  · rw [if_neg nonneg, if_neg fun both => nonneg both.1]

end TaskFiles

end FishOS.Fs
