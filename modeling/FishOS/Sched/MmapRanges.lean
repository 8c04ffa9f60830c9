import FishOS.Sched.DemandPaging
import FishOS.Userland.Extent

/-!
# Ranges handed out by mmap

`mmap` moves `mmap_anon_base` up by the rounded length, and neither the rounding nor the sum is
checked. As long as they do not wrap, what it hands out lies behind all that came before.
-/

namespace FishOS.Sched

open FishOS.Mem FishOS.Fs FishOS.Userland

structure MmapCall where
  length : Nat
  prot : Nat
  flags : Nat

/-- A call with the task before and after it, and what it returns. -/
structure MmapReturn where
  before : UserTask
  call : MmapCall
  after : UserTask
  returned : Int

def mmapCall (task : UserTask) (call : MmapCall) : MmapReturn :=
  { before := task
    call := call
    after := task.mmap call.length call.prot call.flags
    returned := (syscallMmap task.pagemap task.mmapAnonBase call.length call.prot call.flags).2.2 }

def mmapAll (task : UserTask) : List MmapCall → List MmapReturn
  | [] => []
  | call :: rest =>
    let r := mmapCall task call
    r :: mmapAll r.after rest

/-- The flags that `syscall_mmap` refuses. -/
def RefusedFlags (flags : Nat) : Prop := flags &&& mapPrivate = 0 ∨ flags &&& mapShared ≠ 0 ∨ flags &&& mapAnonymous = 0

instance (flags : Nat) : Decidable (RefusedFlags flags) := inferInstanceAs (Decidable (_ ∨ _ ∨ _))

namespace MmapReturn

/-- The addresses that the caller was given. -/
def Holds (r : MmapReturn) (a : Nat) : Prop :=
  0 ≤ r.returned ∧ r.returned.toNat ≤ a ∧ a < r.returned.toNat + r.call.length

structure Rejected (r : MmapReturn) : Prop where
  negative : r.returned < 0
  base : r.after.mmapAnonBase = r.before.mmapAnonBase
  ranges : r.after.pagemap.ranges = r.before.pagemap.ranges

/-- A page-aligned base, whose interval does not wrap and is covered by the range that was recorded for it. -/
structure Granted (r : MmapReturn) (base : Nat) : Prop where
  returned : r.returned = base
  aligned : base % 0x1000 = 0
  inside : base + r.call.length ≤ 2 ^ 64
  recorded : ∃ range, r.after.pagemap.ranges = range :: r.before.pagemap.ranges ∧
    ∀ a, base ≤ a → a < base + r.call.length → Contains range a

/-- The interval avoids the pages of the image and the stack. -/
structure Clears (r : MmapReturn) (file : NodeData) (stack : Nat) : Prop where
  image : ∀ a, r.Holds a → ∀ x ∈ imagePages file, ¬(x.virt / 0x1000 * 0x1000 ≤ a ∧ a < pageEnd x.virt)
  stack : ∀ a, r.Holds a → ¬(stack ≤ a ∧ a < stack + stackSize)

def Apart (r r' : MmapReturn) : Prop := ∀ a, r.Holds a → ¬r'.Holds a

/-- The base is no negative number, and the sum with the rounded length does not wrap. -/
def Fits (r : MmapReturn) : Prop :=
  RefusedFlags r.call.flags ∨ 0 < r.before.mmapAnonBase ∧ r.before.mmapAnonBase < 2 ^ 63 ∧
    r.before.mmapAnonBase + (r.call.length + 0xFFF) / 0x1000 * 0x1000 ≤ 2 ^ 64

instance (r : MmapReturn) : Decidable r.Fits := inferInstanceAs (Decidable (_ ∨ _ ∧ _ ∧ _))

end MmapReturn

section Calls

variable {task : UserTask} {call : MmapCall}

theorem mmapCall_refused (refused : RefusedFlags call.flags) :
    (mmapCall task call).Rejected ∧ (mmapCall task call).after = task := by
  unfold RefusedFlags at refused
  have negative : -enosys < 0 := by decide
  unfold mmapCall UserTask.mmap syscallMmap
  simp only [if_pos refused, and_true]
  exact ⟨negative, rfl, rfl⟩

theorem mmapCall_accepted (accepted : ¬RefusedFlags call.flags) : mmapCall task call =
    { before := task
      call := call
      after :=
        { task with
          pagemap :=
            { task.pagemap with
              ranges :=
                { base := task.mmapAnonBase, length := alignUp call.length, pageFlags := mmapPageFlags call.prot,
                  type := .anonymous } :: task.pagemap.ranges }
          mmapAnonBase := (task.mmapAnonBase + alignUp call.length) % 2 ^ 64 }
      returned := isize task.mmapAnonBase } := by
  unfold RefusedFlags at accepted
  unfold mmapCall UserTask.mmap syscallMmap
  simp only [if_neg accepted]

/-- A call that fits is granted the base, and the next base lies behind it or has wrapped to zero. -/
theorem mmapCall_granted (accepted : ¬RefusedFlags call.flags) (aligned : task.mmapAnonBase % 0x1000 = 0)
    (fits : (mmapCall task call).Fits) :
    (mmapCall task call).Granted task.mmapAnonBase ∧ (mmapCall task call).after.mmapAnonBase % 0x1000 = 0 ∧
      ((mmapCall task call).after.mmapAnonBase ≠ 0 →
        task.mmapAnonBase + call.length ≤ (mmapCall task call).after.mmapAnonBase) := by
  rw [mmapCall_accepted accepted] at fits ⊢
  obtain ⟨positive, low, room⟩ := Or.resolve_left fits accepted
  dsimp only at positive low room
  have rounded : alignUp call.length = (call.length + 0xFFF) / 0x1000 * 0x1000 := alignUp_eq (by omega)
  rw [rounded]
  refine ⟨⟨if_pos low, aligned, ?_, _, rfl, ?_⟩, ?_, ?_⟩
  · dsimp only
    omega
  · intro a lower upper
    dsimp only at upper
    exact ⟨lower, by dsimp only; omega⟩
  · dsimp only
    omega
  · dsimp only
    omega

end Calls

/-- An interval that was given away starts at or above the base of the task, which is not zero. -/
def Above (base : Nat) (r : MmapReturn) : Prop := ∀ a, r.Holds a → 0 < base ∧ base ≤ a

theorem MmapReturn.Rejected.not_holds {r : MmapReturn} (rejected : r.Rejected) (a : Nat) : ¬r.Holds a := by
  rintro ⟨positive, -, -⟩
  have negative := rejected.negative
  omega

theorem MmapReturn.Granted.holds {r : MmapReturn} {base a : Nat} (granted : r.Granted base) :
    r.Holds a ↔ base ≤ a ∧ a < base + r.call.length := by
  unfold Holds
  rw [granted.returned, Int.toNat_natCast]
  simp

theorem MmapReturn.holds_start {r : MmapReturn} {base : Nat} (returned : r.returned = base)
    (positive : 1 ≤ r.call.length) : r.Holds base := by
  unfold Holds
  rw [returned, Int.toNat_natCast]
  omega

/-- The induction over a run: everything handed out lies above the base it started from, one
interval behind the other. -/
theorem mmapAll_spec {task : UserTask} {calls : List MmapCall} (aligned : task.mmapAnonBase % 0x1000 = 0)
    (fits : ∀ r ∈ mmapAll task calls, r.Fits) :
    (∀ r ∈ mmapAll task calls, (r.Rejected ∨ ∃ base, r.Granted base) ∧ Above task.mmapAnonBase r) ∧
      (mmapAll task calls).Pairwise MmapReturn.Apart := by
  induction calls generalizing task with
  | nil => exact ⟨fun r member => (nomatch member), .nil⟩
  | cons call rest ih =>
    unfold mmapAll at fits ⊢
    dsimp only at fits ⊢
    obtain ⟨first, later⟩ := List.forall_mem_cons.mp fits
    by_cases refused : RefusedFlags call.flags
    · obtain ⟨rejected, same⟩ := mmapCall_refused refused
      rw [same] at later ⊢
      obtain ⟨each, disjoint⟩ := ih aligned later
      refine ⟨List.forall_mem_cons.mpr ⟨⟨Or.inl rejected, ?_⟩, each⟩, List.pairwise_cons.mpr ⟨?_, disjoint⟩⟩
      · exact fun a holds => absurd holds (rejected.not_holds a)
      · exact fun r _ a holds => absurd holds (rejected.not_holds a)
    · obtain ⟨granted, aligned', moved⟩ := mmapCall_granted refused aligned first
      obtain ⟨each, disjoint⟩ := ih aligned' later
      have positive := (Or.resolve_left first refused).1
      have behind : ∀ r ∈ mmapAll (mmapCall task call).after rest, ∀ a, r.Holds a →
          task.mmapAnonBase + call.length ≤ a := by
        intro r member a holds
        obtain ⟨nonzero, lower⟩ := (each r member).2 a holds
        exact Nat.le_trans (moved (by omega)) lower
      refine ⟨List.forall_mem_cons.mpr ⟨⟨Or.inr ⟨_, granted⟩, ?_⟩, ?_⟩, List.pairwise_cons.mpr ⟨?_, disjoint⟩⟩
      · exact fun a holds => ⟨positive, (granted.holds.mp holds).1⟩
      · intro r member
        refine ⟨(each r member).1, fun a holds => ⟨positive, ?_⟩⟩
        have lower := behind r member a holds
        omega
      · intro r member a holds there
        have upper := (granted.holds.mp holds).2
        have lower := behind r member a there
        exact absurd upper (Nat.not_lt.mpr lower)

/-- Where a new task has its stack and its first base: behind the image, one behind the other. -/
theorem newUserTask_layout {s s' : Phys} {hhdm root : Nat} {file : NodeData} {task : UserTask}
    (made : newUserTask s hhdm root file = some (s', task)) (low : ∀ ph ∈ segments file, ph.Low) :
    (∀ x ∈ imagePages file, pageEnd x.virt ≤ task.stack) ∧ task.stack % 0x1000 = 0 ∧
      task.mmapAnonBase = (task.stack + stackSize) % 2 ^ 64 := by
  unfold newUserTask at made
  obtain ⟨⟨s₁, pagemap⟩, -, filled⟩ := Option.bind_eq_some_iff.mp made
  unfold fillUserPagemap at filled
  obtain ⟨⟨pmm, kernelStack⟩, -, filled⟩ := Option.bind_eq_some_iff.mp filled
  obtain ⟨⟨s₂, ip, free⟩, loaded, filled⟩ := Option.bind_eq_some_iff.mp filled
  obtain ⟨⟨s₃, base⟩, mapped, returned⟩ := Option.bind_eq_some_iff.mp filled
  obtain ⟨-, rfl⟩ := Prod.mk.inj (Option.some.inj returned)
  obtain ⟨aligned, above⟩ := load_end low loaded
  have pages : stackSize / 0x1000 = 15 + 1 := rfl
  have size : (15 + 1) * 0x1000 = stackSize := rfl
  rw [pages] at mapped
  refine ⟨above, aligned, ?_⟩
  rw [← size]
  exact mapStack_end mapped

/-- As long as no call of the run wraps, what it hands out is aligned, recorded, and apart from the
image, the stack and everything handed out before. -/
theorem mmap_ranges_disjoint {s s' : Phys} {hhdm root : Nat} {file : NodeData} {task : UserTask}
    {calls : List MmapCall} (made : newUserTask s hhdm root file = some (s', task))
    (low : ∀ ph ∈ segments file, ph.Low) (stack : task.stack + stackSize ≤ 2 ^ 64)
    (fits : ∀ r ∈ mmapAll task calls, r.Fits) :
    (∀ r ∈ mmapAll task calls, (r.Rejected ∨ ∃ base, r.Granted base) ∧ r.Clears file task.stack) ∧
      (mmapAll task calls).Pairwise MmapReturn.Apart := by
  obtain ⟨image, aligned, base⟩ := newUserTask_layout made low
  have size : stackSize = 0x10000 := rfl
  obtain ⟨each, disjoint⟩ := mmapAll_spec (show task.mmapAnonBase % 0x1000 = 0 by omega) fits
  refine ⟨?_, disjoint⟩
  intro r member
  obtain ⟨outcome, above⟩ := each r member
  have behind : ∀ a, r.Holds a → task.stack + stackSize ≤ a := by
    intro a holds
    have lower := above a holds
    omega
  refine ⟨outcome, ?_, ?_⟩
  · intro a holds x listed ⟨_, upper⟩
    have lower := behind a holds
    have ends := image x listed
    omega
  · intro a holds ⟨_, upper⟩
    exact absurd upper (Nat.not_lt.mpr (behind a holds))

def twoPages : List MmapCall := [⟨1, 3, 9⟩, ⟨0x1000, 3, 9⟩]

theorem mmap_ranges_disjoint_twoPages : ∃ s' task,
    newUserTask Kernel.small.phys Kernel.small.hhdm Kernel.small.kernelPagemap.pml4 (onePage 0x400000) = some (s', task) ∧
      (∀ r ∈ mmapAll task twoPages, (r.Rejected ∨ ∃ base, r.Granted base) ∧ r.Clears (onePage 0x400000) task.stack) ∧
        (mmapAll task twoPages).Pairwise MmapReturn.Apart := by
  have evaluated :
      (newUserTask Kernel.small.phys Kernel.small.hhdm Kernel.small.kernelPagemap.pml4 (onePage 0x400000)).map
        (fun r : Phys × UserTask => (r.2.stack, decide (∀ x ∈ mmapAll r.2 twoPages, x.Fits))) = some (0x401000, true) := by decide +kernel
  have single : segments (onePage 0x400000) = [⟨1, 6, 0, 0x400000, 0, 1⟩] := by decide +kernel
  obtain ⟨⟨s', task⟩, made, same⟩ := Option.map_eq_some_iff.mp evaluated
  obtain ⟨stack, fits⟩ := Prod.mk.inj same
  have low : ∀ ph ∈ segments (onePage 0x400000), ph.Low := by
    rw [single]
    exact List.forall_mem_singleton.mpr (show 0x400000 + 1 + 0x2000 ≤ 2 ^ 64 by decide)
  have room : task.stack + stackSize ≤ 2 ^ 64 := by
    rw [show task.stack = 0x401000 from stack]
    decide
  exact ⟨s', task, made, mmap_ranges_disjoint made low room (of_decide_eq_true fits)⟩

/-- A length that rounds up to zero: the next call is given the same base. -/
def wrappingCalls : List MmapCall := [⟨2 ^ 64 - 1, 3, 9⟩, ⟨0x1000, 3, 9⟩]

theorem mmap_ranges_overlap : ∃ s' task r r',
    newUserTask Kernel.small.phys Kernel.small.hhdm Kernel.small.kernelPagemap.pml4 (onePage 0x400000) = some (s', task) ∧
      mmapAll task wrappingCalls = [r, r'] ∧ r.returned = 0x411000 ∧ r'.returned = 0x411000 ∧
        ¬(r.Rejected ∨ ∃ base, r.Granted base) ∧ ¬r.Apart r' := by
  have evaluated :
      (newUserTask Kernel.small.phys Kernel.small.hhdm Kernel.small.kernelPagemap.pml4 (onePage 0x400000)).map
        (fun r => (mmapAll r.2 wrappingCalls).map MmapReturn.returned) = some [0x411000, 0x411000] := by decide +kernel
  obtain ⟨⟨s', task⟩, made, same⟩ := Option.map_eq_some_iff.mp evaluated
  obtain ⟨first, same⟩ := List.cons.inj same
  obtain ⟨second, -⟩ := List.cons.inj same
  refine ⟨s', task, _, _, made, rfl, first, second, ?_, ?_⟩
  · rintro (rejected | ⟨base, granted⟩)
    · have negative := rejected.negative
      rw [first] at negative
      exact absurd negative (by decide)
    · have inside : base + (2 ^ 64 - 1) ≤ 2 ^ 64 := granted.inside
      have returned := granted.returned
      rw [first] at returned
      omega
  · intro apart
    exact apart 0x411000 (MmapReturn.holds_start first (show 1 ≤ 2 ^ 64 - 1 by decide))
      (MmapReturn.holds_start second (show 1 ≤ 0x1000 by decide))

end FishOS.Sched
