import FishOS.Mem.FlatMap
import FishOS.Userland.Elf

/-!
# Address spaces of user tasks

`sched::new_user_task` as far as memory goes, and the kernel as a machine whose events are
mappings and page faults of the kernel, new user tasks, and their `mmap` calls and page faults.
Objects from the kernel heap are taken to be there.
-/

namespace FishOS.Sched

open FishOS.Mem FishOS.Fs FishOS.Userland

/-- The fields of a `Task` that describe its address space. -/
structure UserTask where
  pagemap : Pagemap
  kernelStack : Nat
  ip : Nat
  stack : Nat
  mmapAnonBase : Nat

def stackSize : Nat := 64 * 1024

def stackFlags : Nat := pagePresent ||| pageUser ||| pageWritable ||| pageNoExecute

/-- The pagemap of a new user task, up to `range_list_head.init()`. -/
def newUserPagemap (s : Phys) (kernelPml4 : Nat) : Option (Phys × Pagemap) := do
  let (s, pml4) ← s.allocZeroed
  some ({ s with m := mapKernel s.m pml4 kernelPml4 }, { pml4 := pml4, ranges := [] })

def mapStack (pml4 : Nat) (s : Phys) (mmap_anon_base : Nat) : Nat → Option (Phys × Nat)
  | 0 => some (s, mmap_anon_base)
  | n + 1 => do
    let (s, page_phy) ← s.allocZeroed
    let s ← mapPage s pml4 page_phy mmap_anon_base stackFlags
    mapStack pml4 s ((mmap_anon_base + 0x1000) % 2 ^ 64) n

/-- The rest of `new_user_task`: the kernel stack, the program and the user stack. -/
def fillUserPagemap (s : Phys) (hhdm : Nat) (pagemap : Pagemap) (elf_file : NodeData) : Option (Phys × UserTask) := do
  let (pmm, kernel_stack_phy) ← s.pmm.allocPages (stackSize / 0x1000)
  let (s, ip, first_free_virt) ← load elf_file pagemap.pml4 { s with pmm := pmm }
  let (s, mmap_anon_base) ← mapStack pagemap.pml4 s first_free_virt (stackSize / 0x1000)
  some (s,
    { pagemap := pagemap
      kernelStack := (kernel_stack_phy + stackSize + hhdm) % 2 ^ 64
      ip := ip
      stack := first_free_virt
      mmapAnonBase := mmap_anon_base })

def newUserTask (s : Phys) (hhdm kernelPml4 : Nat) (elf_file : NodeData) : Option (Phys × UserTask) := do
  let (s, pagemap) ← newUserPagemap s kernelPml4
  fillUserPagemap s hhdm pagemap elf_file

namespace UserTask

inductive Event where
  | mmap (length prot flags : Nat)
  | fault (virt : Nat)

def mmap (task : UserTask) (length prot flags : Nat) : UserTask :=
  let (pagemap, mmap_anon_base, _) := syscallMmap task.pagemap task.mmapAnonBase length prot flags
  { task with pagemap := pagemap, mmapAnonBase := mmap_anon_base }

/-- A fault that is not handled ends the task, which this machine does not need to know. -/
def step (hhdm : Nat) (s : Phys × UserTask) : Event → Option (Phys × UserTask)
  | .mmap length prot flags => some (s.1, s.2.mmap length prot flags)
  | .fault virt => do
    let (phys, _) ← handlePageFault hhdm s.1 s.2.pagemap virt
    some (phys, s.2)

inductive Stepped (hhdm : Nat) (s : Phys) (task : UserTask) : Event → Phys → UserTask → Prop where
  | mmap (length prot flags : Nat) : Stepped hhdm s task (.mmap length prot flags) s (task.mmap length prot flags)
  | fault (virt : Nat) (s' : Phys) (unhandled : Bool)
      (faulted : handlePageFault hhdm s task.pagemap virt = some (s', unhandled)) :
      Stepped hhdm s task (.fault virt) s' task

theorem step_cases {hhdm : Nat} {s s' : Phys} {task task' : UserTask} {event : Event}
    (stepped : step hhdm (s, task) event = some (s', task')) : Stepped hhdm s task event s' task' := by
  cases event with
  | mmap length prot flags =>
    obtain ⟨rfl, rfl⟩ := Prod.mk.inj (Option.some.inj stepped)
    exact .mmap length prot flags
  | fault virt =>
    obtain ⟨⟨s₁, unhandled⟩, faulted, returned⟩ := Option.bind_eq_some_iff.mp stepped
    obtain ⟨rfl, rfl⟩ := Prod.mk.inj (Option.some.inj returned)
    exact .fault virt s₁ unhandled faulted

end UserTask

/-- The kernel's memory, its own pagemap and its user tasks, oldest first. -/
structure Kernel where
  phys : Phys
  hhdm : Nat
  kernelPagemap : Pagemap
  tasks : List UserTask

namespace Kernel

inductive Event where
  | mapPage (phy virt flags : Nat)
  | fault (virt : Nat)
  | newUserTask (elf_file : NodeData)
  | user (index : Nat) (event : UserTask.Event)

/-- A fault in kernel code that cannot be handled ends in a panic. -/
def step (k : Kernel) : Event → Option Kernel
  | .mapPage phy virt flags => do
    let s ← Mem.mapPage k.phys k.kernelPagemap.pml4 phy virt flags
    some { k with phys := s }
  | .fault virt => do
    let (s, unhandled) ← handlePageFault k.hhdm k.phys k.kernelPagemap virt
    if unhandled then none else some { k with phys := s }
  | .newUserTask elf_file => do
    let (s, task) ← Sched.newUserTask k.phys k.hhdm k.kernelPagemap.pml4 elf_file
    some { k with phys := s, tasks := k.tasks ++ [task] }
  | .user index event => do
    let task ← k.tasks[index]?
    let (s, task) ← UserTask.step k.hhdm (k.phys, task) event
    some { k with phys := s, tasks := k.tasks.set index task }

inductive Stepped (k : Kernel) : Event → Kernel → Prop where
  | mapPage (phy virt flags : Nat) (s' : Phys)
      (mapped : Mem.mapPage k.phys k.kernelPagemap.pml4 phy virt flags = some s') :
      Stepped k (.mapPage phy virt flags) { k with phys := s' }
  | fault (virt : Nat) (s' : Phys)
    (faulted : handlePageFault k.hhdm k.phys k.kernelPagemap virt = some (s', false)) :
      Stepped k (.fault virt) { k with phys := s' }
  | newUserTask (file : NodeData) (s' : Phys) (task : UserTask)
      (made : Sched.newUserTask k.phys k.hhdm k.kernelPagemap.pml4 file = some (s', task)) :
      Stepped k (.newUserTask file) { k with phys := s', tasks := k.tasks ++ [task] }
  | user (index : Nat) (event : UserTask.Event) (task : UserTask) (s' : Phys) (task' : UserTask)
      (found : k.tasks[index]? = some task)
      (moved : UserTask.step k.hhdm (k.phys, task) event = some (s', task')) :
      Stepped k (.user index event) { k with phys := s', tasks := k.tasks.set index task' }

theorem step_cases {k k' : Kernel} {event : Event} (stepped : k.step event = some k') : Stepped k event k' := by
  cases event with
  | mapPage phy virt flags =>
    obtain ⟨s', mapped, returned⟩ := Option.bind_eq_some_iff.mp stepped
    obtain rfl := Option.some.inj returned
    exact .mapPage phy virt flags s' mapped
  | fault virt =>
    obtain ⟨⟨s', unhandled⟩, faulted, returned⟩ := Option.bind_eq_some_iff.mp stepped
    cases unhandled with
    | true => cases returned
    | false =>
      obtain rfl := Option.some.inj returned
      exact .fault virt s' faulted
  | newUserTask file =>
    obtain ⟨⟨s', task⟩, made, returned⟩ := Option.bind_eq_some_iff.mp stepped
    obtain rfl := Option.some.inj returned
    exact .newUserTask file s' task made
  | user index event =>
    obtain ⟨task, found, stepped⟩ := Option.bind_eq_some_iff.mp stepped
    obtain ⟨⟨s', task'⟩, moved, returned⟩ := Option.bind_eq_some_iff.mp stepped
    obtain rfl := Option.some.inj returned
    exact .user index event task s' task' found moved

/-- After `vmm::init` has cleared the kernel's PML4 and recorded its ranges. What it maps
there comes as events. -/
structure Boot (k : Kernel) : Prop where
  pml4 : ZeroPml4 k.phys k.kernelPagemap.pml4
  ranges : k.kernelPagemap.ranges = kernelRanges k.hhdm
  tasks : k.tasks = []

end Kernel

end FishOS.Sched
