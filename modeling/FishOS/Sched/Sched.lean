import FishOS.Cpu.Interrupts

/-!
# The scheduler

Tasks live at addresses, and their `sched_list` nodes lie inside them. The device accesses
of `scheduler_isr` (timer and end of interrupt) are left out.
-/

namespace FishOS.Sched

open Klib Cpu

structure Task where
  kernelStack : UInt64
  userStack : UInt64
  pagemap : UInt64
  gprState : InterruptState
  gsBase : UInt64
  fsBase : UInt64
  deriving DecidableEq

def schedListOffset : UInt64 := 32

def schedList (task : UInt64) : UInt64 := task + schedListOffset

def listEntry (ptr : UInt64) : UInt64 := ptr - schedListOffset

/-- The task objects and the list rooted at `sched_list_head`. -/
structure Scheduler where
  tasks : UInt64 → Task
  lists : Heads
  schedListHead : UInt64

namespace Scheduler

def setTask (s : Scheduler) (task : UInt64) (value : Task) : Scheduler :=
  { s with tasks := Function.update s.tasks task value }

def enqueue (s : Scheduler) (task : UInt64) : Scheduler :=
  { s with lists := s.lists.addBefore s.schedListHead (schedList task) }

/-- A task object that `new Task()` returned at `task`, made a kernel task. Its base fields
keep what the memory held. -/
def newKernelTask (s : Scheduler) (task ip stack kernelPagemap : UInt64) (enqueued : Bool) : Scheduler :=
  let s := s.setTask task
    { s.tasks task with
      pagemap := kernelPagemap
      gprState :=
        { cs := kernelCode, ds := kernelData, es := kernelData, ss := kernelData, rflags := 0x202, rip := ip,
          rsp := stack } }
  if enqueued then s.enqueue task else s

def newUserTask (s : Scheduler) (task ip stack kernelStack pagemap : UInt64) (enqueued : Bool) : Scheduler :=
  let s := s.setTask task
    { s.tasks task with
      pagemap := pagemap
      kernelStack := kernelStack
      gprState :=
        { cs := userCode, ds := userData, es := userData, ss := userData, rflags := 0x202, rip := ip, rsp := stack }
      gsBase := 0
      fsBase := 0 }
  if enqueued then s.enqueue task else s

/-- The first half of `scheduler_isr`: the interrupted task, if there is one, keeps the frame. -/
def saveCurrent (s : Scheduler) (cpu : Processor) (frame : InterruptState) : Scheduler :=
  if cpu.gsBase ≠ 0 then
    s.setTask cpu.gsBase
      { s.tasks cpu.gsBase with gprState := frame, gsBase := cpu.kernelGsBase, fsBase := cpu.fsBase }
  else s

/-- The task after `current`, or the first one. Without any task the kernel panics. -/
def nextTask (s : Scheduler) (current : UInt64) : Option UInt64 :=
  let next := (s.lists (schedList current)).next
  if current ≠ 0 ∧ next ≠ 0 ∧ next ≠ s.schedListHead then some (listEntry next)
  else if s.lists.empty s.schedListHead then none
  else some (listEntry (s.lists s.schedListHead).next)

def load (s : Scheduler) (cpu : Processor) (current : UInt64) : Processor :=
  let task := s.tasks current
  { cpu with
    kernelGsBase := if task.gprState.cs &&& 3 == 3 then task.gsBase else current
    gsBase := current
    fsBase := task.fsBase
    pagemap := task.pagemap }

/-- `scheduler_isr` on the interrupt frame that it overwrites. -/
def schedulerIsr (s : Scheduler) (cpu : Processor) (frame : InterruptState) : Option (Scheduler × Processor × InterruptState) :=
  let saved := s.saveCurrent cpu frame
  match saved.nextTask cpu.gsBase with
  | none => none
  | some current => some (saved, saved.load cpu current, (saved.tasks current).gprState)

/-- The list operation of `dequeue_and_die`. The task stays in its last handler. -/
def dequeueAndDie (s : Scheduler) (cpu : Processor) : Scheduler :=
  { s with lists := s.lists.remove (schedList cpu.gsBase) }

end Scheduler

end FishOS.Sched
