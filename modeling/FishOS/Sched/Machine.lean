import FishOS.Sched.Sched

/-!
# One processor running tasks

The machine records which activations of the kernel are open on the stack of the running
thread, innermost first, and which lie suspended on the stacks of the other tasks. The
test of the interrupt entry is a parameter. `current`, `isUser` and `leftGs` are history:
the task that was scheduled last, the tasks that `new_user_task` made, and the GS base
with which each of them last left user mode.
-/

namespace FishOS.Sched

open Klib Cpu

inductive Activation where
  | interrupt (state : InterruptState)
  | syscall
  deriving DecidableEq

structure Machine where
  cpu : Processor
  sched : Scheduler
  stack : List Activation
  suspended : UInt64 → List Activation
  current : UInt64
  isUser : UInt64 → Bool
  leftGs : UInt64 → UInt64

inductive Event where
  | interrupt (v : Nat) (regs : InterruptState)
  | interruptReturn
  | schedulerIsr
  | syscallEntry (rsp : UInt64)
  | syscallReturn
  | setGsBase (value : UInt64)
  | newKernelTask (task ip stack kernelPagemap : UInt64) (enqueued : Bool)
  | newUserTask (task ip stack kernelStack pagemap : UInt64) (enqueued : Bool)
  | dequeueAndDie

namespace Machine

def InUser (s : Machine) : Prop := s.cpu.cs = userCode

instance (s : Machine) : Decidable s.InUser := inferInstanceAs (Decidable (_ = _))

def leave (s : Machine) : Machine :=
  if s.InUser then { s with leftGs := Function.update s.leftGs s.current s.cpu.gsBase } else s

/-- The processor pushes its frame, and the wrapper swaps when its test says so. -/
def interrupt (entry : List UInt64 → Bool) (s : Machine) (v : Nat) (regs : InterruptState) : Machine :=
  let stack := wrapperPush v (hardwarePush v { regs with cs := s.cpu.cs })
  let cpu := if entry stack then s.cpu.swapgs else s.cpu
  { s.leave with cpu := { cpu with cs := kernelCode }, stack := .interrupt (savedState stack regs) :: s.stack }

def interruptReturn (s : Machine) : Option Machine :=
  match s.stack with
  | .interrupt state :: stack =>
    let cpu := if exitTest (iretStack state) then s.cpu.swapgs else s.cpu
    some { s with cpu := { cpu with cs := state.cs }, stack := stack }
  | _ => none

/-- `scheduler_isr` in the innermost handler. The stack changes with the task. -/
def schedulerIsr (s : Machine) : Option Machine :=
  match s.stack with
  | .interrupt state :: stack =>
    match s.sched.schedulerIsr s.cpu state with
    | some (sched, cpu, state) =>
      let suspended := if s.cpu.gsBase ≠ 0 then Function.update s.suspended s.cpu.gsBase stack else s.suspended
      some { s with
        cpu := cpu, sched := sched, suspended := suspended, current := cpu.gsBase,
        stack := .interrupt state :: suspended cpu.gsBase }
    | none => none
  | _ => none

/-- `__syscall_entry` up to the call: the user stack is kept at `gs:[16]`. -/
def syscallEntry (s : Machine) (rsp : UInt64) : Option Machine :=
  if s.InUser then
    let cpu := s.cpu.swapgs
    some { s.leave with
      cpu := { cpu with cs := kernelCode },
      sched := s.sched.setTask cpu.gsBase { s.sched.tasks cpu.gsBase with userStack := rsp },
      stack := .syscall :: s.stack }
  else none

/-- The end of `__syscall_entry`: `sysret` loads the user selectors of `IA32_STAR`. -/
def syscallReturn (s : Machine) : Option Machine :=
  match s.stack with
  | .syscall :: stack => some { s with cpu := { s.cpu.swapgs with cs := userCode }, stack := stack }
  | _ => none

/-- The task objects come from the heap, which hands out no object in use, and tasks are never freed. -/
def Fresh (s : Machine) (task : UInt64) : Prop := task ≠ 0 ∧ s.isUser task = false ∧ task ≠ s.current

instance (s : Machine) (task : UInt64) : Decidable (s.Fresh task) := inferInstanceAs (Decidable (_ ∧ _))

def step (entry : List UInt64 → Bool) (s : Machine) : Event → Option Machine
  | .interrupt v regs => some (s.interrupt entry v regs)
  | .interruptReturn => s.interruptReturn
  | .schedulerIsr => s.schedulerIsr
  | .syscallEntry rsp => s.syscallEntry rsp
  | .syscallReturn => s.syscallReturn
  | .setGsBase value => if s.InUser then some { s with cpu := { s.cpu with gsBase := value } } else none
  | .newKernelTask task ip stack kernelPagemap enqueued =>
    if ¬s.InUser ∧ s.Fresh task then
      some { s with
        sched := s.sched.newKernelTask task ip stack kernelPagemap enqueued,
        suspended := Function.update s.suspended task [] }
    else none
  | .newUserTask task ip stack kernelStack pagemap enqueued =>
    if ¬s.InUser ∧ s.Fresh task then
      some { s with
        sched := s.sched.newUserTask task ip stack kernelStack pagemap enqueued,
        suspended := Function.update s.suspended task [],
        isUser := Function.update s.isUser task true,
        leftGs := Function.update s.leftGs task 0 }
    else none
  | .dequeueAndDie => if ¬s.InUser then some { s with sched := s.sched.dequeueAndDie s.cpu } else none

/-- The boot code: kernel code without a task and with a zero GS base. -/
structure Boot (s : Machine) : Prop where
  cs : s.cpu.cs = kernelCode
  gsBase : s.cpu.gsBase = 0
  current : s.current = 0
  stack : s.stack = []
  suspended : ∀ task, s.suspended task = []
  isUser : ∀ task, s.isUser task = false

inductive Reachable (entry : List UInt64 → Bool) (permits : Machine → Event → Prop) (s₀ : Machine) : Machine → Prop where
  | boot : Boot s₀ → Reachable entry permits s₀ s₀
  | step {s s' : Machine} {e : Event} : Reachable entry permits s₀ s → permits s e → s.step entry e = some s' →
      Reachable entry permits s₀ s'

def run (entry : List UInt64 → Bool) (s : Machine) : List Event → Option Machine
  | [] => some s
  | e :: events =>
    match s.step entry e with
    | some s => s.run entry events
    | none => none

theorem Reachable.run {entry : List UInt64 → Bool} {s₀ s s' : Machine}
    (reached : Reachable entry (fun _ _ => True) s₀ s) (events : List Event)
    (same : s.run entry events = some s') :
    Reachable entry (fun _ _ => True) s₀ s' := by
  induction events generalizing s with
  | nil =>
    obtain rfl := Option.some.inj same
    exact reached
  | cons e events ih =>
    unfold Machine.run at same
    split at same
    · rename_i step
      exact ih (.step reached trivial step) same
    · cases same

def booted : Machine where
  cpu := { gsBase := 0, kernelGsBase := 0, fsBase := 0, cs := kernelCode, pagemap := 0 }
  sched :=
    { tasks := fun _ => { kernelStack := 0, userStack := 0, pagemap := 0, gprState := {}, gsBase := 0, fsBase := 0 }
      lists := Heads.init (fun _ => ⟨0, 0⟩) 0x100
      schedListHead := 0x100 }
  stack := []
  suspended := fun _ => []
  current := 0
  isUser := fun _ => false
  leftGs := fun _ => 0

theorem booted_boot : Boot booted := ⟨rfl, rfl, rfl, rfl, fun _ => rfl, fun _ => rfl⟩

end Machine

end FishOS.Sched
