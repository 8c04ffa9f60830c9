import FishOS.Klib.List

/-!
# Interrupt entry and exit

The processor state that a context switch moves, and what the wrappers of
`gate_wrappers.asm` find on the stack. A stack is a list of quadwords, its top first.
The stubs run with interrupts off, so each is one step.
-/

namespace FishOS.Cpu

/-- Selectors of `GDTSegment`, the user ones with the requested privilege level that
`new_user_task` and `sysret` give them. -/
def kernelCode : UInt64 := 0x8

def kernelData : UInt64 := 0x10

def userCode : UInt64 := 0x20 ||| 3

def userData : UInt64 := 0x18 ||| 3

structure InterruptState where
  ds : UInt64 := 0
  es : UInt64 := 0
  r15 : UInt64 := 0
  r14 : UInt64 := 0
  r13 : UInt64 := 0
  r12 : UInt64 := 0
  r11 : UInt64 := 0
  r10 : UInt64 := 0
  r9 : UInt64 := 0
  r8 : UInt64 := 0
  rbp : UInt64 := 0
  rdi : UInt64 := 0
  rsi : UInt64 := 0
  rdx : UInt64 := 0
  rcx : UInt64 := 0
  rbx : UInt64 := 0
  rax : UInt64 := 0
  err : UInt64 := 0
  rip : UInt64 := 0
  cs : UInt64 := 0
  rflags : UInt64 := 0
  rsp : UInt64 := 0
  ss : UInt64 := 0
  deriving DecidableEq

/-- The MSRs, the code segment and the page tables in use. -/
structure Processor where
  gsBase : UInt64
  kernelGsBase : UInt64
  fsBase : UInt64
  cs : UInt64
  pagemap : UInt64
  deriving DecidableEq

def Processor.swapgs (cpu : Processor) : Processor := { cpu with gsBase := cpu.kernelGsBase, kernelGsBase := cpu.gsBase }

def hasErrcode (v : Nat) : Bool := v == 8 || (decide (10 ≤ v) && decide (v ≤ 14)) || v == 17 || v == 21

/-- `QWORD [rsp + offset]`. -/
def qword (stack : List UInt64) (offset : Nat) : UInt64 := stack.getD (offset / 8) 0

/-- What the processor pushes when an interrupt or exception `v` arrives in `state`. -/
def hardwarePush (v : Nat) (state : InterruptState) : List UInt64 :=
  let frame := [state.rip, state.cs, state.rflags, state.rsp, state.ss]
  if hasErrcode v then state.err :: frame else frame

/-- The pushes of `__idt_wrapper_<v>`. -/
def wrapperPush (v : Nat) (stack : List UInt64) : List UInt64 :=
  let stack := if hasErrcode v then stack else 0 :: stack
  UInt64.ofNat v :: stack

/-- `cmp QWORD [rsp + 16], 0x23` at the start of `__idt_wrapper_common`. -/
def entryTest (stack : List UInt64) : Bool := qword stack 16 == 0x23

/-- `cmp QWORD [rsp + 8], 0x23` before the `iretq`. -/
def exitTest (stack : List UInt64) : Bool := qword stack 8 == 0x23

/-- The frame that `__idt_wrapper_common` completes with the registers it pushes itself. -/
def savedState (stack : List UInt64) (regs : InterruptState) : InterruptState :=
  { regs with
    err := qword stack 8, rip := qword stack 16, cs := qword stack 24, rflags := qword stack 32,
    rsp := qword stack 40, ss := qword stack 48 }

def iretStack (state : InterruptState) : List UInt64 :=
  [state.rip, state.cs, state.rflags, state.rsp, state.ss]

theorem entry_stack (v : Nat) (state : InterruptState) :
    wrapperPush v (hardwarePush v state) =
      [UInt64.ofNat v, if hasErrcode v then state.err else 0, state.rip, state.cs, state.rflags, state.rsp,
        state.ss] := by
  unfold wrapperPush hardwarePush
  split <;> rfl

theorem entryTest_eq (v : Nat) (state : InterruptState) :
    entryTest (wrapperPush v (hardwarePush v state)) = (state.rip == 0x23) := by
  rw [entry_stack]
  rfl

theorem exitTest_eq (state : InterruptState) : exitTest (iretStack state) = (state.cs == 0x23) := rfl

theorem savedState_eq (v : Nat) (state : InterruptState) :
    savedState (wrapperPush v (hardwarePush v state)) state =
      { state with err := if hasErrcode v then state.err else 0 } := by
  rw [entry_stack]
  rfl

end FishOS.Cpu
