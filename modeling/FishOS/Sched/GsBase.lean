import FishOS.Sched.Machine

/-!
# GS base discipline

While the kernel runs, `IA32_GS_BASE` is the current task, and while a user task runs
`IA32_KERNEL_GS_BASE` is. `GsHeld` says so for machines whose interrupt entry swaps
exactly on an arrival from user code; `UserGsKept` adds what the other register holds for
user tasks.
-/

namespace FishOS.Sched

open Klib Cpu

namespace Machine

/-- Only the outermost activation was entered from user code. -/
def Nested : List Activation → Prop
  | [] => True
  | .interrupt state :: rest => (state.cs = userCode → rest = []) ∧ Nested rest
  | .syscall :: rest => rest = []

structure GsHeld (s : Machine) : Prop where
  idle : s.InUser → s.stack = []
  nested : Nested s.stack
  saved : ∀ task, Nested (.interrupt (s.sched.tasks task).gprState :: s.suspended task)
  kernel : ¬s.InUser → s.cpu.gsBase = s.current
  user : s.InUser → s.cpu.kernelGsBase = s.current

/-- On permitted arrivals the entry swaps exactly when the interrupted code is user code. -/
def Balances (entry : List UInt64 → Bool) (permits : Machine → Event → Prop) : Prop :=
  ∀ s v regs, permits s (.interrupt v regs) →
    (entry (wrapperPush v (hardwarePush v { regs with cs := s.cpu.cs })) = true ↔ s.InUser)

variable {entry : List UInt64 → Bool} {permits : Machine → Event → Prop} {s₀ s s' : Machine} {e : Event}

theorem kernelCode_ne_userCode : kernelCode ≠ userCode := by decide

theorem Boot.gsHeld (boot : Boot s) : s.GsHeld := by
  have kernel : ¬s.InUser := fun user => kernelCode_ne_userCode (boot.cs.symm.trans user)
  refine ⟨fun user => absurd user kernel, ?_, ?_, fun _ => boot.gsBase.trans boot.current.symm,
    fun user => absurd user kernel⟩
  · rw [boot.stack]
    trivial
  · intro task
    rw [boot.suspended]
    exact ⟨fun _ => rfl, trivial⟩

theorem GsHeld.not_inUser (held : s.GsHeld) (busy : s.stack ≠ []) :
    ¬s.InUser := fun user => busy (held.idle user)

@[simp] theorem leave_cpu (s : Machine) : s.leave.cpu = s.cpu := by unfold leave; split <;> rfl

@[simp] theorem leave_sched (s : Machine) : s.leave.sched = s.sched := by unfold leave; split <;> rfl

@[simp] theorem leave_suspended (s : Machine) :
    s.leave.suspended = s.suspended := by unfold leave; split <;> rfl

@[simp] theorem leave_current (s : Machine) : s.leave.current = s.current := by unfold leave; split <;> rfl

@[simp] theorem leave_isUser (s : Machine) : s.leave.isUser = s.isUser := by unfold leave; split <;> rfl

/-! ### What each step leaves behind -/

theorem interruptReturn_cases (step : s.interruptReturn = some s') :
    ∃ state stack, s.stack = .interrupt state :: stack ∧
      s' = { s with
        cpu := { (if state.cs = userCode then s.cpu.swapgs else s.cpu) with cs := state.cs }, stack := stack } := by
  unfold interruptReturn at step
  split at step
  · rename_i state stack here
    refine ⟨state, stack, here, ?_⟩
    rw [exitTest_eq] at step
    rw [← Option.some.inj step]
    simp only [beq_iff_eq]
    rfl
  · cases step

theorem syscallReturn_cases (step : s.syscallReturn = some s') :
    ∃ stack, s.stack = .syscall :: stack ∧
      s' = { s with cpu := { s.cpu.swapgs with cs := userCode }, stack := stack } := by
  unfold syscallReturn at step
  split at step
  · rename_i stack here
    exact ⟨stack, here, (Option.some.inj step).symm⟩
  · cases step

theorem syscallEntry_cases {rsp : UInt64} (step : s.syscallEntry rsp = some s') :
    s.InUser ∧ s' = { s.leave with
      cpu := { s.cpu.swapgs with cs := kernelCode },
      sched := s.sched.setTask s.cpu.kernelGsBase { s.sched.tasks s.cpu.kernelGsBase with userStack := rsp },
      stack := .syscall :: s.stack } := by
  unfold syscallEntry at step
  split at step
  · rename_i user
    exact ⟨user, (Option.some.inj step).symm⟩
  · cases step

theorem schedulerIsr_cases (step : s.schedulerIsr = some s') :
    ∃ state stack next, s.stack = .interrupt state :: stack ∧
      (s.sched.saveCurrent s.cpu state).nextTask s.cpu.gsBase = some next ∧
      s' = { s with
        cpu := (s.sched.saveCurrent s.cpu state).load s.cpu next,
        sched := s.sched.saveCurrent s.cpu state,
        suspended := (if s.cpu.gsBase ≠ 0 then Function.update s.suspended s.cpu.gsBase stack else s.suspended),
        current := next,
        stack := .interrupt ((s.sched.saveCurrent s.cpu state).tasks next).gprState ::
          (if s.cpu.gsBase ≠ 0 then Function.update s.suspended s.cpu.gsBase stack else s.suspended) next } := by
  unfold schedulerIsr Scheduler.schedulerIsr at step
  split at step
  · rename_i state stack here
    dsimp only at step
    cases found : (s.sched.saveCurrent s.cpu state).nextTask s.cpu.gsBase with
    | none =>
      rw [found] at step
      cases step
    | some next =>
      rw [found] at step
      exact ⟨state, stack, next, here, found, (Option.some.inj step).symm⟩
  · cases step

/-! ### The current task is at hand -/

theorem GsHeld.interrupt {v : Nat} {regs : InterruptState} (held : s.GsHeld)
    (balanced : entry (wrapperPush v (hardwarePush v { regs with cs := s.cpu.cs })) = true ↔ s.InUser) :
    (s.interrupt entry v regs).GsHeld := by
  have cs : (savedState (wrapperPush v (hardwarePush v { regs with cs := s.cpu.cs })) regs).cs = s.cpu.cs := by
    rw [entry_stack]
    rfl
  have kernel : ¬(s.interrupt entry v regs).InUser := kernelCode_ne_userCode
  refine ⟨fun user => absurd user kernel, ?_, ?_, ?_, fun user => absurd user kernel⟩
  · exact ⟨fun user => held.idle (cs.symm.trans user), held.nested⟩
  · simpa [Machine.interrupt] using held.saved
  · intro _
    by_cases user : s.InUser
    · simpa [Machine.interrupt, balanced.mpr user, Processor.swapgs] using held.user user
    · simpa [Machine.interrupt, mt balanced.mp user] using held.kernel user

theorem GsHeld.interruptReturn (held : s.GsHeld) (step : s.interruptReturn = some s') : s'.GsHeld := by
  obtain ⟨state, stack, here, rfl⟩ := interruptReturn_cases step
  have nested := held.nested
  rw [here] at nested
  have gs := held.kernel (held.not_inUser (by simp [here]))
  refine ⟨nested.1, nested.2, held.saved, ?_, ?_⟩
  · intro kernel
    have off : ¬state.cs = userCode := kernel
    simpa only [if_neg off] using gs
  · intro user
    have on : state.cs = userCode := user
    simpa only [if_pos on, Processor.swapgs] using gs

theorem GsHeld.syscallReturn (held : s.GsHeld) (step : s.syscallReturn = some s') : s'.GsHeld := by
  obtain ⟨stack, here, rfl⟩ := syscallReturn_cases step
  have empty : stack = [] := by
    have nested := held.nested
    rw [here] at nested
    exact nested
  have gs := held.kernel (held.not_inUser (by simp [here]))
  exact ⟨fun _ => empty, by rw [empty]; trivial, held.saved, fun kernel => absurd rfl kernel, fun _ => gs⟩

theorem GsHeld.syscallEntry {rsp : UInt64} (held : s.GsHeld) (step : s.syscallEntry rsp = some s') :
    s'.GsHeld := by
  obtain ⟨user, rfl⟩ := syscallEntry_cases step
  refine ⟨fun kernel => absurd kernel kernelCode_ne_userCode, held.idle user, ?_, ?_,
    fun kernel => absurd kernel kernelCode_ne_userCode⟩
  · intro task
    have saved := held.saved task
    simp only [leave_suspended, Scheduler.setTask, Function.update_apply]
    split
    · rename_i same
      rw [same] at saved
      rwa [same]
    · exact saved
  · intro _
    simpa [Processor.swapgs] using held.user user

theorem GsHeld.saveCurrent {state : InterruptState} {stack : List Activation} (held : s.GsHeld)
    (here : s.stack = .interrupt state :: stack) (task : UInt64) :
    Nested (.interrupt ((s.sched.saveCurrent s.cpu state).tasks task).gprState ::
      (if s.cpu.gsBase ≠ 0 then Function.update s.suspended s.cpu.gsBase stack else s.suspended) task) := by
  have nested := held.nested
  rw [here] at nested
  unfold Scheduler.saveCurrent
  split
  · simp only [Scheduler.setTask, Function.update_apply]
    split
    · exact nested
    · exact held.saved task
  · exact held.saved task

theorem GsHeld.schedulerIsr (held : s.GsHeld) (step : s.schedulerIsr = some s') : s'.GsHeld := by
  obtain ⟨state, stack, next, here, _, rfl⟩ := schedulerIsr_cases step
  have kernel := held.not_inUser (by simp [here])
  exact ⟨fun user => absurd user kernel, held.saveCurrent here next, held.saveCurrent here, fun _ => rfl,
    fun user => absurd user kernel⟩

theorem GsHeld.newTask {sched : Scheduler} {task : UInt64} {isUser : UInt64 → Bool} {leftGs : UInt64 → UInt64}
    (held : s.GsHeld) (others : ∀ t, t ≠ task → sched.tasks t = s.sched.tasks t) :
    GsHeld { s with
      sched := sched, suspended := Function.update s.suspended task [], isUser := isUser, leftGs := leftGs } := by
  refine ⟨held.idle, held.nested, ?_, held.kernel, held.user⟩
  intro t
  by_cases same : t = task
  · rw [same]
    simp only [Function.update_self]
    exact ⟨fun _ => rfl, trivial⟩
  · simp only [Function.update_of_ne same, others t same]
    exact held.saved t

theorem newKernelTask_other (s : Scheduler) {t task ip stack kernelPagemap : UInt64} {enqueued : Bool}
    (other : t ≠ task) : (s.newKernelTask task ip stack kernelPagemap enqueued).tasks t = s.tasks t := by
  unfold Scheduler.newKernelTask
  split <;> exact Function.update_of_ne other _ _

theorem newUserTask_other (s : Scheduler) {t task ip stack kernelStack pagemap : UInt64} {enqueued : Bool}
    (other : t ≠ task) : (s.newUserTask task ip stack kernelStack pagemap enqueued).tasks t = s.tasks t := by
  unfold Scheduler.newUserTask
  split <;> exact Function.update_of_ne other _ _

/-- Every step keeps the current task at hand when the entry swaps on arrivals from user code only. -/
theorem gsHeld_step (balanced : Balances entry permits) (held : s.GsHeld) (permitted : permits s e)
    (step : s.step entry e = some s') : s'.GsHeld := by
  cases e with
  | interrupt v regs =>
    obtain rfl : s.interrupt entry v regs = s' := Option.some.inj step
    exact held.interrupt (balanced s v regs permitted)
  | interruptReturn => exact held.interruptReturn step
  | schedulerIsr => exact held.schedulerIsr step
  | syscallEntry rsp => exact held.syscallEntry step
  | syscallReturn => exact held.syscallReturn step
  | setGsBase value =>
    obtain ⟨user, same⟩ := Option.ite_none_right_eq_some.mp step
    obtain rfl := Option.some.inj same
    exact ⟨held.idle, held.nested, held.saved, fun kernel => absurd user kernel, held.user⟩
  | newKernelTask task ip stack kernelPagemap enqueued =>
    obtain ⟨_, same⟩ := Option.ite_none_right_eq_some.mp step
    obtain rfl := Option.some.inj same
    exact held.newTask fun t other => newKernelTask_other s.sched other
  | newUserTask task ip stack kernelStack pagemap enqueued =>
    obtain ⟨_, same⟩ := Option.ite_none_right_eq_some.mp step
    obtain rfl := Option.some.inj same
    exact held.newTask fun t other => newUserTask_other s.sched other
  | dequeueAndDie =>
    obtain ⟨_, same⟩ := Option.ite_none_right_eq_some.mp step
    obtain rfl := Option.some.inj same
    exact ⟨held.idle, held.nested, held.saved, held.kernel, held.user⟩

theorem reachable_gsHeld (balanced : Balances entry permits) (run : Reachable entry permits s₀ s) :
    s.GsHeld := by
  induction run with
  | boot boot => exact boot.gsHeld
  | step _ permitted step held => exact gsHeld_step balanced held permitted step

/-- The interrupted code stands at address `0x23` exactly when it is user code: then the entry
test, which looks at the instruction pointer, decides as one on the code segment would. -/
def RipTellsMode (s : Machine) : Event → Prop
  | .interrupt _ regs => regs.rip = 0x23 ↔ s.InUser
  | _ => True

theorem ripTellsMode_balances : Balances entryTest RipTellsMode := by
  intro s v regs told
  rw [entryTest_eq, beq_iff_eq]
  exact told

/-- In runs whose interrupts all arrive so, every handler finds the current task in GS. The
entry decides by the code segment on no other arrival. -/
theorem handler_gs_base (run : Reachable entryTest RipTellsMode s₀ s) :
    (s.stack ≠ [] → s.current ≠ 0 → s.cpu.gsBase = s.current) ∧
      ∀ v regs, (entryTest (wrapperPush v (hardwarePush v { regs with cs := s.cpu.cs })) = true ↔ s.cpu.cs = 0x23) ↔
        RipTellsMode s (.interrupt v regs) := by
  have held := reachable_gsHeld ripTellsMode_balances run
  refine ⟨fun busy _ => held.kernel (held.not_inUser busy), ?_⟩
  intro v regs
  rw [entryTest_eq, beq_iff_eq]
  exact Iff.rfl

def spawn : Event := .newUserTask 0x1000 0x400000 0x7fff0000 0xffff800000010000 0x2000 true

def timer (rip : UInt64) : Event := .interrupt 32 { rip := rip }

def firstTick : List Event := [spawn, timer 0xffffffff80001000, .schedulerIsr]

theorem handler_gs_base_first_tick :
    ∃ s, booted.run entryTest firstTick = some s ∧ s.current ≠ 0 ∧ s.cpu.gsBase = s.current := by
  have told : RipTellsMode ((booted.run entryTest [spawn]).get (by decide)) (timer 0xffffffff80001000) :=
    iff_of_false (by decide) (by decide +kernel)
  exact ⟨_, rfl, by decide +kernel, (handler_gs_base (.step (e := .schedulerIsr)
    (.step (e := timer _) (.step (e := spawn) (.boot booted_boot) trivial rfl) told rfl)
    trivial rfl)).1 (by decide +kernel) (by decide +kernel)⟩

/-- The second tick arrives in user code: nothing is swapped, and the handler sees the GS base
of the user. -/
theorem handler_loses_task :
    ∃ s₀ s : Machine, Reachable entryTest (fun _ _ => True) s₀ s ∧ s.stack ≠ [] ∧ s.current ≠ 0 ∧
      s.cpu.gsBase ≠ s.current := by
  refine ⟨booted, _, (Reachable.boot booted_boot).run (firstTick ++ [.interruptReturn, timer 0x400010]) rfl, ?_⟩
  decide +kernel

/-! ### The GS base of a user task -/

structure UserGsKept (s : Machine) : Prop extends GsHeld s where
  zero : s.isUser 0 = false
  kernelGs : ¬s.InUser → s.isUser s.current = true → s.cpu.kernelGsBase = s.leftGs s.current
  parked : ∀ t, s.isUser t = true → t ≠ s.current → (s.sched.tasks t).gsBase = s.leftGs t

/-- A tick switches to no user task that was preempted inside the kernel. -/
def ResumesUserMode (s : Machine) : Event → Prop
  | .schedulerIsr => ∀ state stack next, s.stack = .interrupt state :: stack →
      s.sched.nextTask s.cpu.gsBase = some next → s.isUser next = true →
      (if next = s.cpu.gsBase then state else (s.sched.tasks next).gprState).cs &&& 3 = 3
  | _ => True

theorem Boot.userGsKept (boot : Boot s) : s.UserGsKept :=
  { boot.gsHeld with
    zero := boot.isUser 0
    kernelGs := fun _ user => by simp [boot.isUser] at user
    parked := fun t user => by simp [boot.isUser] at user }

theorem saveCurrent_nextTask (sched : Scheduler) (cpu : Processor) (state : InterruptState) (current : UInt64) :
    (sched.saveCurrent cpu state).nextTask current = sched.nextTask current := by
  unfold Scheduler.saveCurrent
  split <;> rfl

theorem saveCurrent_same (sched : Scheduler) (cpu : Processor) (state : InterruptState)
    (some : cpu.gsBase ≠ 0) :
    (sched.saveCurrent cpu state).tasks cpu.gsBase =
      { sched.tasks cpu.gsBase with gprState := state, gsBase := cpu.kernelGsBase, fsBase := cpu.fsBase } := by
  unfold Scheduler.saveCurrent
  rw [if_pos some]
  exact Function.update_self _ _ _

theorem saveCurrent_other (sched : Scheduler) (cpu : Processor) (state : InterruptState) {t : UInt64}
    (other : t ≠ cpu.gsBase) : (sched.saveCurrent cpu state).tasks t = sched.tasks t := by
  unfold Scheduler.saveCurrent
  split
  · exact Function.update_of_ne other _ _
  · rfl

theorem UserGsKept.gsBase_saved {state : InterruptState} (kept : s.UserGsKept) (kernel : ¬s.InUser) {t : UInt64}
    (user : s.isUser t = true) : ((s.sched.saveCurrent s.cpu state).tasks t).gsBase = s.leftGs t := by
  have gs := kept.kernel kernel
  by_cases running : t = s.current
  · have nonzero : s.cpu.gsBase ≠ 0 := by
      intro zero
      rw [running, ← gs, zero, kept.zero] at user
      exact Bool.noConfusion user
    rw [running, ← gs, saveCurrent_same _ _ _ nonzero, gs]
    exact kept.kernelGs kernel (running ▸ user)
  · rw [saveCurrent_other _ _ _ (gs.symm ▸ running)]
    exact kept.parked t user running

theorem UserGsKept.schedulerIsr (kept : s.UserGsKept) (permitted : ResumesUserMode s .schedulerIsr)
    (step : s.schedulerIsr = some s') : s'.UserGsKept := by
  have held := kept.toGsHeld.schedulerIsr step
  obtain ⟨state, stack, next, here, found, rfl⟩ := schedulerIsr_cases step
  have kernel := kept.not_inUser (by simp [here])
  refine { held with zero := kept.zero, kernelGs := ?_, parked := fun t user _ => kept.gsBase_saved kernel user }
  intro _ user
  have resumed := permitted state stack next here (saveCurrent_nextTask s.sched s.cpu state _ ▸ found) user
  have frame : ((s.sched.saveCurrent s.cpu state).tasks next).gprState.cs &&& 3 = 3 := by
    split at resumed
    · rename_i same
      have nonzero : s.cpu.gsBase ≠ 0 := by
        intro zero
        have none : s.isUser 0 = true := zero ▸ same ▸ user
        rw [kept.zero] at none
        exact Bool.noConfusion none
      rw [same, saveCurrent_same _ _ _ nonzero]
      exact resumed
    · rename_i other
      rw [saveCurrent_other _ _ _ other]
      exact resumed
  simp only [Scheduler.load, beq_iff_eq, if_pos frame]
  exact kept.gsBase_saved kernel user

theorem leave_leftGs_self (user : s.InUser) : s.leave.leftGs s.current = s.cpu.gsBase := by
  unfold leave
  rw [if_pos user]
  exact Function.update_self _ _ _

theorem leave_leftGs_other {t : UInt64} (other : s.InUser → t ≠ s.current) : s.leave.leftGs t = s.leftGs t := by
  unfold leave
  split
  · rename_i user
    exact Function.update_of_ne (other user) _ _
  · rfl

theorem UserGsKept.interrupt {v : Nat} {regs : InterruptState} (kept : s.UserGsKept)
    (balanced : entry (wrapperPush v (hardwarePush v { regs with cs := s.cpu.cs })) = true ↔ s.InUser) :
    (s.interrupt entry v regs).UserGsKept := by
  refine { kept.toGsHeld.interrupt balanced with zero := ?_, kernelGs := ?_, parked := ?_ }
  · simpa [Machine.interrupt] using kept.zero
  · intro _ user
    by_cases mode : s.InUser
    · simp [Machine.interrupt, balanced.mpr mode, Processor.swapgs, leave_leftGs_self mode]
    · simp only [Machine.interrupt, leave_isUser, leave_current] at user ⊢
      simpa [mt balanced.mp mode, leave_leftGs_other (fun user => absurd user mode)] using kept.kernelGs mode user
  · intro t user other
    simp only [Machine.interrupt, leave_isUser, leave_current, leave_sched] at user other ⊢
    rw [leave_leftGs_other fun _ => other]
    exact kept.parked t user other

theorem UserGsKept.syscallEntry {rsp : UInt64} (kept : s.UserGsKept) (step : s.syscallEntry rsp = some s') :
    s'.UserGsKept := by
  have held := kept.toGsHeld.syscallEntry step
  obtain ⟨mode, rfl⟩ := syscallEntry_cases step
  refine { held with zero := ?_, kernelGs := ?_, parked := ?_ }
  · simpa using kept.zero
  · intro _ user
    simp [Processor.swapgs, leave_leftGs_self mode]
  · intro t user other
    simp only [leave_isUser, leave_current] at user other ⊢
    have parked := kept.parked t user other
    rw [leave_leftGs_other fun _ => other, Scheduler.setTask]
    simp only [Function.update_apply]
    split
    · rename_i same
      rwa [← same]
    · exact parked

theorem UserGsKept.interruptReturn (kept : s.UserGsKept) (step : s.interruptReturn = some s') :
    s'.UserGsKept := by
  have held := kept.toGsHeld.interruptReturn step
  obtain ⟨state, stack, here, rfl⟩ := interruptReturn_cases step
  have kernel := kept.not_inUser (by simp [here])
  refine { held with zero := kept.zero, kernelGs := ?_, parked := kept.parked }
  intro off user
  have off : ¬state.cs = userCode := off
  simpa only [if_neg off] using kept.kernelGs kernel user

theorem UserGsKept.syscallReturn (kept : s.UserGsKept) (step : s.syscallReturn = some s') : s'.UserGsKept := by
  have held := kept.toGsHeld.syscallReturn step
  obtain ⟨stack, here, rfl⟩ := syscallReturn_cases step
  exact { held with zero := kept.zero, kernelGs := fun off => absurd rfl off, parked := kept.parked }

/-- The entry test agrees with the exit test: it decides by the saved code segment. -/
def SwapsOnUser (entry : List UInt64 → Bool) : Prop :=
  ∀ v state, entry (wrapperPush v (hardwarePush v state)) = true ↔ state.cs = userCode

theorem userGsKept_step (balanced : SwapsOnUser entry) (kept : s.UserGsKept) (permitted : ResumesUserMode s e)
    (step : s.step entry e = some s') : s'.UserGsKept := by
  have balances : Balances entry fun _ _ => True := fun s v regs _ => balanced v _
  have held := gsHeld_step balances kept.toGsHeld trivial step
  cases e with
  | interrupt v regs =>
    obtain rfl : s.interrupt entry v regs = s' := Option.some.inj step
    exact kept.interrupt (balanced v _)
  | interruptReturn => exact kept.interruptReturn step
  | schedulerIsr => exact kept.schedulerIsr permitted step
  | syscallEntry rsp => exact kept.syscallEntry step
  | syscallReturn => exact kept.syscallReturn step
  | setGsBase value =>
    obtain ⟨user, same⟩ := Option.ite_none_right_eq_some.mp step
    obtain rfl := Option.some.inj same
    exact { held with zero := kept.zero, kernelGs := fun kernel => absurd user kernel, parked := kept.parked }
  | newKernelTask task ip stack kernelPagemap enqueued =>
    obtain ⟨⟨_, _, fresh, _⟩, same⟩ := Option.ite_none_right_eq_some.mp step
    obtain rfl := Option.some.inj same
    refine { held with zero := kept.zero, kernelGs := kept.kernelGs, parked := ?_ }
    intro t user other
    rw [newKernelTask_other _ fun same : t = task => by simp [same, fresh] at user]
    exact kept.parked t user other
  | newUserTask task ip stack kernelStack pagemap enqueued =>
    obtain ⟨⟨_, nonzero, _, fresh⟩, same⟩ := Option.ite_none_right_eq_some.mp step
    obtain rfl := Option.some.inj same
    refine { held with zero := ?_, kernelGs := ?_, parked := ?_ }
    · simpa only [Function.update_of_ne nonzero.symm] using kept.zero
    · intro kernel user
      simp only [Function.update_of_ne fresh.symm] at user ⊢
      exact kept.kernelGs kernel user
    · intro t user other
      by_cases same : t = task
      · simp only [same, Function.update_self]
        unfold Scheduler.newUserTask
        split <;> simp [Scheduler.setTask, Scheduler.enqueue]
      · simp only [Function.update_of_ne same] at user ⊢
        rw [newUserTask_other _ same]
        exact kept.parked t user other
  | dequeueAndDie =>
    obtain ⟨_, same⟩ := Option.ite_none_right_eq_some.mp step
    obtain rfl := Option.some.inj same
    exact { held with zero := kept.zero, kernelGs := kept.kernelGs, parked := kept.parked }

theorem reachable_userGsKept (balanced : SwapsOnUser entry) (run : Reachable entry ResumesUserMode s₀ s) :
    s.UserGsKept := by
  induction run with
  | boot boot => exact boot.userGsKept
  | step _ permitted step kept => exact userGsKept_step balanced kept permitted step

theorem enters_user (kernel : ¬s.InUser) (step : s.step entry e = some s') (user : s'.InUser) :
    s'.cpu.gsBase = s.cpu.kernelGsBase ∧ s'.current = s.current ∧ s'.leftGs = s.leftGs ∧
      s'.isUser = s.isUser := by
  cases e with
  | interrupt v regs =>
    obtain rfl : s.interrupt entry v regs = s' := Option.some.inj step
    exact absurd user kernelCode_ne_userCode
  | interruptReturn =>
    obtain ⟨state, stack, _, rfl⟩ := interruptReturn_cases step
    have on : state.cs = userCode := user
    simp only [if_pos on, Processor.swapgs, and_self]
  | schedulerIsr =>
    obtain ⟨state, stack, next, _, _, rfl⟩ := schedulerIsr_cases step
    exact absurd user kernel
  | syscallEntry rsp => exact absurd (syscallEntry_cases step).1 kernel
  | syscallReturn =>
    obtain ⟨stack, _, rfl⟩ := syscallReturn_cases step
    exact ⟨rfl, rfl, rfl, rfl⟩
  | setGsBase value => exact absurd (Option.ite_none_right_eq_some.mp step).1 kernel
  | newKernelTask task ip stack kernelPagemap enqueued =>
    obtain ⟨_, same⟩ := Option.ite_none_right_eq_some.mp step
    obtain rfl := Option.some.inj same
    exact absurd user kernel
  | newUserTask task ip stack kernelStack pagemap enqueued =>
    obtain ⟨_, same⟩ := Option.ite_none_right_eq_some.mp step
    obtain rfl := Option.some.inj same
    exact absurd user kernel
  | dequeueAndDie =>
    obtain ⟨_, same⟩ := Option.ite_none_right_eq_some.mp step
    obtain rfl := Option.some.inj same
    exact absurd user kernel

/-- In runs without a switch to a user task that was preempted inside the kernel, a user task
comes back to user code with the GS base with which it left, so with its Task pointer only if
it had loaded that itself. -/
theorem user_gs_base_kept (balanced : SwapsOnUser entry) (run : Reachable entry ResumesUserMode s₀ s)
    (step : s.step entry e = some s') (kernel : ¬s.InUser) (user : s'.InUser)
    (task : s'.isUser s'.current = true) :
    s'.cpu.gsBase = s'.leftGs s'.current := by
  have kept := reachable_userGsKept balanced run
  obtain ⟨gs, current, left, users⟩ := enters_user kernel step user
  rw [gs, left, current]
  rw [users, current] at task
  exact kept.kernelGs kernel task

/-- `cmp QWORD [rsp + 24], 0x23`: what the entry test would be on the saved code segment. -/
def csTest (stack : List UInt64) : Bool := qword stack 24 == 0x23

theorem csTest_swapsOnUser : SwapsOnUser csTest := by
  intro v state
  rw [entry_stack]
  exact beq_iff_eq

theorem user_gs_base_kept_first_entry :
    ∃ s, booted.run csTest (firstTick ++ [.interruptReturn]) = some s ∧ s.cpu.gsBase = s.leftGs s.current := by
  have arrived : Reachable csTest ResumesUserMode booted _ :=
    .step (e := timer 0xffffffff80001000) (.step (e := spawn) (.boot booted_boot) trivial rfl) trivial rfl
  have ticked : Reachable csTest ResumesUserMode booted _ := .step (e := .schedulerIsr) arrived (by
    rintro state stack next here found -
    obtain rfl : 0x1000 = next := Option.some.inj found
    rw [if_neg (by decide +kernel)]
    decide +kernel) rfl
  exact ⟨_, rfl, user_gs_base_kept (e := .interruptReturn) csTest_swapsOnUser ticked rfl (by decide +kernel)
    (by decide +kernel) (by decide +kernel)⟩

/-- A tick in the middle of a syscall: the task comes back to user code with its Task pointer. -/
theorem syscall_tick_exposes_task :
    ∃ s₀ s s' : Machine, Reachable csTest (fun _ _ => True) s₀ s ∧ s.step csTest .syscallReturn = some s' ∧
      ¬s.InUser ∧ s'.InUser ∧ s'.isUser s'.current = true ∧ s'.leftGs s'.current = 0x1234 ∧
      s'.cpu.gsBase = s'.current := by
  refine ⟨booted, _, _, (Reachable.boot booted_boot).run (firstTick ++
    [.interruptReturn, .setGsBase 0x1234, .syscallEntry 0x7fff0000, timer 0xffffffff80002000, .schedulerIsr,
      .interruptReturn]) rfl, rfl, ?_⟩
  decide +kernel

end Machine

end FishOS.Sched
