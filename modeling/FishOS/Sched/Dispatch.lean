import FishOS.Klib.ListRing
import FishOS.Lib.Runs
import FishOS.Sched.Sched

/-!
# The scheduler's list

New tasks, timer ticks and exits, each without interruption. `current` to `context` are
history: the task that was resumed last, the task objects made, those enqueued and not yet
exited, those that exited, and the context with which each was interrupted last.
-/

namespace FishOS.Sched

open Klib Cpu Rings Runs

structure Context where
  frame : InterruptState
  pagemap : UInt64
  fsBase : UInt64
  deriving DecidableEq

def Task.context (task : Task) : Context := { frame := task.gprState, pagemap := task.pagemap, fsBase := task.fsBase }

structure Dispatch where
  sched : Scheduler
  cpu : Processor
  frame : InterruptState
  current : UInt64
  spawned : List UInt64
  queue : List UInt64
  exited : List UInt64
  context : UInt64 → Context

namespace Dispatch

inductive Event where
  | newKernelTask (task ip stack kernelPagemap : UInt64) (enqueued : Bool)
  | newUserTask (task ip stack kernelStack pagemap : UInt64) (enqueued : Bool)
  | tick (frame : InterruptState)
  | exit
  | run (cpu : Processor)

def spawn (s : Dispatch) (sched : Scheduler) (task : UInt64) (enqueued : Bool) : Dispatch :=
  { s with
    sched := sched
    spawned := task :: s.spawned
    queue := if enqueued then s.queue ++ [task] else s.queue
    context := Function.update s.context task (sched.tasks task).context }

def step (s : Dispatch) : Event → Option Dispatch
  | .newKernelTask task ip stack kernelPagemap enqueued =>
    some (s.spawn (s.sched.newKernelTask task ip stack kernelPagemap enqueued) task enqueued)
  | .newUserTask task ip stack kernelStack pagemap enqueued =>
    some (s.spawn (s.sched.newUserTask task ip stack kernelStack pagemap enqueued) task enqueued)
  | .tick frame => do
    let (sched, cpu, loaded) ← s.sched.schedulerIsr s.cpu frame
    some { s with
      sched := sched
      cpu := cpu
      frame := loaded
      current := cpu.gsBase
      context :=
        if s.current ≠ 0 then
          Function.update s.context s.current { s.context s.current with frame := frame, fsBase := s.cpu.fsBase }
        else s.context }
  | .exit => some { s with
      sched := s.sched.dequeueAndDie s.cpu
      queue := s.queue.erase s.current
      exited := s.current :: s.exited }
  | .run cpu => some { s with cpu := cpu }

/-- An object that `new Task()` can return: task objects are never freed, and lie apart from each
other and from the list head. -/
def Fresh (s : Dispatch) (task : UInt64) : Prop :=
  task ≠ 0 ∧ task ∉ s.spawned ∧ schedList task ≠ 0 ∧ schedList task ≠ s.sched.schedListHead

/-- The running code leaves `IA32_GS_BASE` to the scheduler, and a task exits once. -/
def Sequential (s : Dispatch) : Event → Prop
  | .newKernelTask task _ _ _ _ => s.Fresh task
  | .newUserTask task _ _ _ _ _ => s.Fresh task
  | .tick _ => True
  | .exit => s.current ∈ s.queue
  | .run cpu => cpu.gsBase = s.cpu.gsBase

/-- Whatever the running code does, `IA32_GS_BASE` names it in `scheduler_isr` and in `dequeue_and_die`. -/
def Orderly (s : Dispatch) : Event → Prop
  | .newKernelTask task _ _ _ _ => s.Fresh task
  | .newUserTask task _ _ _ _ _ => s.Fresh task
  | .tick _ => s.cpu.gsBase = s.current
  | .exit => s.cpu.gsBase = s.current ∧ s.current ∈ s.queue
  | .run _ => True

/-- The boot code after `sched_list_head.init()`. -/
structure Boot (s : Dispatch) : Prop where
  head : s.sched.schedListHead ≠ 0
  lists : ∃ heads : Heads, s.sched.lists = heads.init s.sched.schedListHead
  gsBase : s.cpu.gsBase = 0
  current : s.current = 0
  spawned : s.spawned = []
  queue : s.queue = []
  exited : s.exited = []

def nodes (s : Dispatch) : List UInt64 := s.queue.map schedList

structure Listed (s : Dispatch) : Prop where
  head : s.sched.schedListHead ≠ 0
  lists : s.sched.lists.Lists s.sched.schedListHead s.nodes
  objects : ∀ t ∈ s.spawned, t ≠ 0 ∧ schedList t ≠ 0 ∧ schedList t ≠ s.sched.schedListHead
  queued : ∀ t ∈ s.queue, t ∈ s.spawned
  gone : ∀ t ∈ s.exited, t ∈ s.spawned ∧ t ∉ s.queue ∧ (s.sched.lists (schedList t)).next = 0
  running : s.current = 0 ∨ s.current ∈ s.queue ∨ s.current ∈ s.exited

variable {s₀ s s' : Dispatch} {event : Event} {frame : InterruptState} {task next : UInt64}

theorem listEntry_schedList (task : UInt64) : listEntry (schedList task) = task := by
  unfold listEntry schedList
  exact UInt64.add_sub_cancel task _

theorem schedList_injective : Function.Injective schedList := Function.LeftInverse.injective listEntry_schedList

theorem mem_nodes {t : UInt64} :
    schedList t ∈ s.nodes ↔ t ∈ s.queue := List.mem_map_of_injective schedList_injective

theorem Boot.listed (boot : Boot s) : Listed s := by
  obtain ⟨heads, lists⟩ := boot.lists
  refine ⟨boot.head, ?_, ?_, ?_, ?_, Or.inl boot.current⟩
  · unfold nodes
    rw [lists, boot.queue]
    exact Heads.lists_init heads _
  · rw [boot.spawned]
    exact fun t member => nomatch member
  · rw [boot.queue]
    exact fun t member => nomatch member
  · rw [boot.exited]
    exact fun t member => nomatch member

@[simp] theorem lists_saveCurrent (sched : Scheduler) (cpu : Processor) (frame : InterruptState) :
    (sched.saveCurrent cpu frame).lists = sched.lists := by
  unfold Scheduler.saveCurrent
  split <;> rfl

@[simp] theorem head_saveCurrent (sched : Scheduler) (cpu : Processor) (frame : InterruptState) :
    (sched.saveCurrent cpu frame).schedListHead = sched.schedListHead := by
  unfold Scheduler.saveCurrent
  split <;> rfl

theorem nextTask_saveCurrent (sched : Scheduler) (cpu : Processor) (frame : InterruptState) (current : UInt64) :
    (sched.saveCurrent cpu frame).nextTask current = sched.nextTask current := by
  unfold Scheduler.nextTask
  rw [lists_saveCurrent, head_saveCurrent]

theorem Listed.next_mem (listed : Listed s) {x : UInt64} (member : x ∈ s.sched.schedListHead :: s.nodes)
    (other : (s.sched.lists x).next ≠ s.sched.schedListHead) :
    ∃ t ∈ s.queue, schedList t = (s.sched.lists x).next := by
  rcases List.mem_cons.mp (Ring.next_mem listed.lists member) with back | inside
  · exact absurd back other
  · exact List.mem_map.mp inside

theorem Listed.gone_not_prev (listed : Listed s) {t x : UInt64} (gone : t ∈ s.exited)
    (member : x ∈ s.sched.schedListHead :: s.nodes) : schedList t ≠ (s.sched.lists x).prev := by
  intro same
  obtain ⟨made, out, -⟩ := listed.gone t gone
  have found := Ring.prev_mem listed.lists member
  rw [← same, List.mem_cons, mem_nodes] at found
  exact found.elim (listed.objects t made).2.2 out

theorem Listed.nextTask (listed : Listed s) : s.queue = [] ∧ s.sched.nextTask s.current = none ∨
    ∃ next ∈ s.queue, s.sched.nextTask s.current = some next := by
  unfold Scheduler.nextTask
  dsimp only
  split
  · rename_i follows
    obtain ⟨busy, linked, other⟩ := follows
    rcases listed.running with idle | queued | gone
    · exact absurd idle busy
    · obtain ⟨t, member, same⟩ := listed.next_mem (.tail _ (mem_nodes.mpr queued)) other
      refine Or.inr ⟨t, member, ?_⟩
      rw [← same, listEntry_schedList]
    · exact absurd (listed.gone _ gone).2.2 linked
  · have empty := listed.lists.empty_iff
    split
    · rename_i none
      exact Or.inl ⟨List.map_eq_nil_iff.mp (empty.mp none), rfl⟩
    · rename_i some
      have other : (s.sched.lists s.sched.schedListHead).next ≠ s.sched.schedListHead := by
        simpa [Heads.empty] using some
      obtain ⟨t, member, same⟩ := listed.next_mem (.head _) other
      refine Or.inr ⟨t, member, ?_⟩
      rw [← same, listEntry_schedList]

theorem tick_cases (named : s.cpu.gsBase = s.current) (stepped : s.step (.tick frame) = some s') :
    ∃ next, s.sched.nextTask s.current = some next ∧ s' = { s with
      sched := s.sched.saveCurrent s.cpu frame
      cpu := (s.sched.saveCurrent s.cpu frame).load s.cpu next
      frame := ((s.sched.saveCurrent s.cpu frame).tasks next).gprState
      current := next
      context :=
        if s.current ≠ 0 then
          Function.update s.context s.current { s.context s.current with frame := frame, fsBase := s.cpu.fsBase }
        else s.context } := by
  obtain ⟨⟨sched, cpu, loaded⟩, ran, returned⟩ := Option.bind_eq_some_iff.mp stepped
  obtain rfl := Option.some.inj returned
  unfold Scheduler.schedulerIsr at ran
  dsimp only at ran
  rw [nextTask_saveCurrent, named] at ran
  split at ran
  · cases ran
  · rename_i next found
    obtain ⟨rfl, pair⟩ := Prod.mk.inj (Option.some.inj ran)
    obtain ⟨rfl, rfl⟩ := Prod.mk.inj pair
    exact ⟨next, found, rfl⟩

theorem tick_of_nextTask (named : s.cpu.gsBase = s.current) (found : s.sched.nextTask s.current = some next)
    (frame : InterruptState) :
    ∃ s', s.step (.tick frame) = some s' ∧ s'.current = next := by
  have ran : s.sched.schedulerIsr s.cpu frame = some (s.sched.saveCurrent s.cpu frame,
      (s.sched.saveCurrent s.cpu frame).load s.cpu next, ((s.sched.saveCurrent s.cpu frame).tasks next).gprState) := by
    unfold Scheduler.schedulerIsr
    dsimp only
    rw [nextTask_saveCurrent, named, found]
  unfold step
  dsimp only
  rw [ran]
  exact ⟨_, rfl, rfl⟩

theorem Listed.tick_isSome (listed : Listed s) (named : s.cpu.gsBase = s.current) (filled : s.queue ≠ []) :
    (s.step (.tick frame)).isSome := by
  obtain ⟨next, -, found⟩ := listed.nextTask.resolve_left fun none => filled none.1
  obtain ⟨s', stepped, -⟩ := tick_of_nextTask named found frame
  exact Option.isSome_iff_exists.mpr ⟨s', stepped⟩

theorem Listed.spawn {sched : Scheduler} {enqueued : Bool} (listed : Listed s) (fresh : s.Fresh task)
    (head : sched.schedListHead = s.sched.schedListHead)
    (lists : sched.lists = if enqueued then s.sched.lists.addBefore s.sched.schedListHead (schedList task) else s.sched.lists) :
    Listed (s.spawn sched task enqueued) := by
  obtain ⟨nonzero, new, linkable, apart⟩ := fresh
  have unqueued : task ∉ s.queue := fun member => new (listed.queued task member)
  have outside : schedList task ∉ s.sched.schedListHead :: s.nodes := by
    rw [List.mem_cons, mem_nodes]
    exact not_or.mpr ⟨apart, unqueued⟩
  have queue : ∀ t, t ∈ (if enqueued then s.queue ++ [task] else s.queue) → t = task ∨ t ∈ s.queue := by
    intro t member
    split at member
    · simpa [or_comm] using member
    · exact Or.inr member
  refine ⟨head ▸ listed.head, ?_, ?_, ?_, ?_, ?_⟩
  · dsimp only [Dispatch.spawn, nodes]
    rw [head, lists]
    cases enqueued with
    | true =>
      rw [if_pos rfl, if_pos rfl, List.map_append]
      exact listed.lists.addBefore outside
    | false => exact listed.lists
  · dsimp only [Dispatch.spawn]
    rw [head]
    exact List.forall_mem_cons.mpr ⟨⟨nonzero, linkable, apart⟩, listed.objects⟩
  · intro t member
    rcases queue t member with rfl | old
    · exact .head _
    · exact .tail _ (listed.queued t old)
  · intro t member
    obtain ⟨made, out, unlinked⟩ := listed.gone t member
    have other : t ≠ task := fun same => new (same ▸ made)
    refine ⟨.tail _ made, fun back => (queue t back).elim other out, ?_⟩
    dsimp only [Dispatch.spawn]
    rw [lists]
    cases enqueued with
    | false => exact unlinked
    | true =>
      have last := listed.gone_not_prev member (.head _)
      rw [if_pos rfl, Heads.next_addBefore, if_neg fun same => other (schedList_injective same), if_neg last]
      exact unlinked
  · refine listed.running.imp id (Or.imp_left fun queued => ?_)
    dsimp only [Dispatch.spawn]
    split
    · exact List.mem_append_left _ queued
    · exact queued

theorem Listed.tick (listed : Listed s) (named : s.cpu.gsBase = s.current)
    (stepped : s.step (.tick frame) = some s') :
    Listed s' ∧ s'.current ∈ s.queue := by
  obtain ⟨next, found, rfl⟩ := tick_cases named stepped
  have queued : next ∈ s.queue := by
    rcases listed.nextTask with ⟨-, none⟩ | ⟨t, member, same⟩
    · exact nomatch none.symm.trans found
    · obtain rfl := Option.some.inj (found.symm.trans same)
      exact member
  refine ⟨⟨?_, ?_, ?_, listed.queued, ?_, Or.inr (Or.inl queued)⟩, queued⟩
  all_goals simp only [head_saveCurrent, lists_saveCurrent]
  · exact listed.head
  · exact listed.lists
  · exact listed.objects
  · exact listed.gone

theorem Listed.exit (listed : Listed s) (named : s.cpu.gsBase = s.current) (alive : s.current ∈ s.queue)
    (stepped : s.step .exit = some s') : Listed s' := by
  obtain rfl := Option.some.inj stepped
  obtain ⟨before, after, split⟩ := List.append_of_mem alive
  have nodup : s.queue.Nodup := List.Nodup.of_map _ (List.nodup_cons.mp listed.lists.nodup).2
  have erased : s.queue.erase s.current = before ++ after := by
    rw [split] at nodup ⊢
    have absent := (List.nodup_cons.mp (List.nodup_middle.mp nodup)).1
    rw [List.erase_append_right _ fun early => absent (List.mem_append_left _ early), List.erase_cons_head]
  have left : s.current ∉ s.queue.erase s.current := nodup.not_mem_erase
  refine ⟨listed.head, ?_, listed.objects, fun t member => listed.queued t (List.mem_of_mem_erase member), ?_,
    Or.inr (Or.inr (.head _))⟩
  · have lists := listed.lists
    unfold nodes at lists ⊢
    dsimp only [Scheduler.dequeueAndDie]
    rw [erased, named, List.map_append]
    rw [split, List.map_append, List.map_cons] at lists
    exact lists.remove
  · dsimp only [Scheduler.dequeueAndDie]
    rw [named]
    refine List.forall_mem_cons.mpr ⟨⟨listed.queued _ alive, left, ?_⟩, ?_⟩
    · rw [Heads.next_remove, if_pos rfl]
    · intro t member
      obtain ⟨made, out, unlinked⟩ := listed.gone t member
      have before := listed.gone_not_prev member (.tail _ (mem_nodes.mpr alive))
      refine ⟨made, fun back => out (List.mem_of_mem_erase back), ?_⟩
      rw [Heads.next_remove, if_neg before, unlinked, ite_self]

theorem step_listed (listed : Listed s) (orderly : Orderly s event) (stepped : s.step event = some s') :
    Listed s' := by
  cases event with
  | newKernelTask task ip stack kernelPagemap enqueued =>
    obtain rfl := Option.some.inj stepped
    refine listed.spawn orderly ?_ ?_ <;> unfold Scheduler.newKernelTask <;> cases enqueued <;> rfl
  | newUserTask task ip stack kernelStack pagemap enqueued =>
    obtain rfl := Option.some.inj stepped
    refine listed.spawn orderly ?_ ?_ <;> unfold Scheduler.newUserTask <;> cases enqueued <;> rfl
  | tick frame => exact (listed.tick orderly stepped).1
  | exit => exact listed.exit orderly.1 orderly.2 stepped
  | run cpu =>
    obtain rfl := Option.some.inj stepped
    exact ⟨listed.head, listed.lists, listed.objects, listed.queued, listed.gone, listed.running⟩

theorem step_named (named : s.cpu.gsBase = s.current) (permitted : Sequential s event)
    (stepped : s.step event = some s') :
    s'.cpu.gsBase = s'.current := by
  cases event with
  | newKernelTask task ip stack kernelPagemap enqueued =>
    obtain rfl := Option.some.inj stepped
    exact named
  | newUserTask task ip stack kernelStack pagemap enqueued =>
    obtain rfl := Option.some.inj stepped
    exact named
  | tick frame =>
    obtain ⟨next, -, rfl⟩ := tick_cases named stepped
    rfl
  | exit =>
    obtain rfl := Option.some.inj stepped
    exact named
  | run cpu =>
    obtain rfl := Option.some.inj stepped
    exact permitted.trans named

theorem Sequential.orderly (permitted : Sequential s event) (named : s.cpu.gsBase = s.current) :
    Orderly s event := by
  cases event with
  | newKernelTask task ip stack kernelPagemap enqueued => exact permitted
  | newUserTask task ip stack kernelStack pagemap enqueued => exact permitted
  | tick frame => exact named
  | exit => exact ⟨named, permitted⟩
  | run cpu => trivial

theorem run_named (boot : Boot s₀) (run : Run step Sequential s₀ s) : s.cpu.gsBase = s.current :=
  run.invariant (P := fun s => s.cpu.gsBase = s.current) (boot.gsBase.trans boot.current.symm) step_named

theorem run_orderly (boot : Boot s₀) (run : Run step Sequential s₀ s) : Run step Orderly s₀ s :=
  run.mono (P := fun s => s.cpu.gsBase = s.current) (boot.gsBase.trans boot.current.symm) step_named
    fun named permitted => permitted.orderly named

theorem run_listed (boot : Boot s₀) (run : Run step Orderly s₀ s) : Listed s :=
  run.invariant boot.listed step_listed

/-- In every state of a run, the list is a ring of the tasks that were enqueued and did not exit,
oldest first, and a tick resumes one of them if there is one. -/
theorem scheduler_list_integrity (boot : Boot s₀) (run : Run step Sequential s₀ s) :
    s.sched.lists.Lists s.sched.schedListHead (s.queue.map schedList) ∧
      (∀ x ∈ s.sched.schedListHead :: s.queue.map schedList,
        (s.sched.lists (s.sched.lists x).next).prev = x ∧ (s.sched.lists (s.sched.lists x).prev).next = x) ∧
      ∀ frame, (s.queue ≠ [] → (s.step (.tick frame)).isSome) ∧
        ∀ s', s.step (.tick frame) = some s' → s'.current ∈ s.queue ∧ s'.current ∉ s.exited := by
  have listed := run_listed boot (run_orderly boot run)
  have named := run_named boot run
  refine ⟨listed.lists, ?_, ?_⟩
  · intro x member
    exact ⟨Ring.prev_next listed.lists member, Ring.next_prev listed.lists member⟩
  · intro frame
    refine ⟨listed.tick_isSome named, ?_⟩
    intro s' stepped
    have queued := (listed.tick named stepped).2
    exact ⟨queued, fun gone => (listed.gone _ gone).2.1 queued⟩

def start : Dispatch where
  sched :=
    { tasks := fun _ => { kernelStack := 0, userStack := 0, pagemap := 0, gprState := {}, gsBase := 0, fsBase := 0 }
      lists := Heads.init (fun _ => ⟨0, 0⟩) 0x100
      schedListHead := 0x100 }
  cpu := { gsBase := 0, kernelGsBase := 0, fsBase := 0, cs := kernelCode, pagemap := 0 }
  frame := {}
  current := 0
  spawned := []
  queue := []
  exited := []
  context := fun _ => { frame := {}, pagemap := 0, fsBase := 0 }

theorem start_boot : Boot start := ⟨by decide, ⟨_, rfl⟩, rfl, rfl, rfl, rfl, rfl⟩

/-- The two tasks, one of which is running, and an object for a third one. -/
structure TwoTasks (s : Dispatch) (running : UInt64) : Prop where
  reached : Run step Sequential start s
  queue : s.queue = [0x1000, 0x2000]
  current : s.current = running
  third : s.Fresh 0x3000

theorem TwoTasks.named {running : UInt64} (two : TwoTasks s running) : s.cpu.gsBase = s.current :=
  run_named start_boot two.reached

theorem TwoTasks.listed {running : UInt64} (two : TwoTasks s running) : Listed s :=
  run_listed start_boot (run_orderly start_boot two.reached)

theorem TwoTasks.tick {running : UInt64} (two : TwoTasks s running) (stepped : s.step (.tick {}) = some s')
    (picked : s'.current = next) : TwoTasks s' next := by
  obtain ⟨t, -, rfl⟩ := tick_cases two.named stepped
  have third := two.third
  have permitted : Sequential s (.tick {}) := trivial
  refine ⟨.snoc two.reached permitted stepped, two.queue, picked, ?_⟩
  unfold Fresh at third ⊢
  rwa [head_saveCurrent]

theorem twoTasks : ∃ s s', TwoTasks s 0x1000 ∧ TwoTasks s' 0x2000 := by
  let s₁ := start.spawn (start.sched.newKernelTask 0x1000 0x400 0x800 0x600 true) 0x1000 true
  let s₂ := s₁.spawn (s₁.sched.newKernelTask 0x2000 0x500 0x900 0x600 true) 0x2000 true
  have first : Sequential start (.newKernelTask 0x1000 0x400 0x800 0x600 true) :=
    ⟨by decide, List.not_mem_nil, by decide, by decide⟩
  have second : Sequential s₁ (.newKernelTask 0x2000 0x500 0x900 0x600 true) :=
    ⟨by decide, by decide, by decide, by decide⟩
  have spawned : TwoTasks s₂ 0 :=
    ⟨.snoc (.snoc (.refl _) first rfl) second rfl, rfl, rfl, by decide, by decide, by decide, by decide⟩
  have evaluated : ((s₂.step (.tick {})).bind fun s => (s.step (.tick {})).map fun s' => (s.current, s'.current)) =
      some (0x1000, 0x2000) := by
    decide +kernel
  obtain ⟨s, stepped, evaluated⟩ := Option.bind_eq_some_iff.mp evaluated
  obtain ⟨s', stepped', evaluated⟩ := Option.map_eq_some_iff.mp evaluated
  obtain ⟨onFirst, onSecond⟩ := Prod.mk.inj evaluated
  have firstRuns := spawned.tick stepped onFirst
  exact ⟨s, s', firstRuns, firstRuns.tick stepped' onSecond⟩

theorem scheduler_list_integrity_two : ∃ s, Run step Sequential start s ∧ s.queue = [0x1000, 0x2000] ∧
    s.sched.lists.Lists s.sched.schedListHead (s.queue.map schedList) ∧ (s.step (.tick {})).isSome := by
  obtain ⟨s, -, two, -⟩ := twoTasks
  obtain ⟨lists, -, ticks⟩ := scheduler_list_integrity start_boot two.reached
  exact ⟨s, two.reached, two.queue, lists, (ticks {}).1 (by rw [two.queue]; exact List.cons_ne_nil _ _)⟩

def Kept (s : Dispatch) : Prop := ∀ t ∈ s.spawned, (s.sched.tasks t).context = s.context t

theorem Kept.spawn {sched : Scheduler} {enqueued : Bool} (kept : Kept s)
    (others : ∀ t, t ≠ task → sched.tasks t = s.sched.tasks t) : Kept (s.spawn sched task enqueued) := by
  intro t member
  dsimp only [Dispatch.spawn] at member ⊢
  by_cases new : t = task
  · rw [new, Function.update_self]
  · rw [Function.update_of_ne new, others t new]
    exact kept t ((List.mem_cons.mp member).resolve_left new)

theorem tasks_saveCurrent (sched : Scheduler) (cpu : Processor) (frame : InterruptState) (t : UInt64) :
    (sched.saveCurrent cpu frame).tasks t = if cpu.gsBase ≠ 0 ∧ t = cpu.gsBase then
      { sched.tasks t with gprState := frame, gsBase := cpu.kernelGsBase, fsBase := cpu.fsBase } else sched.tasks t := by
  unfold Scheduler.saveCurrent
  by_cases busy : cpu.gsBase ≠ 0
  · rw [if_pos busy]
    by_cases here : t = cpu.gsBase
    · simp [Scheduler.setTask, busy, here]
    · simp [Scheduler.setTask, here]
  · rw [if_neg busy, if_neg fun both => busy both.1]

theorem Kept.tick (kept : Kept s) (named : s.cpu.gsBase = s.current)
    (stepped : s.step (.tick frame) = some s') : Kept s' := by
  obtain ⟨next, -, rfl⟩ := tick_cases named stepped
  intro t member
  dsimp only
  rw [tasks_saveCurrent, named]
  by_cases busy : s.current ≠ 0
  · rw [if_pos busy]
    by_cases here : t = s.current
    · subst here
      rw [if_pos ⟨busy, rfl⟩, Function.update_self, ← kept _ member]
      rfl
    · rw [if_neg fun both => here both.2, Function.update_of_ne here]
      exact kept t member
  · rw [if_neg fun both => busy both.1, if_neg busy]
    exact kept t member

theorem step_kept (kept : Kept s) (orderly : Orderly s event) (stepped : s.step event = some s') : Kept s' := by
  cases event with
  | newKernelTask task ip stack kernelPagemap enqueued =>
    obtain rfl := Option.some.inj stepped
    apply kept.spawn
    intro t other
    unfold Scheduler.newKernelTask
    cases enqueued <;> exact Function.update_of_ne other _ _
  | newUserTask task ip stack kernelStack pagemap enqueued =>
    obtain rfl := Option.some.inj stepped
    apply kept.spawn
    intro t other
    unfold Scheduler.newUserTask
    cases enqueued <;> exact Function.update_of_ne other _ _
  | tick frame => exact kept.tick orderly stepped
  | exit =>
    obtain rfl := Option.some.inj stepped
    exact kept
  | run cpu =>
    obtain rfl := Option.some.inj stepped
    exact kept

/-- A tick installs the context that the resumed task had when it was interrupted last, and touches
no task object but the interrupted one. -/
theorem context_isolation (boot : Boot s₀) (run : Run step Orderly s₀ s) (named : s.cpu.gsBase = s.current)
    (stepped : s.step (.tick frame) = some s') :
    s'.frame = (s'.context s'.current).frame ∧ s'.cpu.pagemap = (s'.context s'.current).pagemap ∧
      s'.cpu.fsBase = (s'.context s'.current).fsBase ∧ s'.cpu.gsBase = s'.current ∧
      ∀ t, t ≠ s.current → s'.sched.tasks t = s.sched.tasks t := by
  have listed := run_listed boot run
  have kept : Kept s := run.invariant (P := Kept) (fun t member => by
    rw [boot.spawned] at member
    exact nomatch member) step_kept
  have queued := (listed.tick named stepped).2
  have after := kept.tick named stepped
  obtain ⟨next, -, rfl⟩ := tick_cases named stepped
  have same := after next (listed.queued next queued)
  dsimp only at same ⊢
  rw [← same]
  refine ⟨rfl, rfl, rfl, rfl, ?_⟩
  intro t other
  rw [tasks_saveCurrent, named, if_neg fun both => other both.2]

theorem context_isolation_two : ∃ s s', Run step Orderly start s ∧ s.step (.tick { rax := 7 }) = some s' ∧
    s'.frame = (s'.context s'.current).frame := by
  obtain ⟨s, -, two, -⟩ := twoTasks
  have some : (s.step (.tick { rax := 7 })).isSome :=
    two.listed.tick_isSome two.named (by rw [two.queue]; exact List.cons_ne_nil _ _)
  obtain ⟨s', stepped⟩ := Option.isSome_iff_exists.mp some
  have run := run_orderly start_boot two.reached
  exact ⟨s, s', run, stepped, (context_isolation start_boot run two.named stepped).1⟩

end Dispatch

end FishOS.Sched
