import FishOS.Sched.Dispatch

/-!
# Round robin

Timer ticks with nothing but running tasks between them.
-/

namespace FishOS.Sched.Dispatch

open Klib Cpu Rings Runs

/-- A tick, and what the interrupted task did to the processor before it. -/
structure Activation where
  code : Processor → Processor
  frame : InterruptState
  gsBase : ∀ cpu, (code cpu).gsBase = cpu.gsBase

def activate (s : Dispatch) (activation : Activation) : Option Dispatch := do
  let s ← s.step (.run (activation.code s.cpu))
  s.step (.tick activation.frame)

/-- The tasks that the activations resume, in order, unless one of them panics. -/
def resumes (s : Dispatch) : List Activation → Option (List UInt64)
  | [] => some []
  | activation :: rest => do
    let s ← s.activate activation
    let order ← s.resumes rest
    some (s.current :: order)

variable {s s' : Dispatch} {i : Nat}

/-- `scheduler_isr` has the task at index `i` of the list in `IA32_GS_BASE`. -/
structure RunningAt (s : Dispatch) (i : Nat) : Prop where
  listed : s.Listed
  named : s.cpu.gsBase = s.current
  index : s.queue[i]? = some s.current

theorem RunningAt.inside (running : s.RunningAt i) : i < s.queue.length :=
  (List.getElem?_eq_some_iff.mp running.index).1

theorem RunningAt.next (running : s.RunningAt i) :
    (s.sched.lists (schedList s.current)).next = (s.queue[i + 1]?.map schedList).getD s.sched.schedListHead := by
  obtain ⟨inside, here⟩ := List.getElem?_eq_some_iff.mp running.index
  have follows := Ring.next_getElem running.listed.lists (i := i) (by simpa [nodes] using inside)
  simpa [nodes, here] using follows

theorem Listed.first (listed : s.Listed) {task : UInt64} (first : s.queue[0]? = some task) :
    (s.sched.lists s.sched.schedListHead).next = schedList task := by
  have ring := listed.lists
  unfold nodes at ring
  cases filled : s.queue with
  | nil =>
    rw [filled] at first
    cases first
  | cons x rest =>
    rw [filled] at first ring
    obtain rfl := Option.some.inj first
    exact Ring.first ring

theorem RunningAt.nextTask (running : s.RunningAt i) :
    s.sched.nextTask s.current = s.queue[(i + 1) % s.queue.length]? := by
  have inside := running.inside
  have busy : s.current ≠ 0 :=
    (running.listed.objects _ (running.listed.queued _ (List.mem_of_getElem? running.index))).1
  unfold Scheduler.nextTask
  dsimp only
  rw [running.next]
  by_cases more : i + 1 < s.queue.length
  · have queued : s.queue[i + 1] ∈ s.queue := List.getElem_mem more
    obtain ⟨-, linked, apart⟩ := running.listed.objects _ (running.listed.queued _ queued)
    rw [Nat.mod_eq_of_lt more, List.getElem?_eq_getElem more, Option.map_some, Option.getD_some,
      if_pos ⟨busy, linked, apart⟩, listEntry_schedList]
  · have last : i + 1 = s.queue.length := by omega
    have filled : 0 < s.queue.length := by omega
    have first := running.listed.first (List.getElem?_eq_getElem filled)
    have apart := (running.listed.objects _ (running.listed.queued _ (List.getElem_mem filled))).2.2
    rw [last, Nat.mod_self, List.getElem?_eq_none (Nat.le_refl _), Option.map_none, Option.getD_none,
      if_neg fun all => all.2.2 rfl, List.getElem?_eq_getElem filled]
    unfold Heads.empty
    rw [first, if_neg (by simpa using apart), listEntry_schedList]

theorem RunningAt.activate (running : s.RunningAt i) (activation : Activation) :
    ∃ s', s.activate activation = some s' ∧ s'.queue = s.queue ∧ s'.RunningAt ((i + 1) % s.queue.length) := by
  let ran : Dispatch := { s with cpu := activation.code s.cpu }
  have named : ran.cpu.gsBase = ran.current := (activation.gsBase s.cpu).trans running.named
  have stepped : s.step (.run (activation.code s.cpu)) = some ran := rfl
  have orderly : s.Orderly (.run (activation.code s.cpu)) := trivial
  have listed : ran.Listed := step_listed running.listed orderly stepped
  have inside : (i + 1) % s.queue.length < s.queue.length := Nat.mod_lt _ (Nat.zero_lt_of_lt running.inside)
  have found : ran.sched.nextTask ran.current = s.queue[(i + 1) % s.queue.length]? := running.nextTask
  rw [List.getElem?_eq_getElem inside] at found
  obtain ⟨s', stepped, -⟩ := tick_of_nextTask named found activation.frame
  have kept := (listed.tick named stepped).1
  obtain ⟨next, picked, rfl⟩ := tick_cases named stepped
  obtain rfl := Option.some.inj (found.symm.trans picked)
  exact ⟨_, stepped, rfl, kept, rfl, List.getElem?_eq_getElem inside⟩

theorem RunningAt.resumes (running : s.RunningAt i) (activations : List Activation) :
    s.resumes activations =
      some ((List.range activations.length).map fun j => s.queue[(i + 1 + j) % s.queue.length]?.getD 0) := by
  induction activations generalizing s i with
  | nil => rfl
  | cons activation rest ih =>
    obtain ⟨s', activated, queue, running'⟩ := running.activate activation
    have here := running'.index
    rw [queue] at here
    unfold Dispatch.resumes
    rw [activated, Option.bind_eq_bind, Option.bind_some, ih running', Option.bind_eq_bind, Option.bind_some, queue,
      List.length_cons, List.range_succ_eq_map, List.map_cons, List.map_map, Nat.add_zero, here, Option.getD_some]
    refine congrArg (fun order => some (s'.current :: order)) (List.map_congr_left fun j _ => ?_)
    rw [Function.comp_apply, Nat.add_assoc _ 1 j, Nat.mod_add_mod, Nat.add_comm 1 j]

/-- As many activations as there are tasks resume each of them once: the enqueue order, rotated to
start behind the running task. -/
theorem round_robin (listed : s.Listed) (named : s.cpu.gsBase = s.current) (running : s.current ∈ s.queue)
    (activations : List Activation) (count : activations.length = s.queue.length) :
    ∃ order, s.resumes activations = some order ∧ (∀ t ∈ s.queue, order.count t = 1) ∧ order.Perm s.queue ∧
      order = s.queue.rotate (s.queue.idxOf s.current + 1) := by
  have inside := List.idxOf_lt_length_of_mem running
  have here : s.queue[s.queue.idxOf s.current]? = some s.current := by
    rw [List.getElem?_eq_getElem inside, List.getElem_idxOf]
  have nodup : s.queue.Nodup := List.Nodup.of_map _ (List.nodup_cons.mp listed.lists.nodup).2
  have resumed := RunningAt.resumes ⟨listed, named, here⟩ activations
  have around : (List.range s.queue.length).map
      (fun j => s.queue[(s.queue.idxOf s.current + 1 + j) % s.queue.length]?.getD 0) =
      s.queue.rotate (s.queue.idxOf s.current + 1) := by
    have rotated := congrArg (List.map (Option.getD · 0)) (map_range_rotate s.queue (s.queue.idxOf s.current + 1))
    simpa only [List.map_map, Function.comp_def, Option.getD_some, List.map_id'] using rotated
  rw [count, around] at resumed
  refine ⟨_, resumed, fun t queued => ?_, List.rotate_perm _ _, rfl⟩
  rw [(List.rotate_perm _ _).count_eq]
  exact List.count_eq_one_of_mem nodup queued

/-- The second of two tasks is running. -/
theorem round_robin_two : ∃ s : Dispatch, s.queue = [0x1000, 0x2000] ∧ s.current = 0x2000 ∧
    s.resumes [⟨id, {}, fun _ => rfl⟩, ⟨id, {}, fun _ => rfl⟩] = some [0x1000, 0x2000] := by
  obtain ⟨-, s, -, two⟩ := twoTasks
  have running : s.current ∈ s.queue := by
    rw [two.current, two.queue]
    decide
  obtain ⟨order, resumed, -, -, rfl⟩ :=
    round_robin two.listed two.named running [⟨id, {}, fun _ => rfl⟩, ⟨id, {}, fun _ => rfl⟩] (by rw [two.queue]; rfl)
  refine ⟨s, two.queue, two.current, resumed.trans ?_⟩
  rw [two.current, two.queue]
  decide

end FishOS.Sched.Dispatch
