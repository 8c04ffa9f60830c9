import FishOS.Sched.Dispatch

/-!
# Enqueueing under preemption

The four stores of `add_before` on the scheduler's list, with timer ticks between them.
-/

namespace FishOS.Sched

open Klib Cpu Rings Runs

/-- The nodes whose `next` pointers `scheduler_isr` reads. -/
def Scheduler.nextReads (s : Scheduler) (current : UInt64) : List UInt64 :=
  let next := (s.lists (schedList current)).next
  if current ≠ 0 then
    if next ≠ 0 ∧ next ≠ s.schedListHead then [schedList current] else [schedList current, s.schedListHead]
  else [s.schedListHead]

/-- `entry` is the new task, of whose stores `stores` are done. -/
structure Adding where
  base : Dispatch
  entry : UInt64
  stores : Nat

namespace Adding

inductive Event where
  | store
  | tick (frame : InterruptState)

def stored (s : Adding) : Scheduler :=
  { s.base.sched with
    lists := s.base.sched.lists.addBeforeStore s.base.sched.schedListHead (schedList s.entry) s.stores }

/-- With the last store the new task belongs to the list. -/
def step (s : Adding) : Event → Option Adding
  | .store =>
    if s.stores < 3 then some { s with base := { s.base with sched := s.stored }, stores := s.stores + 1 }
    else if s.stores = 3 then some { s with base := s.base.spawn s.stored s.entry true, stores := 4 }
    else none
  | .tick frame => do
    let base ← s.base.step (.tick frame)
    some { s with base := base }

def Initialised (s : Adding) (x : UInt64) : Prop :=
  x = s.base.sched.schedListHead ∨ (∃ t, (t ∈ s.base.queue ∨ t ∈ s.base.exited) ∧ x = schedList t) ∨
    x = schedList s.entry ∧ 3 ≤ s.stores

/-- A tick follows initialised pointers and resumes a task whose four stores are done. -/
structure GoodTick (s : Adding) (frame : InterruptState) : Prop where
  initialised : ∀ x ∈ s.base.sched.nextReads s.base.current, s.Initialised x
  linked : ∀ s', s.step (.tick frame) = some s' → s'.base.current ∈ s.base.queue

/-- Between the stores, the list is not empty and the running task is not the last one in it. -/
def Safe (s : Adding) : Prop :=
  1 ≤ s.stores → s.stores ≤ 3 → ∃ rest last, s.base.queue = rest ++ [last] ∧ s.base.current ≠ last

def Careful (s : Adding) : Event → Prop
  | .store => True
  | .tick _ => s.Safe

def partly (heads : Heads) (head entry : UInt64) : Nat → Heads
  | 0 => heads
  | n + 1 => (partly heads head entry n).addBeforeStore head entry n

def withLists (s : Dispatch) (heads : Heads) : Dispatch := { s with sched := { s.sched with lists := heads } }

/-- Before the last store, the lists are those of a well-formed state with some of the stores on them. -/
structure Between (s : Adding) (heads : Heads) : Prop where
  before : s.stores ≤ 3
  listed : (withLists s.base heads).Listed
  fresh : s.base.Fresh s.entry
  lists : s.base.sched.lists = partly heads s.base.sched.schedListHead (schedList s.entry) s.stores
  named : s.base.cpu.gsBase = s.base.current

inductive Window (s : Adding) : Prop where
  | between (heads : Heads) (between : s.Between heads)
  | done (after : s.stores = 4) (listed : s.base.Listed) (named : s.base.cpu.gsBase = s.base.current)

variable {s₀ s s' : Adding} {event : Event} {frame : InterruptState} {heads : Heads}

theorem next_partly {head entry x : UInt64} {n : Nat} (before : n ≤ 3) (other : x ≠ entry) :
    (partly heads head entry n x).next = if 1 ≤ n ∧ x = (heads head).prev then entry else (heads x).next := by
  have cases : n = 0 ∨ n = 1 ∨ n = 2 ∨ n = 3 := by omega
  rcases cases with rfl | rfl | rfl | rfl <;> simp [partly, Heads.addBeforeStore, other]

theorem initialised_reads (window : s.Window) :
    ∀ x ∈ s.base.sched.nextReads s.base.current, s.Initialised x := by
  have running : s.base.current = 0 ∨ s.base.current ∈ s.base.queue ∨ s.base.current ∈ s.base.exited := by
    cases window with
    | between heads between => exact between.listed.running
    | done after listed named => exact listed.running
  have own : s.base.current ≠ 0 → s.Initialised (schedList s.base.current) := fun busy =>
    Or.inr (Or.inl ⟨_, running.resolve_left busy, rfl⟩)
  have head : s.Initialised s.base.sched.schedListHead := Or.inl rfl
  unfold Scheduler.nextReads
  dsimp only
  split
  · rename_i busy
    split
    · exact List.forall_mem_singleton.mpr (own busy)
    · exact List.forall_mem_cons.mpr ⟨own busy, List.forall_mem_singleton.mpr head⟩
  · exact List.forall_mem_singleton.mpr head

theorem nextTask_congr {a b : Scheduler} {current : UInt64} (head : b.schedListHead = a.schedListHead)
    (own : current ≠ 0 → (b.lists (schedList current)).next = (a.lists (schedList current)).next)
    (first : (b.lists a.schedListHead).next = (a.lists a.schedListHead).next) :
    b.nextTask current = a.nextTask current := by
  unfold Scheduler.nextTask Heads.empty
  rw [head, first]
  by_cases busy : current ≠ 0
  · rw [own busy]
  · simp only [busy, false_and, if_false]

theorem Between.next {x : UInt64} (between : s.Between heads)
    (member : x = s.base.sched.schedListHead ∨ ∃ t ∈ s.base.spawned, x = schedList t) :
    (s.base.sched.lists x).next =
      if 1 ≤ s.stores ∧ x = (heads s.base.sched.schedListHead).prev then schedList s.entry else (heads x).next := by
  have other : x ≠ schedList s.entry := by
    rcases member with rfl | ⟨t, made, rfl⟩
    · exact Ne.symm between.fresh.2.2.2
    · exact fun same => between.fresh.2.1 (Dispatch.schedList_injective same ▸ made)
  rw [between.lists, next_partly between.before other]

theorem Between.made (between : s.Between heads) (busy : s.base.current ≠ 0) :
    s.base.current ∈ s.base.spawned := by
  rcases between.listed.running with idle | queued | gone
  · exact absurd idle busy
  · exact between.listed.queued _ queued
  · exact (between.listed.gone _ gone).1

theorem Between.last {rest : List UInt64} {last : UInt64} (between : s.Between heads)
    (queue : s.base.queue = rest ++ [last]) :
    (heads s.base.sched.schedListHead).prev = schedList last := by
  have ring := between.listed.lists
  unfold Dispatch.nodes at ring
  dsimp only [withLists] at ring
  rw [queue, List.map_append] at ring
  exact Ring.last ring

theorem Between.nextTask_safe (between : s.Between heads) (safe : s.Safe) :
    s.base.sched.nextTask s.base.current = (withLists s.base heads).sched.nextTask s.base.current := by
  have apart : ∀ x, (x = s.base.sched.schedListHead ∨ x = schedList s.base.current) → 1 ≤ s.stores →
      x ≠ (heads s.base.sched.schedListHead).prev := by
    intro x which stored
    obtain ⟨rest, last, queue, other⟩ := safe stored between.before
    have queued : last ∈ s.base.queue := by
      rw [queue]
      exact List.mem_append_right _ (.head _)
    rw [between.last queue]
    rcases which with rfl | rfl
    · exact Ne.symm (between.listed.objects last (between.listed.queued last queued)).2.2
    · exact fun same => other (Dispatch.schedList_injective same)
  refine nextTask_congr rfl (fun busy => ?_) ?_
  · rw [between.next (Or.inr ⟨_, between.made busy, rfl⟩), if_neg fun both => apart _ (Or.inr rfl) both.1 both.2]
    rfl
  · dsimp only [withLists]
    rw [between.next (Or.inl rfl), if_neg fun both => apart _ (Or.inl rfl) both.1 both.2]

/-- An unsafe tick picks the new task. -/
theorem Between.nextTask_unsafe (between : s.Between heads) (wrong : ¬s.Safe) :
    s.base.sched.nextTask s.base.current = some s.entry := by
  unfold Safe at wrong
  obtain ⟨stored, wrong⟩ := Classical.not_imp.mp wrong
  obtain ⟨-, wrong⟩ := Classical.not_imp.mp wrong
  obtain ⟨-, -, linkable, apart⟩ := between.fresh
  unfold Scheduler.nextTask
  dsimp only
  rcases List.eq_nil_or_concat s.base.queue with empty | ⟨rest, last, filled⟩
  · -- the head is the node before the new one, and the running task has a null link
    have ring := between.listed.lists
    unfold Dispatch.nodes at ring
    dsimp only [withLists] at ring
    rw [empty] at ring
    have tail : (heads s.base.sched.schedListHead).prev = s.base.sched.schedListHead := ring.chain.rel.2
    have unlinked : ¬(s.base.current ≠ 0 ∧ (s.base.sched.lists (schedList s.base.current)).next ≠ 0 ∧
        (s.base.sched.lists (schedList s.base.current)).next ≠ s.base.sched.schedListHead) := by
      rintro ⟨busy, linked, -⟩
      have made := between.made busy
      have other := (between.listed.objects _ made).2.2
      rw [between.next (Or.inr ⟨_, made, rfl⟩), tail, if_neg fun both => other both.2] at linked
      rcases between.listed.running with idle | queued | gone
      · exact busy idle
      · dsimp only [withLists] at queued
        rw [empty] at queued
        cases queued
      · exact linked (between.listed.gone _ gone).2.2
    have first := between.next (Or.inl rfl)
    rw [if_pos ⟨stored, tail.symm⟩] at first
    rw [if_neg unlinked]
    unfold Heads.empty
    rw [first, if_neg (by simpa using apart), Dispatch.listEntry_schedList]
  · rw [List.concat_eq_append] at filled
    have here : s.base.current = last := by
      by_contra other
      exact wrong ⟨rest, last, filled, other⟩
    have queued : last ∈ s.base.queue := by
      rw [filled]
      exact List.mem_append_right _ (.head _)
    have made := between.listed.queued last queued
    have busy := (between.listed.objects last made).1
    have next := between.next (Or.inr ⟨last, made, rfl⟩)
    rw [if_pos ⟨stored, (between.last filled).symm⟩] at next
    rw [here, next, if_pos ⟨busy, linkable, apart⟩, Dispatch.listEntry_schedList]

theorem Between.tick_queued (between : s.Between heads) (safe : s.Safe)
    {base : Dispatch} (stepped : s.base.step (.tick frame) = some base) : base.current ∈ s.base.queue := by
  obtain ⟨next, found, rfl⟩ := Dispatch.tick_cases between.named stepped
  rw [between.nextTask_safe safe] at found
  rcases between.listed.nextTask with ⟨-, none⟩ | ⟨t, queued, same⟩
  · exact nomatch none.symm.trans found
  · obtain rfl := Option.some.inj (found.symm.trans same)
    exact queued

theorem goodTick_iff (window : s.Window) (frame : InterruptState) :
    s.GoodTick frame ↔ s.Safe := by
  cases window with
  | done after listed named =>
    refine iff_of_true ⟨initialised_reads (.done after listed named), fun s' stepped => ?_⟩ fun _ before => by omega
    obtain ⟨base, ticked, returned⟩ := Option.bind_eq_some_iff.mp stepped
    obtain rfl := Option.some.inj returned
    exact (listed.tick named ticked).2
  | between heads between =>
    refine ⟨?_, fun safe => ⟨initialised_reads (.between heads between), ?_⟩⟩
    · intro good
      by_contra wrong
      obtain ⟨base, ticked, resumed⟩ :=
        Dispatch.tick_of_nextTask between.named (between.nextTask_unsafe wrong) frame
      have stepped : s.step (.tick frame) = some { s with base := base } := by
        unfold step
        dsimp only
        rw [ticked]
        rfl
      have queued := good.linked _ stepped
      dsimp only at queued
      rw [resumed] at queued
      exact between.fresh.2.1 (between.listed.queued _ queued)
    · intro s' stepped
      obtain ⟨base, ticked, returned⟩ := Option.bind_eq_some_iff.mp stepped
      obtain rfl := Option.some.inj returned
      exact between.tick_queued safe ticked

theorem Between.store (between : s.Between heads) (stepped : s.step .store = some s') : s'.Window := by
  obtain ⟨before, listed, fresh, lists, named⟩ := between
  unfold step at stepped
  dsimp only at stepped
  split at stepped
  · rename_i further
    obtain rfl := Option.some.inj stepped
    refine .between heads ⟨further, listed, fresh, ?_, named⟩
    dsimp only [stored]
    rw [lists]
    rfl
  · split at stepped
    · rename_i last
      obtain rfl := Option.some.inj stepped
      have spawned : ((withLists s.base heads).spawn s.stored s.entry true).Listed := by
        refine listed.spawn fresh rfl ?_
        unfold stored
        dsimp only [withLists]
        rw [lists, last, if_pos rfl, Heads.addBefore_eq]
        rfl
      exact .done rfl spawned named
    · cases stepped

theorem step_window (window : s.Window) (careful : Careful s event) (stepped : s.step event = some s') :
    s'.Window := by
  cases event with
  | store =>
    cases window with
    | between heads between => exact between.store stepped
    | done after listed named =>
      unfold step at stepped
      dsimp only at stepped
      rw [if_neg (by omega), if_neg (by omega)] at stepped
      cases stepped
  | tick frame =>
    obtain ⟨base, ticked, returned⟩ := Option.bind_eq_some_iff.mp stepped
    obtain rfl := Option.some.inj returned
    cases window with
    | done after listed named =>
      have kept := (listed.tick named ticked).1
      obtain ⟨next, -, rfl⟩ := Dispatch.tick_cases named ticked
      exact .done after kept rfl
    | between heads between =>
      have queued := between.tick_queued careful ticked
      obtain ⟨next, -, rfl⟩ := Dispatch.tick_cases between.named ticked
      obtain ⟨before, listed, fresh, lists, -⟩ := between
      refine .between heads ⟨before, ?_, ?_, ?_, rfl⟩
      · exact ⟨by simpa [withLists] using listed.head, by simpa [withLists, Dispatch.nodes] using listed.lists,
          by simpa [withLists] using listed.objects, listed.queued, by simpa [withLists] using listed.gone,
          Or.inr (Or.inl queued)⟩
      · unfold Dispatch.Fresh at fresh ⊢
        dsimp only
        rwa [Dispatch.head_saveCurrent]
      · dsimp only
        rwa [Dispatch.lists_saveCurrent, Dispatch.head_saveCurrent]

/-- As long as no tick between the stores finds the list empty or interrupts its last task, every
tick is good, and a tick is good only then. -/
theorem preempted_enqueue_iff (listed : s₀.base.Listed) (named : s₀.base.cpu.gsBase = s₀.base.current)
    (fresh : s₀.base.Fresh s₀.entry) (start : s₀.stores = 0) (run : Run step Careful s₀ s)
    (frame : InterruptState) :
    s.GoodTick frame ↔ s.Safe := by
  have window : s₀.Window := .between s₀.base.sched.lists ⟨by omega, listed, fresh, by rw [start]; rfl, named⟩
  exact goodTick_iff (run.invariant window step_window) frame

/-- After the first store, with the first of two tasks running. -/
theorem preempted_enqueue_iff_first : ∃ s : Adding, s.stores = 1 ∧ s.GoodTick {} := by
  obtain ⟨base, -, two, -⟩ := Dispatch.twoTasks
  let s₀ : Adding := { base := base, entry := 0x3000, stores := 0 }
  let s : Adding := { base := { base with sched := s₀.stored }, entry := 0x3000, stores := 1 }
  have run : Run step Careful s₀ s := .snoc (.refl _) (show Careful s₀ .store from trivial) rfl
  have safe : s.Safe := fun _ _ => ⟨[0x1000], 0x2000, two.queue, by
    rw [show s.base.current = 0x1000 from two.current]
    decide⟩
  exact ⟨s, rfl, (preempted_enqueue_iff two.listed two.named two.third rfl run {}).mpr safe⟩

/-- After the first store, with the last of two tasks running, a tick resumes the new task. -/
theorem preempted_enqueue_resumes_new :
    ∃ s₀ s s' : Adding, s₀.base.Listed ∧ s₀.base.Fresh s₀.entry ∧ s₀.stores = 0 ∧
    s₀.step .store = some s ∧ s.base.cpu.gsBase = s.base.current ∧ s.step (.tick {}) = some s' ∧ s.stores = 1 ∧
    s'.base.current = s.entry ∧ s.entry ∉ s.base.queue := by
  obtain ⟨-, base, -, two⟩ := Dispatch.twoTasks
  have listed := two.listed
  let s₀ : Adding := { base := base, entry := 0x3000, stores := 0 }
  let s : Adding := { base := { base with sched := s₀.stored }, entry := 0x3000, stores := 1 }
  have between : s.Between base.sched.lists := ⟨Nat.le_add_left 1 2, listed, two.third, rfl, two.named⟩
  have wrong : ¬s.Safe := by
    intro safe
    obtain ⟨rest, last, queue, other⟩ := safe (Nat.le_refl 1) (Nat.le_add_left 1 2)
    have split : [0x1000] ++ [0x2000] = rest ++ [last] := two.queue.symm.trans queue
    have same := List.append_inj_right' split rfl
    exact other (two.current.trans (List.singleton_inj.mp same))
  obtain ⟨base', ticked, resumed⟩ := Dispatch.tick_of_nextTask between.named (between.nextTask_unsafe wrong) {}
  refine ⟨s₀, s, { s with base := base' }, listed, two.third, rfl, rfl, two.named, ?_, rfl, resumed, ?_⟩
  · unfold step
    dsimp only
    rw [ticked]
    rfl
  · exact fun queued => two.third.2.1 (listed.queued _ queued)

end Adding

end FishOS.Sched
