import FishOS.Lib.Runs

/-!
# Spinlocks

`klib::Spinlock` and `klib::LockGuard` on one processor, over any set of locks. `lock` turns
interrupts off before it spins, and `unlock` turns them on, whatever they were before.
-/

namespace FishOS.Klib

variable {Lock : Type} [DecidableEq Lock]

/-- The interrupt flag of the processor and `locked` of every spinlock. -/
structure Core (Lock : Type) where
  interrupts : Bool
  locked : Lock → Bool

/-- The constructor and the destructor of a `LockGuard`. -/
inductive GuardEvent (Lock : Type) where
  | acquire (l : Lock)
  | release (l : Lock)
  deriving DecidableEq

namespace Core

def cli (core : Core Lock) : Core Lock := { core with interrupts := false }

def sti (core : Core Lock) : Core Lock := { core with interrupts := true }

def setLocked (core : Core Lock) (l : Lock) (locked : Bool) : Core Lock :=
  { core with locked := fun l' => if l' = l then locked else core.locked l' }

/-- Nothing clears `locked` while the only processor spins on it: the loop ends in the panic. -/
def lock (core : Core Lock) (l : Lock) : Option (Core Lock) :=
  let core := core.cli
  if core.locked l then none else some (core.setLocked l true)

def unlock (core : Core Lock) (l : Lock) : Core Lock := (core.setLocked l false).sti

def step (core : Core Lock) : GuardEvent Lock → Option (Core Lock)
  | .acquire l => core.lock l
  | .release l => some (core.unlock l)

def run (core : Core Lock) (events : List (GuardEvent Lock)) : Option (Core Lock) := events.foldlM step core

/-- At every point of the sequence where a lock is held, interrupts are off. -/
def InterruptsOff (core : Core Lock) (events : List (GuardEvent Lock)) : Prop :=
  ∀ (done : List (GuardEvent Lock)) (core' : Core Lock) (l : Lock),
    done <+: events → core.run done = some core' → core'.locked l = true → core'.interrupts = false

end Core

/-- Guards are destroyed in the reverse order of their construction, and each takes a lock that
none of the others holds. -/
def nest (held : List Lock) : GuardEvent Lock → Option (List Lock)
  | .acquire l => if l ∈ held then none else some (l :: held)
  | .release l => if held.head? = some l then some held.tail else none

/-- The locks that a properly nested sequence of guards still holds at its end, the last one first. -/
def heldAfter (events : List (GuardEvent Lock)) : Option (List Lock) := events.foldlM nest []

def GuardEvent.isRelease : GuardEvent Lock → Bool
  | .acquire _ => false
  | .release _ => true

variable {core core' : Core Lock} {events : List (GuardEvent Lock)} {held : List Lock} {l : Lock}

theorem heldAfter_snoc (events : List (GuardEvent Lock)) (event : GuardEvent Lock) :
    heldAfter (events ++ [event]) = (heldAfter events).bind fun held => nest held event := by
  exact Runs.foldlM_snoc nest [] events event

theorem Core.run_snoc (core : Core Lock) (events : List (GuardEvent Lock)) (event : GuardEvent Lock) :
    core.run (events ++ [event]) = (core.run events).bind fun core => core.step event := by
  exact Runs.foldlM_snoc step core events event

theorem heldAfter_before {event : GuardEvent Lock} (nested : heldAfter (events ++ [event]) = some held) :
    ∃ before, heldAfter events = some before ∧ nest before event = some held := by
  rw [heldAfter_snoc] at nested
  exact Option.bind_eq_some_iff.mp nested

theorem heldAfter_pre {done : List (GuardEvent Lock)} (nested : heldAfter events = some held)
    (early : done <+: events) : ∃ held', heldAfter done = some held' := by
  obtain ⟨rest, rfl⟩ := early
  unfold heldAfter at nested ⊢
  rw [List.foldlM_append] at nested
  obtain ⟨held', before, -⟩ := Option.bind_eq_some_iff.mp nested
  exact ⟨held', before⟩

theorem nest_acquire {held' : List Lock} (nested : nest held (.acquire l) = some held') :
    l ∉ held ∧ held' = l :: held := by
  simp only [nest] at nested
  split at nested
  · cases nested
  · rename_i fresh
    exact ⟨fresh, (Option.some.inj nested).symm⟩

theorem nest_release {held' : List Lock} (nested : nest held (.release l) = some held') :
    held = l :: held' := by
  simp only [nest] at nested
  split at nested
  · rename_i top
    obtain ⟨rest, rfl⟩ := List.head?_eq_some_iff.mp top
    obtain rfl := Option.some.inj nested
    rfl
  · cases nested

/-- What a properly nested sequence of guards leaves behind: it never spins, the locks that are
locked are those still held, and the flag tells whether the last event was an acquisition. -/
theorem Core.run_nested (enabled : core.interrupts = true) (free : ∀ l, core.locked l = false)
    (nested : heldAfter events = some held) : ∃ core', core.run events = some core' ∧ held.Nodup ∧
      (∀ l, core'.locked l = true ↔ l ∈ held) ∧
      core'.interrupts = (events.getLast?.map GuardEvent.isRelease).getD true := by
  induction events using List.reverseRecOn generalizing held with
  | nil =>
    obtain rfl := Option.some.inj nested
    exact ⟨core, rfl, List.nodup_nil, by simp [free], enabled⟩
  | append_singleton events event ih =>
    obtain ⟨before, nested, next⟩ := heldAfter_before nested
    obtain ⟨core₁, ran, distinct, locked, _⟩ := ih nested
    rw [run_snoc, ran, Option.bind_some, List.getLast?_concat]
    cases event with
    | acquire l =>
      obtain ⟨fresh, rfl⟩ := nest_acquire next
      have unlocked : ¬core₁.locked l = true := fun holding => fresh ((locked l).mp holding)
      refine ⟨core₁.cli.setLocked l true, if_neg unlocked, List.nodup_cons.mpr ⟨fresh, distinct⟩, ?_, rfl⟩
      intro l'
      rw [List.mem_cons, ← locked l']
      by_cases same : l' = l
      · simp [setLocked, same]
      · simp [setLocked, cli, same]
    | release l =>
      obtain rfl := nest_release next
      obtain ⟨gone, distinct⟩ := List.nodup_cons.mp distinct
      refine ⟨core₁.unlock l, rfl, distinct, ?_, rfl⟩
      intro l'
      by_cases same : l' = l
      · simp [unlock, setLocked, sti, same, gone]
      · simp [unlock, setLocked, sti, same, locked]

/-- Interrupts stay off while a lock is held exactly in the sequences in which no guard is
released inside another one. -/
theorem interrupts_off_iff (enabled : core.interrupts = true) (free : ∀ l, core.locked l = false)
    (nested : heldAfter events = some held) : core.InterruptsOff events ↔
      ∀ (done : List (GuardEvent Lock)) (l : Lock), done ++ [.release l] <+: events →
        heldAfter (done ++ [.release l]) = some [] := by
  constructor
  · intro off done l early
    obtain ⟨held', nested'⟩ := heldAfter_pre nested early
    obtain ⟨core', ran, _, locked, flag⟩ := Core.run_nested enabled free nested'
    rw [nested']
    cases held' with
    | nil => rfl
    | cons outer rest =>
      have off := off _ core' outer early ran ((locked outer).mpr (.head _))
      rw [flag, List.getLast?_concat] at off
      cases off
  · intro released done core' l early ran holding
    obtain ⟨held', nested'⟩ := heldAfter_pre nested early
    obtain ⟨core₁, ran₁, _, locked, flag⟩ := Core.run_nested enabled free nested'
    obtain rfl := Option.some.inj (ran.symm.trans ran₁)
    have member := (locked l).mp holding
    rcases List.eq_nil_or_concat done with rfl | ⟨before, event, rfl⟩
    · obtain rfl := Option.some.inj nested'
      cases member
    · rw [List.concat_eq_append] at *
      rw [flag, List.getLast?_concat]
      cases event with
      | acquire l' => rfl
      | release l' =>
        rw [released before l' early] at nested'
        obtain rfl := Option.some.inj nested'
        cases member

/-- Two guards one after the other. -/
def oneByOne : List (GuardEvent Bool) := [.acquire true, .release true, .acquire false, .release false]

theorem interrupts_off_iff_oneByOne :
    Core.InterruptsOff { interrupts := true, locked := fun _ => false } oneByOne := by
  have nested : heldAfter oneByOne = some [] := by decide
  apply (interrupts_off_iff rfl (fun _ => rfl) nested).mpr
  intro done l early
  have checked : ∀ events ∈ oneByOne.inits,
      events.getLast?.map GuardEvent.isRelease = some true → heldAfter events = some [] := by decide
  apply checked _ ((List.mem_inits _ _).mpr early)
  rw [List.getLast?_concat]
  rfl

end FishOS.Klib
