import FishOS.Klib.Lock
import Mathlib.Algebra.Order.Ring.Nat
import Mathlib.Logic.Function.Basic
import Mathlib.Tactic.Common

/-!
# Guards of static variables

`__cxa_guard_acquire` and `__cxa_guard_release` on one thread, over any set of guards. One lock is
held for as long as an initialiser runs.
-/

namespace FishOS.Klib

inductive StaticLock where
  | staticInitLock
  deriving DecidableEq

def setGuardInUse (g : UInt64) : UInt64 := g ||| 2

def guardInUse (g : UInt64) : Bool := g &&& 2 != 0

def setGuardInitialized (g : UInt64) : UInt64 := g ||| 1

def guardInitialized (g : UInt64) : Bool := g &&& 1 != 0

/-- The guards, and the processor with the lock of all of them. -/
structure Statics (Guard : Type) where
  guards : Guard → UInt64
  core : Core StaticLock

/-- The calls that a function makes around the initialiser of a static variable. -/
inductive StaticCall (Guard : Type) where
  | acquire (g : Guard)
  | release (g : Guard)
  deriving DecidableEq

/-- A thread with the initialisers that it is in, the last one first. -/
structure StaticThread (Guard : Type) where
  statics : Statics Guard
  running : List Guard

variable {Guard : Type} [DecidableEq Guard]

namespace Statics

/-- An error is the text of a panic. -/
def cxaGuardAcquire (s : Statics Guard) (g : Guard) : Except String (Int × Statics Guard) :=
  if s.guards g ≠ 0 then .ok (0, s)
  else
    match s.core.lock .staticInitLock with
    | none => .error "Spinlock spun too much"
    | some core =>
      if guardInitialized (s.guards g) then .ok (0, { s with core := core.unlock .staticInitLock })
      else if guardInUse (s.guards g) then .error "__cxa_guard_acquire: guard in use"
      else .ok (1, { guards := Function.update s.guards g (setGuardInUse (s.guards g)), core := core })

def cxaGuardRelease (s : Statics Guard) (g : Guard) : Statics Guard :=
  { guards := Function.update s.guards g (setGuardInitialized (s.guards g)), core := s.core.unlock .staticInitLock }

end Statics

namespace StaticThread

/-- The function runs the initialiser when the answer is not zero, and releases the guard behind it. A
panic ends the run. -/
def call (t : StaticThread Guard) : StaticCall Guard → Option (StaticThread Guard)
  | .acquire g =>
    match t.statics.cxaGuardAcquire g with
    | .ok (answer, statics) => some { statics, running := if answer ≠ 0 then g :: t.running else t.running }
    | .error _ => none
  | .release g =>
    if t.running.head? = some g then
      some { statics := t.statics.cxaGuardRelease g, running := t.running.tail }
    else none

/-- Static storage is zero. -/
def boot (core : Core StaticLock) : StaticThread Guard := { statics := { guards := fun _ => 0, core }, running := [] }

def run (t : StaticThread Guard) (calls : List (StaticCall Guard)) : Option (StaticThread Guard) := calls.foldlM call t

/-- What is asked of the answer for a guard, after these calls. -/
structure AnswersRight (t : StaticThread Guard) (done : List (StaticCall Guard)) (g : Guard) : Prop where
  zero : ∀ s, t.statics.cxaGuardAcquire g = .ok (0, s) → .release g ∈ done
  first : .acquire g ∉ done → ∃ s, t.statics.cxaGuardAcquire g = .ok (1, s)
  recursive : g ∈ t.running → t.statics.cxaGuardAcquire g = .error "__cxa_guard_acquire: guard in use"

/-- The states that nested calls reach. The lock keeps a second initialiser from running. -/
structure Nested (t : StaticThread Guard) (done : List (StaticCall Guard)) : Prop where
  one : t.running.length ≤ 1
  locked : t.statics.core.locked .staticInitLock = true ↔ t.running ≠ []
  guards : ∀ g, t.statics.guards g = if .release g ∈ done then 3 else if g ∈ t.running then 2 else 0
  acquired : ∀ g, .acquire g ∈ done ↔ .release g ∈ done ∨ g ∈ t.running
  apart : ∀ g, .release g ∈ done → g ∉ t.running

variable {t t' : StaticThread Guard} {done calls : List (StaticCall Guard)} {g : Guard} {core : Core StaticLock}

theorem acquire_again (nested : t.Nested done) (again : .release g ∈ done ∨ g ∈ t.running) :
    t.statics.cxaGuardAcquire g = .ok (0, t.statics) := by
  have set : t.statics.guards g ≠ 0 := by
    rw [nested.guards]
    split
    · decide
    · rename_i other
      rw [if_pos (again.resolve_left other)]
      decide
  rw [Statics.cxaGuardAcquire, if_pos set]

theorem guards_fresh (nested : t.Nested done) (fresh : ¬(.release g ∈ done ∨ g ∈ t.running)) : t.statics.guards g = 0 := by
  rw [not_or] at fresh
  rw [nested.guards, if_neg fresh.1, if_neg fresh.2]

theorem acquire_first (nested : t.Nested done) (fresh : ¬(.release g ∈ done ∨ g ∈ t.running)) (idle : t.running = []) :
    t.statics.cxaGuardAcquire g =
      .ok (1, ⟨Function.update t.statics.guards g 2, t.statics.core.cli.setLocked .staticInitLock true⟩) := by
  have zero := guards_fresh nested fresh
  have unlocked : ¬t.statics.core.cli.locked .staticInitLock = true := fun holding => nested.locked.mp holding idle
  have lock : t.statics.core.lock .staticInitLock = some (t.statics.core.cli.setLocked .staticInitLock true) :=
    if_neg unlocked
  rw [Statics.cxaGuardAcquire, zero, if_neg (fun set => set rfl), lock]
  rfl

theorem acquire_nested (nested : t.Nested done) (fresh : ¬(.release g ∈ done ∨ g ∈ t.running)) (busy : t.running ≠ []) :
    t.statics.cxaGuardAcquire g = .error "Spinlock spun too much" := by
  have zero := guards_fresh nested fresh
  have lock : t.statics.core.lock .staticInitLock = none := if_pos (nested.locked.mpr busy)
  rw [Statics.cxaGuardAcquire, zero, if_neg (fun set => set rfl), lock]

theorem boot_nested (free : core.locked .staticInitLock = false) : Nested (boot core : StaticThread Guard) [] where
  one := Nat.zero_le 1
  locked := by simp [boot, free]
  guards := by simp [boot]
  acquired := by simp [boot]
  apart := by simp

theorem acquire_keeps (nested : t.Nested done) (again : .release g ∈ done ∨ g ∈ t.running) :
    t.Nested (done ++ [.acquire g]) where
  one := nested.one
  locked := nested.locked
  guards g' := by simpa using nested.guards g'
  acquired g' := by
    have known := nested.acquired g'
    by_cases same : g' = g
    · subst same
      simpa using again
    · simpa [same] using known
  apart g' := by simpa using nested.apart g'

theorem acquire_starts (nested : t.Nested done) (fresh : ¬(.release g ∈ done ∨ g ∈ t.running)) (idle : t.running = []) :
    Nested ⟨⟨Function.update t.statics.guards g 2, t.statics.core.cli.setLocked .staticInitLock true⟩, [g]⟩
      (done ++ [.acquire g]) where
  one := Nat.le_refl 1
  locked := by simp [Core.setLocked]
  guards g' := by
    have known := nested.guards g'
    obtain ⟨closed, -⟩ := not_or.mp fresh
    by_cases same : g' = g
    · subst same
      simp [closed]
    · simpa [idle, same] using known
  acquired g' := by
    have known := nested.acquired g'
    rw [idle] at known
    by_cases same : g' = g
    · simp [same]
    · simpa [same] using known
  apart g' released := by
    obtain ⟨closed, -⟩ := not_or.mp fresh
    rintro inside
    obtain rfl := List.mem_singleton.mp inside
    exact closed (by simpa using released)

theorem release_ends (nested : t.Nested done) (top : t.running = [g]) :
    Nested ⟨t.statics.cxaGuardRelease g, []⟩ (done ++ [.release g]) where
  one := Nat.zero_le 1
  locked := by simp [Statics.cxaGuardRelease, Core.unlock, Core.setLocked, Core.sti]
  guards g' := by
    have known := nested.guards g'
    by_cases same : g' = g
    · subst same
      have inside : g' ∈ t.running := by simp [top]
      have closed := mt (nested.apart g') (not_not.mpr inside)
      rw [if_neg closed, if_pos inside] at known
      simp only [Statics.cxaGuardRelease, Function.update_self, known, setGuardInitialized, List.mem_append,
        List.mem_singleton, or_true, if_true]
      decide
    · simpa [Statics.cxaGuardRelease, top, same] using known
  acquired g' := by
    have known := nested.acquired g'
    by_cases same : g' = g
    · subst same
      simpa [top] using known
    · simpa [top, same] using known
  apart g' := by simp

theorem call_nested (nested : t.Nested done) {c : StaticCall Guard} (called : t.call c = some t') :
    t'.Nested (done ++ [c]) := by
  cases c with
  | acquire g =>
    unfold call at called
    dsimp only at called
    by_cases again : .release g ∈ done ∨ g ∈ t.running
    · rw [acquire_again nested again] at called
      obtain rfl := Option.some.inj called
      exact acquire_keeps nested again
    · by_cases idle : t.running = []
      · rw [acquire_first nested again idle] at called
        obtain rfl := Option.some.inj called
        rw [idle]
        exact acquire_starts nested again idle
      · rw [acquire_nested nested again idle] at called
        cases called
  | release g =>
    unfold call at called
    dsimp only at called
    split at called
    · rename_i top
      obtain rfl := Option.some.inj called
      obtain ⟨rest, shape⟩ := List.head?_eq_some_iff.mp top
      have one := nested.one
      rw [shape, List.length_cons] at one
      obtain rfl := List.length_eq_zero_iff.mp (show rest.length = 0 by omega)
      rw [shape]
      exact release_ends nested shape
    · cases called

theorem run_nested (free : core.locked .staticInitLock = false) (ran : (boot core).run done = some t) : t.Nested done := by
  induction done using List.reverseRecOn generalizing t with
  | nil =>
    obtain rfl := Option.some.inj ran
    exact boot_nested free
  | append_singleton done c ih =>
    unfold run at ran ih
    rw [Runs.foldlM_snoc] at ran
    obtain ⟨t₁, before, called⟩ := Option.bind_eq_some_iff.mp ran
    exact call_nested (ih before) called

theorem answersRight_iff (nested : t.Nested done) : t.AnswersRight done g ↔ t.running = [] ∨ .release g ∈ done := by
  constructor
  · intro right
    by_contra neither
    obtain ⟨busy, open'⟩ := not_or.mp neither
    by_cases inside : g ∈ t.running
    · exact open' (right.zero _ (acquire_again nested (.inr inside)))
    · have fresh : ¬(.release g ∈ done ∨ g ∈ t.running) := not_or.mpr ⟨open', inside⟩
      obtain ⟨s, answer⟩ := right.first (mt (nested.acquired g).mp fresh)
      rw [acquire_nested nested fresh busy] at answer
      cases answer
  · intro allowed
    by_cases open' : .release g ∈ done
    · refine ⟨fun _ _ => open', fun fresh => ?_, fun inside => ?_⟩
      · exact absurd ((nested.acquired g).mpr (.inl open')) fresh
      · exact absurd inside (nested.apart g open')
    · have idle := allowed.resolve_right open'
      have outside : g ∉ t.running := by simp [idle]
      have answer := acquire_first nested (not_or.mpr ⟨open', outside⟩) idle
      refine ⟨fun s zero => ?_, fun _ => ⟨_, answer⟩, fun inside => absurd inside outside⟩
      rw [answer] at zero
      cases zero

/-- In every nested run, the answers are right if and only if no guard is acquired while an
initialiser runs, but for guards that have been released. -/
theorem answers_right_iff (free : core.locked .staticInitLock = false) (calls : List (StaticCall Guard)) :
    (∀ done g, done ++ [.acquire g] <+: calls → ∀ t, (boot core).run done = some t → t.AnswersRight done g) ↔
      ∀ done g, done ++ [.acquire g] <+: calls → ∀ t, (boot core).run done = some t →
        t.running = [] ∨ .release g ∈ done := by
  have each : ∀ done (g : Guard) t, (boot core).run done = some t →
      (t.AnswersRight done g ↔ t.running = [] ∨ .release g ∈ done) :=
    fun done g t ran => answersRight_iff (run_nested free ran)
  constructor
  · intro right done g early t ran
    exact (each done g t ran).mp (right done g early t ran)
  · intro allowed done g early t ran
    exact (each done g t ran).mpr (allowed done g early t ran)

theorem answers_right_iff_again :
    let statics : List (StaticCall Bool) := [.acquire true, .release true, .acquire false, .release false, .acquire true]
    ∀ done g, done ++ [.acquire g] <+: statics → ∀ t,
      (boot ⟨true, fun _ => false⟩).run done = some t → t.AnswersRight done g := by
  intro statics
  refine (answers_right_iff rfl statics).mpr ?_
  have checked : ∀ calls ∈ statics.inits, ∀ g, calls.getLast? = some (.acquire g) →
      (((boot ⟨true, fun _ => false⟩).run calls.dropLast).map StaticThread.running = some [] ∨
        .release g ∈ calls.dropLast) := by decide
  intro done g early t ran
  have last := checked _ ((List.mem_inits _ _).mpr early) g List.getLast?_concat
  rw [List.dropLast_concat, ran] at last
  simpa using last

/-- Inside of an initialiser, the first use of another static variable ends in the panic of the lock, and
a second use of the same one is told that there is nothing to do. -/
theorem nested_statics :
    ∃ t : StaticThread Bool, (boot ⟨true, fun _ => false⟩).run [.acquire true] = some t ∧ t.running = [true] ∧
      t.statics.cxaGuardAcquire false = .error "Spinlock spun too much" ∧ ¬t.AnswersRight [.acquire true] false ∧
      t.statics.cxaGuardAcquire true = .ok (0, t.statics) ∧ ¬t.AnswersRight [.acquire true] true := by
  refine ⟨_, rfl, rfl, rfl, fun right => ?_, rfl, fun right => ?_⟩
  · obtain ⟨s, answer⟩ := right.first (by decide)
    exact nomatch answer
  · exact absurd (right.zero _ rfl) (by decide)

end StaticThread

end FishOS.Klib
