import FishOS.Klib.HashMap
import FishOS.Lib.Runs

/-!
# Hash maps as finite maps

Any sequence of calls on a fresh map that inserts absent keys only: the map answers what the
history of the calls says.
-/

namespace FishOS.Klib

inductive MapCall (V : Type) where
  | insert (key : CString) (value : V)
  | erase (key : CString)
  | get (key : CString)

namespace HashMap

variable {V : Type} {capacity : Nat} {calls : List (MapCall V)}

/-- A call of which `insert` and `grow` call each other at most `depth` deep. -/
def stepDepth (depth : Nat) (m : HashMap V) : MapCall V → Option (HashMap V)
  | .insert key value => m.insertDepth depth key value
  | .erase key => some (m.erase key)
  | .get _ => some m

def runDepth (depth : Nat) (m : HashMap V) (calls : List (MapCall V)) : Option (HashMap V) :=
  calls.foldlM (stepDepth depth) m

def record (k : CString) (found : Option V) : MapCall V → Option V
  | .insert key value => if k = key then some value else found
  | .erase key => if k = key then none else found
  | .get _ => found

/-- The value of the latest insertion of `k` that is not erased since. -/
def latest (calls : List (MapCall V)) (k : CString) : Option V := calls.foldl (record k) none

/-- Only absent keys are inserted. -/
def FreshInserts (calls : List (MapCall V)) : Prop :=
  ∀ before key value after, calls = before ++ .insert key value :: after → latest before key = none

/-- A call behind a run that goes as deep. -/
theorem runDepth_step {m m₁ m' : HashMap V} {call : MapCall V} (ran : ∀ depth, m.runDepth (depth + 2) calls = some m₁)
    (stepped : ∀ depth, m₁.stepDepth (depth + 2) call = some m') (depth : Nat) :
    m.runDepth (depth + 2) (calls ++ [call]) = some m' := by
  unfold runDepth at ran ⊢
  rw [Runs.foldlM_snoc, ran, Option.bind_some, stepped]

theorem latest_snoc (calls : List (MapCall V)) (call : MapCall V) (k : CString) :
    latest (calls ++ [call]) k = record k (latest calls k) call := by
  simp [latest]

theorem FreshInserts.before {call : MapCall V} (fresh : FreshInserts (calls ++ [call])) : FreshInserts calls := by
  rintro before key value after rfl
  exact fresh before key value (after ++ [call]) (by simp)

theorem step_refines {m : HashMap V} (sound : m.Sound) (answers : ∀ k, m.get k = latest calls k)
    (call : MapCall V) (fresh : FreshInserts (calls ++ [call])) :
    ∃ m', (∀ depth, m.stepDepth (depth + 2) call = some m') ∧ m'.Sound ∧
      ∀ k, m'.get k = latest (calls ++ [call]) k := by
  simp only [latest_snoc]
  cases call with
  | insert key value =>
    have free : m.get key = none := (answers key).trans (fresh calls key value [] rfl)
    have absent := (get_eq_none_iff sound.distinct).mp free
    obtain ⟨m', inserted, sound', perm⟩ := insertDepth_spec sound absent value
    refine ⟨m', inserted, sound', ?_⟩
    intro k
    rw [get_of_perm sound.distinct perm absent, answers]
    rfl
  | erase key =>
    obtain ⟨sound', answers'⟩ := erase_spec sound key
    refine ⟨m.erase key, fun _ => rfl, sound', ?_⟩
    intro k
    rw [answers', answers]
    rfl
  | get key => exact ⟨m, fun _ => rfl, sound, answers⟩

theorem run_sound (positive : 0 < capacity) (fresh : FreshInserts calls) :
    ∃ m : HashMap V, (∀ depth, (create capacity).runDepth (depth + 2) calls = some m) ∧ m.Sound ∧
      ∀ k, m.get k = latest calls k := by
  induction calls using List.reverseRecOn with
  | nil =>
    have sound : (create capacity : HashMap V).Sound := create_sound positive
    refine ⟨create capacity, fun _ => rfl, sound, ?_⟩
    intro k
    apply (get_eq_none_iff sound.distinct).mpr
    simp [entries_create]
  | append_singleton calls call ih =>
    obtain ⟨m, ran, sound, answers⟩ := ih fresh.before
    obtain ⟨m', stepped, sound', answers'⟩ := step_refines sound answers call fresh
    exact ⟨m', runDepth_step ran stepped, sound', answers'⟩

/-- A map of any capacity refines the finite map that its calls describe, and `insert` and `grow`
never call each other more than twice deep. -/
theorem run_refines_latest (positive : 0 < capacity) (fresh : FreshInserts calls) :
    ∃ m : HashMap V, (∀ depth, 2 ≤ depth → (create capacity).runDepth depth calls = some m) ∧
      ∀ k, m.get k = latest calls k := by
  obtain ⟨m, ran, _, answers⟩ := run_sound positive fresh
  refine ⟨m, ?_, answers⟩
  intro depth enough
  obtain ⟨depth, rfl⟩ := Nat.exists_eq_add_of_le' enough
  exact ran depth

def sampleKey (c : UInt8) (nonzero : c ≠ 0) : CString := ⟨[c], by simp [nonzero.symm]⟩

theorem run_refines_latest_reinserted :
    let a := sampleKey 97 (by decide)
    ∃ m : HashMap Nat, (∀ depth, 2 ≤ depth →
      (create 1).runDepth depth [.insert a 1, .erase a, .insert a 2] = some m) ∧ m.get a = some 2 := by
  intro a
  have fresh : FreshInserts [.insert a 1, .erase a, .insert a 2] := by
    intro before key value after shape
    rcases before with _ | ⟨_, _ | ⟨_, _ | ⟨_, before⟩⟩⟩ <;> simp at shape
    · rfl
    · obtain ⟨rfl, rfl, ⟨rfl, rfl⟩, rfl⟩ := shape
      rfl
  obtain ⟨m, ran, answers⟩ := run_refines_latest Nat.one_pos fresh
  exact ⟨m, ran, (answers a).trans (by decide)⟩

end HashMap

end FishOS.Klib
