import FishOS.Klib.Rehash
import FishOS.Lib.Runs

/-!
# The load of a hash map

`insert` counts its entry before the array may grow, and `grow` counts the other entries anew. From
the first growth on, `m_size` is one below the number of slots in use.
-/

namespace FishOS.Klib

def MapCall.isInsert {V : Type} : MapCall V → Bool
  | .insert _ _ => true
  | _ => false

namespace HashMap

variable {V : Type} {m : HashMap V} {key : CString} {value : V} {capacity : Nat} {calls : List (MapCall V)}

/-- The array takes one more entry without a growth. -/
def Light (m : HashMap V) : Prop := (m.mSize + 1) * 100 / m.mCapacity < 75

instance (m : HashMap V) : Decidable m.Light := by unfold Light; infer_instance

/-- No insertion of the run meets an array that has to grow. -/
def NeverGrows (capacity : Nat) (calls : List (MapCall V)) : Prop :=
  ∀ done call, done ++ [call] <+: calls → ∀ m, call.isInsert = true →
    (create capacity).runDepth 2 done = some m → m.Light

/-- The slots in use are counted, but for one at most. -/
structure Tallied (m : HashMap V) : Prop where
  positive : 0 < m.mCapacity
  near : m.used = m.mSize ∨ m.used = m.mSize + 1

theorem create_tallied (positive : 0 < capacity) : (create capacity : HashMap V).Tallied where
  positive := (create_sound positive).positive
  near := .inl (refilled_create capacity).used

theorem insert_light (tallied : m.Tallied) (light : m.Light) (key : CString) (value : V) :
    ∃ m', (∀ depth, m.insertDepth (depth + 2) key value = some m') ∧ m'.mCapacity = m.mCapacity ∧
      m'.mSize = m.mSize + 1 ∧ m'.used = m.used + 1 := by
  have bound : (m.mSize + 1) * 100 < 75 * m.mCapacity := (Nat.div_lt_iff_lt_mul tallied.positive).mp light
  have near := tallied.near
  have space : HashMap.used { m with mSize := m.mSize + 1 } < m.mCapacity := by
    have same : HashMap.used { m with mSize := m.mSize + 1 } = m.used := rfl
    omega
  have stored := store_spec (m := { m with mSize := m.mSize + 1 }) space key value
  exact ⟨_, fun depth => insertDepth_light light key value, stored.capacity, stored.size, stored.used⟩

/-- The entry for which the array grows is not counted. -/
theorem insert_heavy (positive : 0 < m.mCapacity) (heavy : ¬m.Light) (key : CString) (value : V) :
    ∃ m', (∀ depth, m.insertDepth (depth + 2) key value = some m') ∧ 0 < m'.mCapacity ∧
      m'.used = m'.mSize + 1 := by
  have full : HashMap.loadPercentage { m with mSize := m.mSize + 1 } ≥ 75 := Nat.not_lt.mp heavy
  obtain ⟨m₁, grown, spec⟩ := grow_spec { m with mSize := m.mSize + 1 }
  have small := entries_length_le m
  have capacity : m₁.mCapacity = m.mCapacity * 2 := spec.capacity
  have used : m₁.used = m.entries.length := spec.used
  have size : m₁.mSize = m.entries.length := spec.size
  have stored := store_spec (m := m₁) (by omega) key value
  refine ⟨m₁.store key value, fun depth => ?_, by rw [stored.capacity]; omega, ?_⟩
  · unfold insertDepth
    simp [full, grown]
  · rw [stored.used, stored.size]
    omega

theorem neverGrows_nil : NeverGrows capacity ([] : List (MapCall V)) := Runs.before_nil

theorem neverGrows_snoc (calls : List (MapCall V)) (call : MapCall V) :
    NeverGrows capacity (calls ++ [call]) ↔ NeverGrows capacity calls ∧
      ∀ m, call.isInsert = true → (create capacity).runDepth 2 calls = some m → m.Light :=
  Runs.before_snoc calls call

/-- The state that a run reaches is counted just when no insertion of the run has made the array grow. -/
theorem run_tallied (positive : 0 < capacity) (calls : List (MapCall V)) :
    ∃ m : HashMap V, (∀ depth, (create capacity).runDepth (depth + 2) calls = some m) ∧ m.Tallied ∧
      (m.mSize = m.used ↔ NeverGrows capacity calls) := by
  induction calls using List.reverseRecOn with
  | nil =>
    exact ⟨create capacity, fun _ => rfl, create_tallied positive,
      iff_of_true (refilled_create capacity).used.symm neverGrows_nil⟩
  | append_singleton calls call ih =>
    obtain ⟨m, ran, tallied, counted⟩ := ih
    have near := tallied.near
    have reached : ∀ {m₁ : HashMap V}, (create capacity).runDepth 2 calls = some m₁ → m₁ = m := fun ran' =>
      Option.some.inj (ran'.symm.trans (ran 0))
    cases call with
    | insert key value =>
      by_cases light : m.Light
      · obtain ⟨m', inserted, capacity, size, used⟩ := insert_light tallied light key value
        refine ⟨m', runDepth_step ran inserted, ⟨capacity ▸ tallied.positive, by omega⟩, ?_⟩
        have last : ∀ m₁, (MapCall.insert key value).isInsert = true →
            (create _).runDepth 2 calls = some m₁ → m₁.Light := fun _ _ ran' => reached ran' ▸ light
        rw [neverGrows_snoc, and_iff_left last, ← counted]
        omega
      · obtain ⟨m', inserted, positive, used⟩ := insert_heavy tallied.positive light key value
        refine ⟨m', runDepth_step ran inserted, ⟨positive, .inr used⟩, iff_of_false (by omega) ?_⟩
        intro never
        exact light (((neverGrows_snoc _ _).mp never).2 m rfl (ran 0))
    | erase key =>
      have capacity' : (m.erase key).mCapacity = m.mCapacity := by
        rw [erase_eq]
        simp [mCapacity]
      have size : (m.erase key).mSize = m.mSize := by rw [erase_eq]
      refine ⟨m.erase key, runDepth_step ran fun _ => rfl, ⟨capacity' ▸ tallied.positive, ?_⟩, ?_⟩
      · rw [used_erase, size]
        exact near
      · rw [used_erase, size, counted, neverGrows_snoc]
        exact (and_iff_left fun _ other => absurd other Bool.false_ne_true).symm
    | get key =>
      refine ⟨m, runDepth_step ran fun _ => rfl, tallied, ?_⟩
      rw [counted, neverGrows_snoc]
      exact (and_iff_left fun _ other => absurd other Bool.false_ne_true).symm

/-- In every run, `m_size` is the number of slots that are not empty if and only if no insertion so far
has met an array that had to grow. -/
theorem size_counts_iff (positive : 0 < capacity) (calls : List (MapCall V)) :
    ∃ m : HashMap V, (∀ depth, 2 ≤ depth → (create capacity).runDepth depth calls = some m) ∧
      (m.mSize = m.used ↔ NeverGrows capacity calls) := by
  obtain ⟨m, ran, _, counted⟩ := run_tallied positive calls
  refine ⟨m, fun depth enough => ?_, counted⟩
  obtain ⟨depth, rfl⟩ := Nat.exists_eq_add_of_le' enough
  exact ran depth

theorem size_counts_iff_erased :
    let a := sampleKey 97 (by decide)
    ∃ m : HashMap Nat, (create 4).runDepth 2 [.insert a 1, .erase a] = some m ∧ m.mSize = m.used := by
  intro a
  obtain ⟨m, ran, counted⟩ := size_counts_iff (show 0 < 4 by decide) [.insert a (1 : Nat), .erase a]
  refine ⟨m, ran 2 (Nat.le_refl 2), counted.mpr ?_⟩
  have first : NeverGrows 4 [MapCall.insert a 1] := by
    refine (neverGrows_snoc [] _).mpr ⟨neverGrows_nil, ?_⟩
    rintro m - ran'
    obtain rfl := Option.some.inj ran'
    decide
  exact (neverGrows_snoc [_] _).mpr ⟨first, fun _ other => absurd other Bool.false_ne_true⟩

/-- The twelfth entry of a map of the default capacity is not counted. -/
theorem growth_loses_count :
    let a := sampleKey 97 (by decide)
    ∃ m : HashMap Nat, (create 16).runDepth 2 (List.replicate 12 (.insert a 1)) = some m ∧
      m.mSize = 11 ∧ m.used = 12 := by
  intro a
  have ran : ((create 16 : HashMap Nat).runDepth 2 (List.replicate 12 (.insert a 1))).map
      (fun m => (m.mSize, m.used)) = some (11, 12) := by
    decide +kernel
  obtain ⟨m, ran, sizes⟩ := Option.map_eq_some_iff.mp ran
  obtain ⟨size, used⟩ := Prod.mk.inj sizes
  exact ⟨m, ran, size, used⟩

end HashMap

end FishOS.Klib
