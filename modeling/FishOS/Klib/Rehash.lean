import FishOS.Klib.FiniteMap
import FishOS.Lib.Ring
import Mathlib.Data.Nat.ModEq

/-!
# Growing

What `get` answers before and after `grow`, on maps in which a key may have several copies.
-/

namespace FishOS.Klib.HashMap

open Rings

variable {V : Type} {m m' : HashMap V} {key k : CString} {value v : V} {capacity : Nat} {calls : List (MapCall V)}

/-- The slot at which the probes of a key start. -/
def home (m : HashMap V) (key : CString) : Nat := (hash key).toNat % m.mCapacity

/-- The copies of the key that `get` and `grow` find first: they come to the slots in a different order. -/
def CopiesAgree (m : HashMap V) (key : CString) : Prop :=
  ∀ v w, (m.mArray.drop (m.home key)).findSome? (Slot.lookup key) = some v →
    (m.mArray.take (m.home key)).findSome? (Slot.lookup key) = some w → v = w

/-- No empty slot is in front of an entry, on the way of its probes. -/
def Packed (m : HashMap V) : Prop :=
  ∀ key value i, i < m.mCapacity → m.mArray[m.attempt key i]? = some (.entry key value) →
    ∀ j < i, m.mArray[m.attempt key j]? ≠ some .null

theorem attempt_injective (m : HashMap V) (key : CString) {i j : Nat} (inside : i < m.mCapacity) (inside' : j < m.mCapacity)
    (same : m.attempt key i = m.attempt key j) : i = j := by
  have congruent : i ≡ j [MOD m.mCapacity] := Nat.ModEq.add_right_cancel' _ same
  rwa [Nat.ModEq, Nat.mod_eq_of_lt inside, Nat.mod_eq_of_lt inside'] at congruent

theorem get_eq_rotate (m : HashMap V) (key : CString) :
    m.get key = (m.mArray.rotate (m.home key)).findSome? (Slot.lookup key) := by
  have around := congrArg (List.findSome? fun slot => slot.bind (Slot.lookup key)) (map_range_rotate m.mArray (m.home key))
  rw [List.findSome?_map, List.findSome?_map] at around
  refine Eq.trans ?_ around
  unfold get attempt home
  simp only [Function.comp_def, Nat.add_comm]
  rfl

/-- Lookups start in the middle of the array. -/
theorem get_eq (positive : 0 < m.mCapacity) (key : CString) :
    m.get key = ((m.mArray.drop (m.home key)).findSome? (Slot.lookup key)).or
      ((m.mArray.take (m.home key)).findSome? (Slot.lookup key)) := by
  have inside : m.home key ≤ m.mArray.length := Nat.le_of_lt (Nat.mod_lt _ positive)
  rw [get_eq_rotate, List.rotate_eq_drop_append_take inside, List.findSome?_append]

theorem findSome?_range {f : Nat → Option V} {i n : Nat} (inside : i < n) (behind : ∀ j, i < j → j < n → f j = none) :
    (List.range n).findSome? f = ((List.range i).findSome? f).or (f i) := by
  obtain ⟨r, rfl⟩ := Nat.exists_eq_add_of_lt inside
  have rest : ((List.range r).map Nat.succ).findSome? (fun j => f (i + j)) = none := by
    rw [List.findSome?_eq_none_iff]
    intro j member
    obtain ⟨j, below, rfl⟩ := List.mem_map.mp member
    have bound := List.mem_range.mp below
    exact behind _ (by omega) (by omega)
  rw [Nat.add_assoc, List.range_add, List.findSome?_append, List.findSome?_map, List.range_succ_eq_map,
    List.findSome?_cons]
  simp only [Function.comp_def, Nat.add_zero]
  rw [rest]
  cases f i <;> rfl

theorem findSome?_congr {f g : Nat → Option V} {l : List Nat} (same : ∀ i ∈ l, f i = g i) :
    l.findSome? f = l.findSome? g := by
  induction l with
  | nil => rfl
  | cons i l ih =>
    rw [List.findSome?_cons, List.findSome?_cons, same i (.head _), ih fun j member => same j (.tail _ member)]

theorem create_packed (capacity : Nat) : (create capacity : HashMap V).Packed := by
  intro key value i _ taken
  have member := mem_entries.mpr (List.mem_of_getElem? taken)
  rw [entries_create] at member
  cases member

theorem get_create (capacity : Nat) (k : CString) : (create capacity : HashMap V).get k = none := by
  apply (get_eq_none_iff _).mpr <;> simp [entries_create]

/-- The slots after the store at the probe `i` of the key. -/
structure StoredAt (m : HashMap V) (key : CString) (value : V) (i : Nat) : Prop where
  inside : i < m.mCapacity
  free : m.mArray[m.attempt key i]? = some .null
  earlier : ∀ j < i, m.mArray[m.attempt key j]? ≠ some .null
  capacity : (m.store key value).mCapacity = m.mCapacity
  attempt : (m.store key value).attempt = m.attempt
  slots : ∀ j, (m.store key value).mArray[j]? =
    if j = m.attempt key i then some (.entry key value) else m.mArray[j]?

@[simp] theorem mCapacity_store (m : HashMap V) (key : CString) (value : V) :
    (m.store key value).mCapacity = m.mCapacity := by
  unfold store
  split
  · simp [mCapacity]
  · rfl

theorem exists_storedAt (space : m.used < m.mCapacity) (key : CString) (value : V) :
    ∃ i, m.StoredAt key value i := by
  obtain ⟨i, inside, free, earlier, stored⟩ := store_eq space key value
  refine ⟨i, inside, free, earlier, mCapacity_store m key value, ?_, fun j => ?_⟩
  · unfold attempt
    rw [mCapacity_store]
  · rw [stored]
    by_cases here : j = m.attempt key i
    · rw [if_pos here, here]
      exact List.getElem?_set_self (List.getElem?_eq_some_iff.mp free).1
    · rw [if_neg here]
      exact List.getElem?_set_ne (Ne.symm here)

theorem StoredAt.busy {i j : Nat} (stored : m.StoredAt key value i) (busy : m.mArray[j]? ≠ some .null) :
    (m.store key value).mArray[j]? ≠ some .null := by
  rw [stored.slots]
  split
  · exact fun same => nomatch same
  · exact busy

theorem Packed.store {i : Nat} (packed : m.Packed) (stored : m.StoredAt key value i) : (m.store key value).Packed := by
  intro k v n below taken j before
  rw [stored.capacity] at below
  rw [stored.attempt, stored.slots] at taken
  rw [stored.attempt]
  split at taken
  · rename_i here
    obtain ⟨rfl, rfl⟩ := Slot.entry.inj (Option.some.inj taken)
    obtain rfl := m.attempt_injective key below stored.inside here
    exact stored.busy (stored.earlier j before)
  · exact stored.busy (packed k v n below taken j before)

/-- The new copy of a key is behind all others on the way of its probes. -/
theorem Packed.get_store {i : Nat} (packed : m.Packed) (stored : m.StoredAt key value i) (k : CString) :
    (m.store key value).get k = (m.get k).or ((Slot.entry key value).lookup k) := by
  obtain ⟨inside, free, -, capacity, attempt, slots⟩ := stored
  have apart : ∀ j, j ≠ i → j < m.mCapacity → m.attempt key j ≠ m.attempt key i :=
    fun j other below same => other (m.attempt_injective key below inside same)
  unfold get
  rw [capacity, attempt]
  simp only [slots]
  by_cases same : k = key
  · subst same
    have behind : ∀ j, i < j → j < m.mCapacity → (m.mArray[m.attempt k j]?).bind (Slot.lookup k) = none := by
      intro j after below
      apply Option.eq_none_iff_forall_ne_some.mpr
      intro v found
      obtain ⟨slot, read, matched⟩ := Option.bind_eq_some_iff.mp found
      obtain rfl := lookup_eq_some_iff.mp matched
      exact packed k v j below read i after free
    rw [findSome?_range inside behind, findSome?_range inside]
    · have front : (List.range i).findSome? (fun j => (if m.attempt k j = m.attempt k i then
          some (Slot.entry k value) else m.mArray[m.attempt k j]?).bind (Slot.lookup k)) =
          (List.range i).findSome? fun j => (m.mArray[m.attempt k j]?).bind (Slot.lookup k) := by
        apply findSome?_congr
        intro j member
        have before := List.mem_range.mp member
        rw [if_neg (apart j (Nat.ne_of_lt before) (before.trans inside))]
      rw [front, if_pos rfl, free, Option.bind_some, Option.bind_some]
      simp [Slot.lookup]
    · intro j after below
      rw [if_neg (apart j (Nat.ne_of_gt after) below)]
      exact behind j after below
  · have missed : (Slot.entry key value).lookup k = none := by
      cases found : (Slot.entry key value).lookup k with
      | none => rfl
      | some v => exact absurd (Slot.entry.inj (lookup_eq_some_iff.mp found)).1.symm same
    rw [missed, Option.or_none]
    apply findSome?_congr
    intro j _
    split
    · rename_i here
      rw [here, free, Option.bind_some, Option.bind_some, missed]
      rfl
    · rfl

theorem reinsert_packed {pairs : List (CString × V)} (room : pairs.length * 2 + 2 ≤ capacity)
    (filled : Refilled capacity pairs m) (packed : m.Packed) (slot : Slot V) :
    ∃ m', reinsert insert m slot = some m' ∧ Refilled capacity (pairs ++ slot.pair.toList) m' ∧ m'.Packed ∧
      ∀ k, m'.get k = (m.get k).or (slot.lookup k) := by
  obtain ⟨m', inserted, refilled⟩ := reinsert_spec filled room slot
  refine ⟨m', inserted 1, refilled, ?_⟩
  cases slot with
  | null =>
    obtain rfl := Option.some.inj (inserted 0)
    exact ⟨packed, fun k => (Option.or_none).symm⟩
  | deleted =>
    obtain rfl := Option.some.inj (inserted 0)
    exact ⟨packed, fun k => (Option.or_none).symm⟩
  | entry key value =>
    obtain ⟨full, size, used, -⟩ := filled
    have light : (m.mSize + 1) * 100 / m.mCapacity < 75 := by
      rw [Nat.div_lt_iff_lt_mul (by omega)]
      omega
    have space : m.used < m.mCapacity := by omega
    have direct : m.insertDepth (0 + 1) key value = _ := insertDepth_light light key value
    obtain rfl := Option.some.inj (direct.symm.trans (inserted 0))
    obtain ⟨i, stored⟩ := exists_storedAt (m := { m with mSize := m.mSize + 1 }) space key value
    have packed' : HashMap.Packed { m with mSize := m.mSize + 1 } := packed
    exact ⟨packed'.store stored, packed'.get_store stored⟩

/-- Of the slots that are reinserted, `get` finds the first. -/
theorem reinsert_all {pairs : List (CString × V)} {slots : List (Slot V)}
    (room : (pairs.length + slots.length) * 2 ≤ capacity) (filled : Refilled capacity pairs m) (packed : m.Packed) :
    ∃ m', slots.foldlM (reinsert insert) m = some m' ∧
      ∀ k, m'.get k = (m.get k).or (slots.findSome? (Slot.lookup k)) := by
  induction slots generalizing pairs m with
  | nil => exact ⟨m, rfl, fun k => (Option.or_none).symm⟩
  | cons slot slots ih =>
    rw [List.length_cons] at room
    obtain ⟨m₁, inserted, refilled, packed₁, answers₁⟩ := reinsert_packed (by omega) filled packed slot
    have few : slot.pair.toList.length ≤ 1 := by cases slot.pair <;> simp
    obtain ⟨m', folded, answers⟩ := ih (by rw [List.length_append]; omega) refilled packed₁
    refine ⟨m', ?_, fun k => ?_⟩
    · rw [List.foldlM_cons, inserted]
      exact folded
    · rw [answers, answers₁, Option.or_assoc, List.findSome?_cons]
      cases slot.lookup k <;> rfl

/-- After `grow`, lookups find the entry that was in front in the array. -/
theorem get_grow (m : HashMap V) : ∃ m', m.grow insert = some m' ∧ ∀ k, m'.get k = m.mArray.findSome? (Slot.lookup k) := by
  have empty : Refilled (m.mCapacity * 2) [] (create (m.mCapacity * 2) : HashMap V) := refilled_create _
  have room : (([] : List (CString × V)).length + m.mArray.length) * 2 ≤ m.mCapacity * 2 := by simp [mCapacity]
  obtain ⟨m', grown, answers⟩ := reinsert_all room empty (create_packed _)
  refine ⟨m', grown, fun k => ?_⟩
  rw [answers, get_create, Option.none_or]

theorem grow_keeps_get_iff (positive : 0 < m.mCapacity) :
    ∃ m', m.grow insert = some m' ∧ ∀ k, m'.get k = m.get k ↔ m.CopiesAgree k := by
  obtain ⟨m', grown, answers⟩ := get_grow m
  refine ⟨m', grown, fun k => ?_⟩
  have front := congrArg (List.findSome? (Slot.lookup k)) (List.take_append_drop (m.home k) m.mArray)
  rw [answers, get_eq positive, ← front, List.findSome?_append]
  unfold CopiesAgree
  cases (m.mArray.take (m.home k)).findSome? (Slot.lookup k) <;>
    cases (m.mArray.drop (m.home k)).findSome? (Slot.lookup k) <;> simp [eq_comm]

theorem insertDepth_isSome (positive : 0 < m.mCapacity) (key : CString) (value : V) :
    ∃ m', (∀ depth, m.insertDepth (depth + 2) key value = some m') ∧ 0 < m'.mCapacity := by
  by_cases light : (m.mSize + 1) * 100 / m.mCapacity < 75
  · exact ⟨_, fun depth => insertDepth_light light key value, (mCapacity_store _ key value).symm ▸ positive⟩
  · have heavy : HashMap.loadPercentage { m with mSize := m.mSize + 1 } ≥ 75 := Nat.not_lt.mp light
    obtain ⟨m₁, grown, spec⟩ := grow_spec { m with mSize := m.mSize + 1 }
    have capacity : m₁.mCapacity = m.mCapacity * 2 := spec.capacity
    refine ⟨m₁.store key value, fun depth => ?_, ?_⟩
    · unfold insertDepth
      simp [heavy, grown]
    · rw [mCapacity_store, capacity]
      omega

theorem run_positive (positive : 0 < capacity) (calls : List (MapCall V)) :
    ∃ m : HashMap V, (∀ depth, (create capacity).runDepth (depth + 2) calls = some m) ∧ 0 < m.mCapacity := by
  induction calls using List.reverseRecOn with
  | nil => exact ⟨create capacity, fun _ => rfl, by simpa [create, mCapacity] using positive⟩
  | append_singleton calls call ih =>
    obtain ⟨m, ran, some⟩ := ih
    have step : ∃ m', (∀ depth, m.stepDepth (depth + 2) call = Option.some m') ∧ 0 < m'.mCapacity := by
      cases call with
      | insert key value => exact insertDepth_isSome some key value
      | erase key =>
        refine ⟨m.erase key, fun _ => rfl, ?_⟩
        rw [erase_eq]
        simpa [mCapacity] using some
      | get key => exact ⟨m, fun _ => rfl, some⟩
    obtain ⟨m', stepped, some'⟩ := step
    exact ⟨m', runDepth_step ran stepped, some'⟩

/-- In every state that calls reach, also with insertions of keys that are present, `grow` keeps what a
key is looked up as if and only if its copies agree. -/
theorem grow_invisible_iff (positive : 0 < capacity) (calls : List (MapCall V)) :
    ∃ m m' : HashMap V, (∀ depth, 2 ≤ depth → (create capacity).runDepth depth calls = some m) ∧
      m.grow insert = some m' ∧ ∀ k, m'.get k = m.get k ↔ m.CopiesAgree k := by
  obtain ⟨m, ran, some⟩ := run_positive positive calls
  obtain ⟨m', grown, agree⟩ := grow_keeps_get_iff some
  refine ⟨m, m', fun depth enough => ?_, grown, agree⟩
  obtain ⟨depth, rfl⟩ := Nat.exists_eq_add_of_le' enough
  exact ran depth

/-- A key that is inserted twice, with copies in its home slot and in the one behind it. -/
theorem grow_invisible_iff_twice :
    let a := sampleKey 97 (by decide)
    ∃ m m' : HashMap Nat, (create 16).runDepth 2 [.insert a 1, .insert a 2] = some m ∧ m.grow insert = some m' ∧
      (m'.get a = m.get a ↔ m.CopiesAgree a) := by
  intro a
  obtain ⟨m, m', ran, grown, agree⟩ := grow_invisible_iff (show 0 < 16 by decide) [.insert a (1 : Nat), .insert a 2]
  exact ⟨m, m', ran 2 (Nat.le_refl 2), grown, agree a⟩

/-- The home slot of this key is the last one, so that the second copy comes to the first slot. -/
theorem grow_changes_lookup :
    let z := sampleKey 122 (by decide)
    ∃ m m' : HashMap Nat, (create 16).runDepth 2 [.insert z 1, .insert z 2] = some m ∧ m.grow insert = some m' ∧
      m.get z = some 1 ∧ m'.get z = some 2 := by
  intro z
  have ran : ((create 16 : HashMap Nat).runDepth 2 [.insert z 1, .insert z 2]).bind
      (fun m => (m.grow insert).map fun m' => (m.get z, m'.get z)) = some (some 1, some 2) := by
    decide +kernel
  obtain ⟨m, ran, looked⟩ := Option.bind_eq_some_iff.mp ran
  obtain ⟨m', grown, looked⟩ := Option.map_eq_some_iff.mp looked
  obtain ⟨before, after⟩ := Prod.mk.inj looked
  exact ⟨m, m', ran, grown, before, after⟩

end FishOS.Klib.HashMap
