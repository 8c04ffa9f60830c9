import FishOS.Klib.CString
import Mathlib.Data.List.Nodup
import Mathlib.Data.List.Perm.Basic

/-!
# Hash maps

`klib::HashMap`: linear probing over an array of pointers to entries, of which each owns a copy
of its key. The array is in memory, so its length and the number of entries stay far below 2^64.
-/

namespace FishOS.Klib

/-- One step of djb2a; the character is signed. -/
def hashStep (hash : UInt32) (c : UInt8) : UInt32 :=
  ((hash <<< 5) + hash) ^^^ (if c < 0x80 then c.toUInt32 else 0xFFFFFF00 ||| c.toUInt32)

def hash (str : CString) : UInt32 := str.chars.foldl hashStep 5381

inductive Slot (V : Type) where
  | null
  | deleted
  | entry (key : CString) (value : V)

namespace Slot

variable {V : Type}

def isNull : Slot V → Bool
  | .null => true
  | _ => false

/-- The test of `get` on one slot. -/
def lookup (key : CString) : Slot V → Option V
  | .entry k value => if strcmp k.chars key.chars = 0 then some value else none
  | _ => none

def pair : Slot V → Option (CString × V)
  | .entry key value => some (key, value)
  | _ => none

/-- What `erase` does to one slot. -/
def erased (key : CString) (slot : Slot V) : Slot V := if (slot.lookup key).isSome then .deleted else slot

end Slot

structure HashMap (V : Type) where
  mArray : List (Slot V)
  mSize : Nat

namespace HashMap

variable {V : Type}

def create (initial_capacity : Nat) : HashMap V := { mArray := List.replicate initial_capacity .null, mSize := 0 }

def mCapacity (m : HashMap V) : Nat := m.mArray.length

def loadPercentage (m : HashMap V) : Nat := m.mSize * 100 / m.mCapacity

def attempt (m : HashMap V) (key : CString) (i : Nat) : Nat :=
  (i + (hash key).toNat % m.mCapacity) % m.mCapacity

/-- The probing loop of `insert`, which takes the first slot that is empty. -/
def store (m : HashMap V) (key : CString) (value : V) : HashMap V :=
  match (List.range m.mCapacity).find? fun i => (m.mArray[m.attempt key i]?).any Slot.isNull with
  | some i => { m with mArray := m.mArray.set (m.attempt key i) (.entry key value) }
  | none => m

/-- One round of the loop of `grow`, on the new array. -/
def reinsert (insert : HashMap V → CString → V → Option (HashMap V)) (m : HashMap V) : Slot V → Option (HashMap V)
  | .entry key value => insert m key value
  | _ => some m

def grow (insert : HashMap V → CString → V → Option (HashMap V)) (m : HashMap V) : Option (HashMap V) :=
  m.mArray.foldlM (reinsert insert) (create (m.mCapacity * 2))

/-- `insert` with a bound on how deep `insert` and `grow` call each other. -/
def insertDepth : Nat → HashMap V → CString → V → Option (HashMap V)
  | 0, _, _, _ => none
  | depth + 1, m, key, value => do
    let m := { m with mSize := m.mSize + 1 }
    let m ← if m.loadPercentage ≥ 75 then m.grow (insertDepth depth) else some m
    some (m.store key value)

/-- An array that has grown takes all entries without growing again (`grow_spec`). -/
def insert (m : HashMap V) (key : CString) (value : V) : Option (HashMap V) := m.insertDepth 2 key value

def get (m : HashMap V) (key : CString) : Option V :=
  (List.range m.mCapacity).findSome? fun i => (m.mArray[m.attempt key i]?).bind (Slot.lookup key)

def eraseStep (key : CString) (m : HashMap V) (i : Nat) : HashMap V :=
  if (m.mArray[m.attempt key i]?).any fun slot => (slot.lookup key).isSome then
    { m with mArray := m.mArray.set (m.attempt key i) .deleted }
  else m

/-- The loop goes on behind the entry that it deletes. -/
def erase (m : HashMap V) (key : CString) : HashMap V := (List.range m.mCapacity).foldl (eraseStep key) m

def entries (m : HashMap V) : List (CString × V) := m.mArray.filterMap Slot.pair

def used (m : HashMap V) : Nat := m.mArray.countP fun slot => !slot.isNull

/-- After a `grow`, `m_size` is one below the number of slots in use. -/
structure Sound (m : HashMap V) : Prop where
  positive : 0 < m.mCapacity
  distinct : (m.entries.map Prod.fst).Nodup
  counted : m.used ≤ m.mSize + 1

variable {m m' : HashMap V} {key k : CString} {value v : V}

theorem create_sound {capacity : Nat} (positive : 0 < capacity) : (create capacity : HashMap V).Sound where
  positive := by simpa [create, mCapacity] using positive
  distinct := by simp [create, entries, List.filterMap_replicate, Slot.pair]
  counted := by simp [create, used, List.countP_replicate, Slot.isNull]

theorem entries_create (capacity : Nat) : (create capacity : HashMap V).entries = [] := by
  simp [create, entries, List.filterMap_replicate, Slot.pair]

theorem exists_attempt (m : HashMap V) (key : CString) {j : Nat} (inside : j < m.mCapacity) :
    ∃ i < m.mCapacity, m.attempt key i = j := by
  have first := Nat.mod_lt (hash key).toNat (Nat.zero_lt_of_lt inside)
  refine ⟨(j + m.mCapacity - (hash key).toNat % m.mCapacity) % m.mCapacity,
    Nat.mod_lt _ (Nat.zero_lt_of_lt inside), ?_⟩
  unfold attempt
  rw [Nat.mod_add_mod, Nat.sub_add_cancel (by omega), Nat.add_mod_right, Nat.mod_eq_of_lt inside]

theorem lookup_eq_some_iff {slot : Slot V} : slot.lookup key = some value ↔ slot = .entry key value := by
  cases slot with
  | null => simp [Slot.lookup]
  | deleted => simp [Slot.lookup]
  | entry k v =>
    simp only [Slot.lookup, strcmp_eq_zero_iff]
    split
    · rename_i same
      simp [same]
    · rename_i other
      simp [other]

theorem mem_entries : (key, value) ∈ m.entries ↔ .entry key value ∈ m.mArray := by
  unfold entries
  rw [List.mem_filterMap]
  constructor
  · rintro ⟨slot, member, same⟩
    cases slot with
    | entry k v =>
      obtain ⟨rfl, rfl⟩ := Prod.mk.inj (Option.some.inj same)
      exact member
    | null => cases same
    | deleted => cases same
  · intro member
    exact ⟨_, member, rfl⟩

theorem mem_of_get (found : m.get key = some value) : (key, value) ∈ m.entries := by
  obtain ⟨i, _, probed⟩ := List.exists_of_findSome?_eq_some found
  obtain ⟨slot, read, matched⟩ := Option.bind_eq_some_iff.mp probed
  obtain rfl := lookup_eq_some_iff.mp matched
  exact mem_entries.mpr (List.mem_of_getElem? read)

theorem entry_unique (distinct : (m.entries.map Prod.fst).Nodup) (here : (key, value) ∈ m.entries)
    (there : (key, v) ∈ m.entries) : value = v :=
  congrArg Prod.snd (List.inj_on_of_nodup_map distinct here there rfl)

theorem get_eq_some_iff (distinct : (m.entries.map Prod.fst).Nodup) :
    m.get key = some value ↔ (key, value) ∈ m.entries := by
  constructor
  · exact mem_of_get
  · intro member
    obtain ⟨j, read⟩ := List.mem_iff_getElem?.mp (mem_entries.mp member)
    obtain ⟨i, inside, here⟩ := m.exists_attempt key (List.getElem?_eq_some_iff.mp read).1
    cases found : m.get key with
    | none =>
      have missed := List.findSome?_eq_none_iff.mp found i (List.mem_range.mpr inside)
      rw [here, read, Option.bind_some, lookup_eq_some_iff.mpr rfl] at missed
      cases missed
    | some v => rw [entry_unique distinct member (mem_of_get found)]

theorem get_eq_none_iff (distinct : (m.entries.map Prod.fst).Nodup) :
    m.get key = none ↔ key ∉ m.entries.map Prod.fst := by
  constructor
  · intro missed member
    obtain ⟨⟨k, v⟩, here, rfl⟩ := List.mem_map.mp member
    rw [(get_eq_some_iff distinct).mpr here] at missed
    cases missed
  · intro fresh
    cases found : m.get key with
    | none => rfl
    | some v => exact absurd (List.mem_map.mpr ⟨_, mem_of_get found, rfl⟩) fresh

/-- What `store` does to an array with an empty slot. -/
structure Stored (m : HashMap V) (key : CString) (value : V) (m' : HashMap V) : Prop where
  capacity : m'.mCapacity = m.mCapacity
  size : m'.mSize = m.mSize
  used : m'.used = m.used + 1
  entries : m'.entries.Perm ((key, value) :: m.entries)

/-- In an array with an empty slot, the entry goes to the first one that the probes of its key reach. -/
theorem store_eq (space : m.used < m.mCapacity) (key : CString) (value : V) :
    ∃ i < m.mCapacity, m.mArray[m.attempt key i]? = some .null ∧
      (∀ j < i, m.mArray[m.attempt key j]? ≠ some .null) ∧
      m.store key value = { m with mArray := m.mArray.set (m.attempt key i) (.entry key value) } := by
  have empty : ∃ slot ∈ m.mArray, slot.isNull = true := by
    by_contra none
    have full : m.mArray.countP (fun slot => !slot.isNull) = m.mArray.length := by
      apply List.countP_eq_length.mpr
      intro slot member
      simpa using fun null => none ⟨slot, member, null⟩
    exact absurd space (by unfold used mCapacity; omega)
  obtain ⟨slot, member, null⟩ := empty
  obtain ⟨j, read⟩ := List.mem_iff_getElem?.mp member
  obtain ⟨i, inside, here⟩ := m.exists_attempt key (List.getElem?_eq_some_iff.mp read).1
  unfold store
  cases found : (List.range m.mCapacity).find? fun i => (m.mArray[m.attempt key i]?).any Slot.isNull with
  | none =>
    have missed := List.find?_eq_none.mp found i (List.mem_range.mpr inside)
    rw [here, read] at missed
    exact absurd null missed
  | some i =>
    obtain ⟨free, bound, earlier⟩ := List.find?_range_eq_some.mp found
    obtain ⟨slot, read, null⟩ := (Option.any_eq_true _ _).mp free
    have blank : slot = .null := by
      cases slot with
      | null => rfl
      | deleted => cases null
      | entry => cases null
    refine ⟨i, List.mem_range.mp bound, blank ▸ read, fun j before taken => ?_, rfl⟩
    have busy := earlier j before
    rw [taken] at busy
    cases busy

theorem store_spec (space : m.used < m.mCapacity) (key : CString) (value : V) :
    Stored m key value (m.store key value) := by
  obtain ⟨i, -, read, -, stored⟩ := store_eq space key value
  obtain ⟨bound, read⟩ := List.getElem?_eq_some_iff.mp read
  obtain ⟨before, after, split, _, replaced⟩ := List.exists_of_set bound
  rw [read] at split
  rw [stored]
  refine ⟨?_, rfl, ?_, ?_⟩
  · simp [mCapacity]
  · unfold used
    dsimp only
    rw [replaced, split]
    simp [Slot.isNull]
    omega
  · unfold entries
    dsimp only
    rw [replaced, split]
    simp only [List.filterMap_append, List.filterMap_cons, Slot.pair]
    exact List.perm_middle

theorem insertDepth_light {depth : Nat} (light : (m.mSize + 1) * 100 / m.mCapacity < 75) (key : CString)
    (value : V) :
    m.insertDepth (depth + 1) key value = some (store { m with mSize := m.mSize + 1 } key value) := by
  have below : ¬HashMap.loadPercentage { m with mSize := m.mSize + 1 } ≥ 75 := Nat.not_le.mpr light
  simp [insertDepth, below]

/-- An array that `grow` has filled with these entries, counting them anew. -/
structure Refilled (capacity : Nat) (pairs : List (CString × V)) (m : HashMap V) : Prop where
  capacity : m.mCapacity = capacity
  size : m.mSize = pairs.length
  used : m.used = pairs.length
  entries : m.entries.Perm pairs

theorem refilled_create (capacity : Nat) : Refilled capacity [] (create capacity : HashMap V) :=
  ⟨by simp [create, mCapacity], rfl, by simp [create, used, Slot.isNull], by rw [entries_create]⟩

theorem reinsert_spec {capacity : Nat} {pairs : List (CString × V)}
    (filled : Refilled capacity pairs m) (room : pairs.length * 2 + 2 ≤ capacity) (slot : Slot V) :
    ∃ m', (∀ depth, reinsert (insertDepth (depth + 1)) m slot = some m') ∧
      Refilled capacity (pairs ++ slot.pair.toList) m' := by
  cases slot with
  | null => exact ⟨m, fun _ => rfl, by simpa [Slot.pair] using filled⟩
  | deleted => exact ⟨m, fun _ => rfl, by simpa [Slot.pair] using filled⟩
  | entry key value =>
    obtain ⟨capacity_eq, size, used, entries⟩ := filled
    have light : (m.mSize + 1) * 100 / m.mCapacity < 75 := by
      rw [Nat.div_lt_iff_lt_mul (by omega)]
      omega
    have space : HashMap.used { m with mSize := m.mSize + 1 } < m.mCapacity := by
      have same : HashMap.used { m with mSize := m.mSize + 1 } = m.used := rfl
      omega
    have stored := store_spec (m := { m with mSize := m.mSize + 1 }) space key value
    refine ⟨_, fun depth => insertDepth_light light key value, stored.capacity.trans capacity_eq, ?_, ?_, ?_⟩
    · rw [stored.size, List.length_append]
      exact congrArg (· + 1) size
    · rw [stored.used, List.length_append]
      exact congrArg (· + 1) used
    · refine stored.entries.trans ((entries.cons _).trans ?_)
      exact (List.perm_append_singleton _ _).symm

/-- However deep `insert` and `grow` may call each other, `grow` does the same. -/
theorem grow_spec (m : HashMap V) :
    ∃ m', (∀ depth, m.grow (insertDepth (depth + 1)) = some m') ∧ Refilled (m.mCapacity * 2) m.entries m' := by
  have folded : ∀ (slots : List (Slot V)) (pairs : List (CString × V)) (m₁ : HashMap V),
      pairs.length + slots.length ≤ m.mCapacity → Refilled (m.mCapacity * 2) pairs m₁ →
      ∃ m', (∀ depth, slots.foldlM (reinsert (insertDepth (depth + 1))) m₁ = some m') ∧
        Refilled (m.mCapacity * 2) (pairs ++ slots.filterMap Slot.pair) m' := by
    intro slots
    induction slots with
    | nil =>
      intro pairs m₁ _ filled
      exact ⟨m₁, fun _ => rfl, by simpa using filled⟩
    | cons slot slots ih =>
      intro pairs m₁ room filled
      rw [List.length_cons] at room
      obtain ⟨m₂, inserted, filled⟩ := reinsert_spec filled (by omega) slot
      have few : slot.pair.toList.length ≤ 1 := by cases slot.pair <;> simp
      obtain ⟨m', folded, filled⟩ :=
        ih (pairs ++ slot.pair.toList) m₂ (by rw [List.length_append]; omega) filled
      refine ⟨m', ?_, ?_⟩
      · intro depth
        rw [List.foldlM_cons, inserted depth]
        exact folded depth
      · rw [List.append_assoc] at filled
        have same : slot.pair.toList ++ slots.filterMap Slot.pair = (slot :: slots).filterMap Slot.pair := by
          rw [List.filterMap_cons]
          cases slot.pair <;> rfl
        exact same ▸ filled
  exact folded m.mArray [] _ (by simp [mCapacity]) (refilled_create _)

theorem entries_length_le (m : HashMap V) : m.entries.length ≤ m.mCapacity := List.length_filterMap_le _ _

theorem insertDepth_spec (sound : m.Sound) (fresh : key ∉ m.entries.map Prod.fst) (value : V) :
    ∃ m', (∀ depth, m.insertDepth (depth + 2) key value = some m') ∧ m'.Sound ∧
      m'.entries.Perm ((key, value) :: m.entries) := by
  have positive := sound.positive
  have counted := sound.counted
  have finish : ∀ {m₁ : HashMap V}, m₁.used < m₁.mCapacity → 0 < m₁.mCapacity → m₁.used ≤ m₁.mSize →
      m₁.entries.Perm m.entries → (m₁.store key value).Sound ∧
        (m₁.store key value).entries.Perm ((key, value) :: m.entries) := by
    intro m₁ space positive counted same
    have stored := store_spec space key value
    have perm := stored.entries.trans (same.cons (key, value))
    refine ⟨⟨stored.capacity ▸ positive, ?_, ?_⟩, perm⟩
    · rw [(perm.map Prod.fst).nodup_iff]
      exact List.nodup_cons.mpr ⟨fresh, sound.distinct⟩
    · rw [stored.used, stored.size]
      omega
  by_cases light : (m.mSize + 1) * 100 / m.mCapacity < 75
  · refine ⟨_, fun depth => insertDepth_light light key value, finish ?_ positive counted (.refl _)⟩
    rw [Nat.div_lt_iff_lt_mul positive] at light
    unfold used mCapacity at *
    dsimp only
    omega
  · have heavy : HashMap.loadPercentage { m with mSize := m.mSize + 1 } ≥ 75 := Nat.not_lt.mp light
    obtain ⟨m₁, grown, spec⟩ := grow_spec { m with mSize := m.mSize + 1 }
    have small := entries_length_le m
    have capacity : m₁.mCapacity = m.mCapacity * 2 := spec.capacity
    have used : m₁.used = m.entries.length := spec.used
    have size : m₁.mSize = m.entries.length := spec.size
    refine ⟨m₁.store key value, fun depth => ?_, finish (by omega) (by omega) (by omega) spec.entries⟩
    unfold insertDepth
    simp [heavy, grown]

/-- A fresh key is entered, and no other entry is lost. -/
theorem insert_spec (sound : m.Sound) (fresh : key ∉ m.entries.map Prod.fst) (value : V) :
    ∃ m', m.insert key value = some m' ∧ m'.Sound ∧ m'.entries.Perm ((key, value) :: m.entries) := by
  obtain ⟨m', inserted, spec⟩ := insertDepth_spec sound fresh value
  exact ⟨m', inserted 0, spec⟩

theorem get_of_perm (distinct : (m.entries.map Prod.fst).Nodup)
    (perm : m'.entries.Perm ((key, value) :: m.entries)) (fresh : key ∉ m.entries.map Prod.fst) :
    m'.get k = if k = key then some value else m.get k := by
  have distinct' : (m'.entries.map Prod.fst).Nodup := by
    rw [(perm.map Prod.fst).nodup_iff]
    exact List.nodup_cons.mpr ⟨fresh, distinct⟩
  split
  · rename_i same
    exact (get_eq_some_iff distinct').mpr (perm.mem_iff.mpr (same ▸ List.mem_cons_self))
  · rename_i other
    apply Option.ext
    intro v
    rw [get_eq_some_iff distinct', get_eq_some_iff distinct, perm.mem_iff, List.mem_cons]
    simp [other]

/-- `insert` on a fresh key updates the finite map that `get` reads. -/
theorem get_insert (sound : m.Sound) (fresh : m.get key = none) (value : V) :
    ∃ m', m.insert key value = some m' ∧ m'.Sound ∧
      ∀ k, m'.get k = if k = key then some value else m.get k := by
  have absent := (get_eq_none_iff sound.distinct).mp fresh
  obtain ⟨m', inserted, sound', perm⟩ := insert_spec sound absent value
  exact ⟨m', inserted, sound', fun k => get_of_perm sound.distinct perm absent⟩

theorem erased_erased (key : CString) (slot : Slot V) :
    (slot.erased key).erased key = slot.erased key := by
  unfold Slot.erased
  split
  · simp [Slot.lookup]
  · rfl

theorem eraseStep_spec (m : HashMap V) (key : CString) (i : Nat) :
    (m.eraseStep key i).mCapacity = m.mCapacity ∧ (m.eraseStep key i).mSize = m.mSize ∧
      ∀ j, (m.eraseStep key i).mArray[j]? =
        if m.attempt key i = j then (m.mArray[j]?).map (Slot.erased key) else m.mArray[j]? := by
  unfold eraseStep
  split
  · rename_i hit
    refine ⟨by simp [mCapacity], rfl, ?_⟩
    intro j
    obtain ⟨slot, read, equal⟩ := (Option.any_eq_true _ _).mp hit
    by_cases here : m.attempt key i = j
    · subst here
      have inside := (List.getElem?_eq_some_iff.mp read).1
      rw [if_pos rfl, List.getElem?_set_self inside, read, Option.map_some, Slot.erased, if_pos equal]
    · simp [here]
  · rename_i miss
    refine ⟨rfl, rfl, ?_⟩
    intro j
    split
    · rename_i here
      subst here
      cases read : m.mArray[m.attempt key i]? with
      | none => rfl
      | some slot =>
        have other : ¬(slot.lookup key).isSome = true := by simpa [read] using miss
        simp [Slot.erased, other]
    · rfl

/-- The probes of `erase` reach every slot, so every entry with an equal key becomes a tombstone. -/
theorem erase_eq (m : HashMap V) (key : CString) :
    m.erase key = { m with mArray := m.mArray.map (Slot.erased key) } := by
  have folded : ∀ n, ((List.range n).foldl (eraseStep key) m).mCapacity = m.mCapacity ∧
      ((List.range n).foldl (eraseStep key) m).mSize = m.mSize ∧
      ∀ j, ((List.range n).foldl (eraseStep key) m).mArray[j]? =
        if ∃ i < n, m.attempt key i = j then (m.mArray[j]?).map (Slot.erased key) else m.mArray[j]? := by
    intro n
    induction n with
    | zero => simp
    | succ n ih =>
      rw [List.range_succ, List.foldl_append, List.foldl_cons, List.foldl_nil]
      obtain ⟨capacity, size, slots⟩ := ih
      generalize (List.range n).foldl (eraseStep key) m = m₁ at capacity size slots
      obtain ⟨capacity', size', slots'⟩ := eraseStep_spec m₁ key n
      refine ⟨capacity'.trans capacity, size'.trans size, ?_⟩
      intro j
      have same : m₁.attempt key n = m.attempt key n := by simp [attempt, capacity]
      rw [slots', slots, same]
      by_cases last : m.attempt key n = j
      · have reached : ∃ i < n + 1, m.attempt key i = j := ⟨n, Nat.lt_succ_self n, last⟩
        rw [if_pos last, if_pos reached]
        split
        · rw [Option.map_map]
          exact congrArg (Option.map · _) (funext (erased_erased key))
        · rfl
      · have earlier : (∃ i < n + 1, m.attempt key i = j) ↔ ∃ i < n, m.attempt key i = j := by
          constructor
          · rintro ⟨i, below, here⟩
            have apart : i ≠ n := fun same => last (same ▸ here)
            exact ⟨i, by omega, here⟩
          · rintro ⟨i, below, here⟩
            exact ⟨i, by omega, here⟩
        simp only [if_neg last, earlier]
  obtain ⟨_, size, slots⟩ := folded m.mCapacity
  have array : (m.erase key).mArray = m.mArray.map (Slot.erased key) := by
    apply List.ext_getElem?
    intro j
    rw [erase, slots j, List.getElem?_map]
    split
    · rfl
    · rename_i unreached
      have outside : m.mArray[j]? = none := by
        apply List.getElem?_eq_none
        by_contra inside
        exact unreached (m.exists_attempt key (Nat.not_le.mp inside))
      simp [outside]
  cases erased : m.erase key with
  | mk slots size' =>
    rw [erase] at erased
    rw [erase, erased] at array
    rw [erased] at size
    simp only at array size
    rw [array, size]

theorem pair_erased (key : CString) (slot : Slot V) :
    (slot.erased key).pair = slot.pair.filter fun entry => entry.1 ≠ key := by
  unfold Slot.erased
  cases slot with
  | null => simp [Slot.lookup, Slot.pair]
  | deleted => simp [Slot.lookup, Slot.pair]
  | entry k v =>
    by_cases same : k = key
    · simp [Slot.lookup, Slot.pair, same, strcmp_self, Option.filter]
    · have differs : ¬strcmp k.chars key.chars = 0 := mt strcmp_eq_zero_iff.mp same
      simp [Slot.lookup, Slot.pair, same, differs, Option.filter]

theorem entries_erase (m : HashMap V) (key : CString) :
    (m.erase key).entries = m.entries.filter fun entry => entry.1 ≠ key := by
  rw [erase_eq]
  unfold entries
  dsimp only
  rw [List.filterMap_map, List.filter_filterMap]
  exact List.filterMap_congr fun slot _ => pair_erased key slot

/-- A tombstone is still in use. -/
theorem used_erase (m : HashMap V) (key : CString) : (m.erase key).used = m.used := by
  have same : ∀ slot : Slot V, (slot.erased key).isNull = slot.isNull := by
    intro slot
    cases slot with
    | entry k v =>
      unfold Slot.erased
      split <;> rfl
    | _ => rfl
  rw [erase_eq]
  simp [used, List.countP_map, Function.comp_def, same]

/-- `erase` removes one key from the finite map that `get` reads. -/
theorem erase_spec (sound : m.Sound) (key : CString) :
    (m.erase key).Sound ∧ ∀ k, (m.erase key).get k = if k = key then none else m.get k := by
  have distinct : ((m.erase key).entries.map Prod.fst).Nodup := by
    rw [entries_erase]
    exact sound.distinct.sublist (List.filter_sublist.map Prod.fst)
  have size : (m.erase key).mSize = m.mSize := by rw [erase_eq]
  refine ⟨⟨?_, distinct, ?_⟩, ?_⟩
  · rw [erase_eq]
    simpa [mCapacity] using sound.positive
  · rw [used_erase, size]
    exact sound.counted
  · intro k
    apply Option.ext
    intro v
    rw [get_eq_some_iff distinct, entries_erase, List.mem_filter]
    split
    · rename_i same
      simp [same]
    · rename_i other
      simp [other, get_eq_some_iff sound.distinct]

end HashMap

end FishOS.Klib
