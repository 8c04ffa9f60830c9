import FishOS.Heap.Allocator
import FishOS.Klib.HashMap

/-!
# Hash maps in the heap

`klib::HashMap` over the bytes of the heap: the object is a pointer to the buckets and two numbers,
and a copy of the object has the same buckets. The null pointer is zero, and writing through it is `none`.
-/

namespace FishOS.Klib

open Heap

inductive HeapCall where
  | malloc (ptr : Nat)
  | free (ptr : Nat)
  deriving DecidableEq

/-- The heap, with the allocations and releases that have been made in it. -/
structure KernelHeap where
  alloc : BuddyAlloc
  m : Mem
  calls : List HeapCall

namespace KernelHeap

def malloc (h : KernelHeap) (size : Nat) : KernelHeap × Nat :=
  match BuddyAlloc.malloc h.alloc h.m size with
  | (m, some ptr) => ({ h with m := m, calls := h.calls ++ [.malloc ptr] }, ptr)
  | (m, none) => ({ h with m := m }, 0)

def free (h : KernelHeap) (ptr : Nat) : KernelHeap :=
  if ptr = 0 then h
  else { h with m := BuddyAlloc.free h.alloc h.m (some ptr), calls := h.calls ++ [.free ptr] }

def write64 (h : KernelHeap) (a value : Nat) : KernelHeap := { h with m := h.m.write64 a value }

def calloc (h : KernelHeap) (size : Nat) : Option (KernelHeap × Nat) :=
  let (h, ptr) := h.malloc size
  if ptr = 0 then none else some ({ h with m := h.m.memset ptr 0 size }, ptr)

/-- The constructor behind every `new` writes to the object. -/
def new (h : KernelHeap) (size : Nat) : Option (KernelHeap × Nat) :=
  let (h, ptr) := h.malloc size
  if ptr = 0 then none else some (h, ptr)

def strdup (h : KernelHeap) (src : CString) : KernelHeap × Nat :=
  let size := src.chars.length + 1
  let (h, str) := h.malloc size
  (if str = 0 then h else { h with m := h.m.copyIn str (fun i => src.chars.getD i 0) size }, str)

end KernelHeap

/-- `strcmp` with a string in memory on the left. -/
def strcmpAt (m : Mem) (lhs : Nat) : List UInt8 → Int
  | r :: rhs => if m lhs = r then strcmpAt m (lhs + 1) rhs else ((m lhs).toNat : Int) - r.toNat
  | [] => (m lhs).toNat

/-- The characters before the first NUL at an address. -/
def charsAt (m : Mem) (str : Nat) : Nat → Option (List UInt8)
  | 0 => none
  | fuel + 1 => if m str = 0 then some [] else (charsAt m (str + 1) fuel).map (m str :: ·)

structure RawMap where
  mArray : Nat
  mCapacity : Nat
  mSize : Nat
  deriving DecidableEq

namespace RawMap

/-- `HASHMAP_DELETED_ENTRY` -/
def deletedEntry : Nat := 2 ^ 64 - 1

def create (h : KernelHeap) (initial_capacity : Nat) : Option (KernelHeap × RawMap) := do
  let (h, array) ← h.calloc (8 * initial_capacity)
  some (h, { mArray := array, mCapacity := initial_capacity, mSize := 0 })

def slot (map : RawMap) (m : Mem) (i : Nat) : Nat := m.read64 (map.mArray + 8 * i)

def destroyEntry (map : RawMap) (h : KernelHeap) (i : Nat) : KernelHeap :=
  let entry := map.slot h.m i
  if entry ≠ 0 ∧ entry ≠ deletedEntry then h.free entry else h

/-- `~HashMap` -/
def destroy (map : RawMap) (h : KernelHeap) : KernelHeap :=
  ((List.range map.mCapacity).foldl map.destroyEntry h).free map.mArray

def loadPercentage (map : RawMap) : Nat := map.mSize * 100 / map.mCapacity

def attempt (map : RawMap) (key : CString) (i : Nat) : Nat := (i + (hash key).toNat % map.mCapacity) % map.mCapacity

/-- `new Entry(strdup(key), value)` -/
def newEntry (h : KernelHeap) (key : CString) (value : Nat) : Option (KernelHeap × Nat) := do
  let (h, entry) ← h.new 16
  let copy := h.strdup key
  some ((copy.1.write64 entry copy.2).write64 (entry + 8) value, entry)

/-- The probing loop of `insert`. -/
def store (map : RawMap) (h : KernelHeap) (key : CString) (value : Nat) : Option KernelHeap :=
  match (List.range map.mCapacity).find? fun i => map.slot h.m (map.attempt key i) = 0 with
  | some i => do
    let (h, entry) ← newEntry h key value
    some (h.write64 (map.mArray + 8 * map.attempt key i) entry)
  | none => some h

/-- One round of the loop of `grow`, which moves the `i`-th entry of `old` to the new array. -/
def reinsert (insert : RawMap → KernelHeap → CString → Nat → Option (KernelHeap × RawMap)) (old : RawMap)
    (grown : KernelHeap × RawMap) (i : Nat) : Option (KernelHeap × RawMap) :=
  let entry := old.slot grown.1.m i
  if entry ≠ 0 ∧ entry ≠ deletedEntry then do
    let chars ← charsAt grown.1.m (grown.1.m.read64 entry) (2 ^ 64)
    let (h, map) ← insert grown.2 grown.1 (.ofBytes chars) (grown.1.m.read64 (entry + 8))
    some (h.free entry, map)
  else some grown

def grow (insert : RawMap → KernelHeap → CString → Nat → Option (KernelHeap × RawMap)) (map : RawMap) (h : KernelHeap) :
    Option (KernelHeap × RawMap) := do
  let grown ← create h (map.mCapacity * 2)
  let (h, grown) ← (List.range map.mCapacity).foldlM (reinsert insert map) grown
  some (h.free map.mArray, grown)

/-- `insert` with a bound on how deep `insert` and `grow` call each other. -/
def insertDepth : Nat → RawMap → KernelHeap → CString → Nat → Option (KernelHeap × RawMap)
  | 0, _, _, _, _ => none
  | depth + 1, map, h, key, value => do
    let map := { map with mSize := map.mSize + 1 }
    let (h, map) ← if map.loadPercentage ≥ 75 then map.grow (insertDepth depth) h else some (h, map)
    let h ← map.store h key value
    some (h, map)

def insert (map : RawMap) (h : KernelHeap) (key : CString) (value : Nat) : Option (KernelHeap × RawMap) :=
  map.insertDepth 2 h key value

/-- The value behind the pointer that `get` returns. -/
def get (map : RawMap) (m : Mem) (key : CString) : Option Nat :=
  (List.range map.mCapacity).findSome? fun i =>
    let entry := map.slot m (map.attempt key i)
    if entry ≠ 0 ∧ entry ≠ deletedEntry ∧ strcmpAt m (m.read64 entry) key.chars = 0 then some (m.read64 (entry + 8))
    else none

end RawMap

/-! ### The calls of the allocator -/

/-- Calls are only ever added. -/
def KernelHeap.Extends (h h' : KernelHeap) : Prop := h.calls <+: h'.calls

namespace KernelHeap

variable {h h₁ h₂ : KernelHeap} {ptr : Nat}

theorem Extends.refl (h : KernelHeap) : h.Extends h := List.prefix_refl h.calls

theorem Extends.trans (first : h.Extends h₁) (second : h₁.Extends h₂) : h.Extends h₂ :=
  List.IsPrefix.trans first second

theorem Extends.store (before : h.Extends h₁) (m : Mem) : h.Extends { h₁ with m := m } := before

theorem Extends.write64 (before : h.Extends h₁) (a value : Nat) : h.Extends (h₁.write64 a value) := before.store _

theorem malloc_extends (h : KernelHeap) (size : Nat) : h.Extends (h.malloc size).1 := by
  unfold malloc Extends
  split <;> simp

theorem free_extends (h : KernelHeap) (ptr : Nat) : h.Extends (h.free ptr) := by
  unfold free Extends
  split <;> simp

theorem free_calls (h : KernelHeap) (block : ptr ≠ 0) : (h.free ptr).calls = h.calls ++ [.free ptr] := by
  simp [free, block]

theorem malloc_calls {size : Nat} (block : (h.malloc size).2 ≠ 0) :
    (h.malloc size).1.calls = h.calls ++ [.malloc (h.malloc size).2] := by
  unfold malloc at block ⊢
  split
  · rfl
  · rename_i failed
    rw [failed] at block
    exact absurd rfl block

theorem calloc_calls {size : Nat} (made : h.calloc size = some (h₁, ptr)) :
    ptr ≠ 0 ∧ h₁.calls = h.calls ++ [.malloc ptr] := by
  simp only [calloc] at made
  split at made
  · cases made
  · rename_i block
    obtain ⟨rfl, rfl⟩ := Prod.mk.inj (Option.some.inj made)
    exact ⟨block, malloc_calls block⟩

theorem new_extends {size : Nat} (made : h.new size = some (h₁, ptr)) : h.Extends h₁ := by
  simp only [new] at made
  split at made
  · cases made
  · obtain ⟨rfl, rfl⟩ := Prod.mk.inj (Option.some.inj made)
    exact malloc_extends h size

theorem strdup_extends (h : KernelHeap) (src : CString) : h.Extends (h.strdup src).1 := by
  have before := malloc_extends h (src.chars.length + 1)
  cases allocated : h.malloc (src.chars.length + 1) with
  | mk h₁ str =>
    rw [allocated] at before
    simp only [strdup, allocated]
    split
    · exact before
    · exact before.store _

end KernelHeap

namespace RawMap

variable {map map₁ : RawMap} {h h₁ : KernelHeap} {key : CString} {value entry : Nat}

theorem create_calls {capacity : Nat} (made : create h capacity = some (h₁, map)) :
    map.mArray ≠ 0 ∧ h₁.calls = h.calls ++ [.malloc map.mArray] := by
  unfold create at made
  obtain ⟨⟨h₂, array⟩, allocated, made⟩ := Option.bind_eq_some_iff.mp made
  obtain ⟨rfl, rfl⟩ := Prod.mk.inj (Option.some.inj made)
  exact KernelHeap.calloc_calls allocated

theorem create_empty {capacity : Nat} (made : create h capacity = some (h₁, map)) :
    map.mCapacity = capacity ∧ map.mSize = 0 := by
  unfold create at made
  obtain ⟨⟨h₂, array⟩, _, made⟩ := Option.bind_eq_some_iff.mp made
  obtain ⟨rfl, rfl⟩ := Prod.mk.inj (Option.some.inj made)
  exact ⟨rfl, rfl⟩

theorem create_extends {capacity : Nat} (made : create h capacity = some (h₁, map)) : h.Extends h₁ :=
  ⟨_, (create_calls made).2.symm⟩

theorem destroyEntry_extends (map : RawMap) (h : KernelHeap) (i : Nat) : h.Extends (map.destroyEntry h i) := by
  unfold destroyEntry
  dsimp only
  split
  · exact h.free_extends _
  · exact .refl _

/-- The buckets are what is freed last. -/
theorem destroy_calls (map : RawMap) (h : KernelHeap) (array : map.mArray ≠ 0) :
    ∃ entries, (map.destroy h).calls = h.calls ++ entries ++ [.free map.mArray] := by
  have loop (slots : List Nat) (h : KernelHeap) : h.Extends (slots.foldl map.destroyEntry h) := by
    induction slots generalizing h with
    | nil => exact .refl _
    | cons i slots ih =>
      rw [List.foldl_cons]
      exact (destroyEntry_extends map h i).trans (ih _)
  obtain ⟨entries, calls⟩ := loop (List.range map.mCapacity) h
  refine ⟨entries, ?_⟩
  rw [destroy, KernelHeap.free_calls _ array, calls]

theorem newEntry_extends (made : newEntry h key value = some (h₁, entry)) : h.Extends h₁ := by
  unfold newEntry at made
  obtain ⟨⟨h₂, object⟩, allocated, made⟩ := Option.bind_eq_some_iff.mp made
  obtain ⟨rfl, rfl⟩ := Prod.mk.inj (Option.some.inj made)
  exact (((KernelHeap.new_extends allocated).trans (h₂.strdup_extends key)).write64 _ _).write64 _ _

theorem store_extends (stored : map.store h key value = some h₁) : h.Extends h₁ := by
  unfold store at stored
  split at stored
  · obtain ⟨⟨h₂, object⟩, made, stored⟩ := Option.bind_eq_some_iff.mp stored
    obtain rfl := Option.some.inj stored
    exact (newEntry_extends made).write64 _ _
  · obtain rfl := Option.some.inj stored
    exact .refl _

/-- What `grow` asks of the `insert` that it calls. -/
def Extending (insert : RawMap → KernelHeap → CString → Nat → Option (KernelHeap × RawMap)) : Prop :=
  ∀ {map h key value h₁ map₁}, insert map h key value = some (h₁, map₁) → h.Extends h₁

theorem reinsert_extends {insert : RawMap → KernelHeap → CString → Nat → Option (KernelHeap × RawMap)}
    (extending : Extending insert) {grown grown₁ : KernelHeap × RawMap} {i : Nat}
    (moved : reinsert insert map grown i = some grown₁) : grown.1.Extends grown₁.1 := by
  unfold reinsert at moved
  dsimp only at moved
  split at moved
  · simp only [Option.bind_eq_bind, Option.bind_eq_some_iff, Prod.exists] at moved
    obtain ⟨chars, _, h₂, map₂, inserted, moved⟩ := moved
    obtain rfl := Option.some.inj moved
    dsimp only
    exact (extending inserted).trans (h₂.free_extends _)
  · obtain rfl := Option.some.inj moved
    exact .refl _

theorem grow_extends {insert : RawMap → KernelHeap → CString → Nat → Option (KernelHeap × RawMap)}
    (extending : Extending insert) (ran : grow insert map h = some (h₁, map₁)) : h.Extends h₁ := by
  have loop (slots : List Nat) {grown grown₁ : KernelHeap × RawMap}
      (moved : slots.foldlM (reinsert insert map) grown = some grown₁) : grown.1.Extends grown₁.1 := by
    induction slots generalizing grown with
    | nil =>
      obtain rfl := Option.some.inj moved
      exact .refl _
    | cons i slots ih =>
      rw [List.foldlM_cons] at moved
      obtain ⟨next, first, rest⟩ := Option.bind_eq_some_iff.mp moved
      exact (reinsert_extends extending first).trans (ih rest)
  unfold grow at ran
  obtain ⟨⟨h₂, empty⟩, made, ran⟩ := Option.bind_eq_some_iff.mp ran
  obtain ⟨⟨h₃, grown⟩, moved, ran⟩ := Option.bind_eq_some_iff.mp ran
  obtain ⟨rfl, rfl⟩ := Prod.mk.inj (Option.some.inj ran)
  exact ((create_extends made).trans (loop _ moved)).trans (h₃.free_extends _)

theorem insertDepth_extends (depth : Nat) : Extending (insertDepth depth) := by
  induction depth with
  | zero => exact fun inserted => nomatch inserted
  | succ depth ih =>
    intro map h key value h₁ map₁ inserted
    rw [insertDepth] at inserted
    dsimp only at inserted
    split at inserted
    · obtain ⟨⟨h₂, map₂⟩, grown, inserted⟩ := Option.bind_eq_some_iff.mp inserted
      obtain ⟨h₃, stored, inserted⟩ := Option.bind_eq_some_iff.mp inserted
      obtain ⟨rfl, rfl⟩ := Prod.mk.inj (Option.some.inj inserted)
      exact (grow_extends ih grown).trans (store_extends stored)
    · rw [Option.bind_eq_bind, Option.bind_some] at inserted
      obtain ⟨h₂, stored, inserted⟩ := Option.bind_eq_some_iff.mp inserted
      obtain ⟨rfl, rfl⟩ := Prod.mk.inj (Option.some.inj inserted)
      exact store_extends stored

theorem insert_extends (inserted : map.insert h key value = some (h₁, map₁)) : h.Extends h₁ :=
  insertDepth_extends 2 inserted

/-- Below three quarters the buckets stay where they are. -/
theorem insert_light (light : (map.mSize + 1) * 100 / map.mCapacity < 75)
    (inserted : map.insert h key value = some (h₁, map₁)) : map₁.mArray = map.mArray := by
  have below : ¬ RawMap.loadPercentage { map with mSize := map.mSize + 1 } ≥ 75 := Nat.not_le.mpr light
  rw [insert, insertDepth] at inserted
  dsimp only at inserted
  rw [if_neg below, Option.bind_eq_bind, Option.bind_some] at inserted
  obtain ⟨h₂, _, inserted⟩ := Option.bind_eq_some_iff.mp inserted
  obtain ⟨rfl, rfl⟩ := Prod.mk.inj (Option.some.inj inserted)
  rfl

end RawMap

end FishOS.Klib
