import FishOS.Klib.RawMap
import FishOS.Fs.Vfs

/-!
# The file system registry

`vfs::init` and `register_filesystem` over the bytes of the heap. `fs_drivers` returns its static
map by value, so every caller works on a copy and destroys it.
-/

namespace FishOS.Fs

open Klib Heap

/-- The addresses of the functions of `tmpfs` and of the virtual tables. -/
structure Symbols where
  instantiate : Nat
  create : Nat
  read : Nat
  write : Nat
  node : Nat
  directoryNode : Nat

/-- The static of `fs_drivers` is constructed by the first call, and lies outside of the heap. -/
structure Registry where
  heap : KernelHeap
  fileSystems : Option RawMap
  root : Nat

namespace Registry

/-- The static and the copy of it that is returned. -/
def fsDrivers (r : Registry) : Option (Registry × RawMap) :=
  match r.fileSystems with
  | some file_systems => some (r, file_systems)
  | none => do
    let (heap, file_systems) ← RawMap.create r.heap 16
    some ({ r with heap := heap, fileSystems := some file_systems }, file_systems)

/-- At the end of the statement the copy is destroyed. -/
def registerFilesystem (r : Registry) (identifier : CString) (fs_driver : Nat) : Option Registry := do
  let (r, copy) ← r.fsDrivers
  let (heap, copy) ← copy.insert r.heap identifier fs_driver
  some { r with heap := copy.destroy heap }

end Registry

namespace Symbols

variable (code : Symbols)

/-- `tmpfs::create_driver` -/
def createDriver (h : KernelHeap) : Option (KernelHeap × Nat) := do
  let (h, driver) ← h.new 8
  some (h.write64 driver code.instantiate, driver)

/-- `tmpfs::instantiate`, when the driver points to it. -/
def callInstantiate (h : KernelHeap) (driver : Nat) : Option (KernelHeap × Nat) :=
  if h.m.read64 driver = code.instantiate then do
    let (h, fs) ← h.new 24
    some (((h.write64 fs code.create).write64 (fs + 8) code.read).write64 (fs + 16) code.write, fs)
  else none

/-- The constructor of `Node`. -/
def constructNode (h : KernelHeap) (node : Nat) (type : NodeType) (fs parent : Nat) (name : CString) : KernelHeap :=
  let kind := match type with
    | .none => 0
    | .file => 1
    | .directory => 2
  let h := { h with m := (h.m.write64 node code.node).writeLE (node + 8) 4 kind }
  let h := (h.write64 (node + 16) fs).write64 (node + 40) parent
  let copy := h.strdup name
  copy.1.write64 (node + 48) copy.2

def constructDirectoryNode (h : KernelHeap) (node fs parent : Nat) (name : CString) : Option KernelHeap := do
  let h := code.constructNode h node .directory fs parent name
  let (h, children) ← RawMap.create (h.write64 node code.directoryNode) 16
  some (((h.write64 (node + 56) children.mArray).write64 (node + 64) children.mCapacity).write64 (node + 72) children.mSize)

/-- `children.insert`, on the object in the directory. -/
def insertChild (h : KernelHeap) (dir : Nat) (name : CString) (node : Nat) : Option KernelHeap := do
  let children : RawMap :=
    { mArray := h.m.read64 (dir + 56), mCapacity := h.m.read64 (dir + 64), mSize := h.m.read64 (dir + 72) }
  let (h, children) ← children.insert h name node
  some (((h.write64 (dir + 56) children.mArray).write64 (dir + 64) children.mCapacity).write64 (dir + 72) children.mSize)

def createDotentries (h : KernelHeap) (this : Nat) : Option KernelHeap := do
  let (h, dot) ← h.new 56
  let h := code.constructNode h dot .none (h.m.read64 (this + 16)) this dotName
  let (h, dotdot) ← h.new 56
  let h := code.constructNode h dotdot .none (h.m.read64 (this + 16)) this dotdotName
  let h := h.write64 (dot + 32) this
  let parent := h.m.read64 (this + 40)
  let h := h.write64 (dotdot + 32) (if parent ≠ 0 then parent else this)
  let h ← insertChild h this dotName dot
  insertChild h this dotdotName dotdot

/-- `tmpfs::create` for a directory without a parent, when the file system points to it. -/
def callCreate (h : KernelHeap) (fs : Nat) (name : CString) : Option (KernelHeap × Nat) :=
  if h.m.read64 fs = code.create then do
    let (h, node) ← h.new 80
    let h ← code.constructDirectoryNode h node fs 0 name
    let h ← code.createDotentries h node
    some (h, node)
  else none

end Symbols

namespace Registry

def tmpfsName : CString := .ofBytes [0x74, 0x6D, 0x70, 0x66, 0x73]

/-- `vfs::init`, with the driver that it registers. The calls of the allocator are recorded from here on. -/
def init (code : Symbols) (alloc : BuddyAlloc) (m : Mem) : Option (Registry × Nat) := do
  let (r, temporary) ← fsDrivers { heap := { alloc := alloc, m := m, calls := [] }, fileSystems := none, root := 0 }
  let (h, tmpfs_driver) ← code.createDriver (temporary.destroy r.heap)
  let r ← registerFilesystem { r with heap := h } tmpfsName tmpfs_driver
  let (h, root_fs) ← code.callInstantiate r.heap tmpfs_driver
  let (h, root) ← code.callCreate h root_fs emptyName
  some ({ r with heap := h, root := root }, tmpfs_driver)

def registerAll (r : Registry) (drivers : List (CString × Nat)) : Option Registry :=
  drivers.foldlM (fun r driver => r.registerFilesystem driver.1 driver.2) r

/-- The driver that the static has for an identifier. -/
def lookup (r : Registry) (identifier : CString) : Option Nat := r.fileSystems.bind fun map => map.get r.heap.m identifier

/-- The first allocation of all are the buckets of the static. -/
def BucketsLive (r : Registry) : Prop :=
  ∃ map since, r.fileSystems = some map ∧ r.heap.calls = .malloc map.mArray :: since ∧ .free map.mArray ∉ since

/-- Between two releases of a block it has been allocated again. -/
def FreedOnce (calls : List HeapCall) : Prop :=
  ∀ ptr before between after, calls = before ++ .free ptr :: between ++ .free ptr :: after → .malloc ptr ∈ between

/-- The registry keeps its entries. -/
structure Kept (r : Registry) (registered : List (CString × Nat)) : Prop where
  maps : ∀ driver ∈ registered, r.lookup driver.1 = some driver.2
  live : r.BucketsLive
  once : FreedOnce r.heap.calls

end Registry

/-! ### The buckets of the static -/

section Extends

open KernelHeap

variable {code : Symbols} {h h₁ : KernelHeap} {driver fs node parent : Nat} {name : CString}

theorem createDriver_extends (made : code.createDriver h = some (h₁, driver)) : h.Extends h₁ := by
  unfold Symbols.createDriver at made
  obtain ⟨⟨h₂, block⟩, allocated, made⟩ := Option.bind_eq_some_iff.mp made
  obtain ⟨rfl, rfl⟩ := Prod.mk.inj (Option.some.inj made)
  exact (new_extends allocated).write64 _ _

theorem callInstantiate_extends (made : code.callInstantiate h driver = some (h₁, fs)) : h.Extends h₁ := by
  unfold Symbols.callInstantiate at made
  split at made
  · obtain ⟨⟨h₂, block⟩, allocated, made⟩ := Option.bind_eq_some_iff.mp made
    obtain ⟨rfl, rfl⟩ := Prod.mk.inj (Option.some.inj made)
    exact (((new_extends allocated).write64 _ _).write64 _ _).write64 _ _
  · cases made

theorem constructNode_extends (before : h.Extends h₁) (code : Symbols) (node : Nat) (type : NodeType) (fs parent : Nat)
    (name : CString) : h.Extends (code.constructNode h₁ node type fs parent name) := by
  unfold Symbols.constructNode
  apply Extends.write64
  refine Extends.trans ?_ (strdup_extends _ name)
  exact ((before.store _).write64 _ _).write64 _ _

theorem insertChild_extends (inserted : Symbols.insertChild h parent name node = some h₁) : h.Extends h₁ := by
  unfold Symbols.insertChild at inserted
  obtain ⟨⟨h₂, children⟩, grown, inserted⟩ := Option.bind_eq_some_iff.mp inserted
  obtain rfl := Option.some.inj inserted
  exact (((RawMap.insert_extends grown).write64 _ _).write64 _ _).write64 _ _

theorem constructDirectoryNode_extends (made : code.constructDirectoryNode h node fs parent name = some h₁) :
    h.Extends h₁ := by
  unfold Symbols.constructDirectoryNode at made
  obtain ⟨⟨h₂, children⟩, created, made⟩ := Option.bind_eq_some_iff.mp made
  obtain rfl := Option.some.inj made
  have constructed := (constructNode_extends (.refl h) code node .directory fs parent name).write64 node code.directoryNode
  exact (((constructed.trans (RawMap.create_extends created)).write64 _ _).write64 _ _).write64 _ _

theorem createDotentries_extends (made : code.createDotentries h node = some h₁) : h.Extends h₁ := by
  unfold Symbols.createDotentries at made
  obtain ⟨⟨h₂, dot⟩, dot_made, made⟩ := Option.bind_eq_some_iff.mp made
  obtain ⟨⟨h₃, dotdot⟩, dotdot_made, made⟩ := Option.bind_eq_some_iff.mp made
  obtain ⟨h₄, first, second⟩ := Option.bind_eq_some_iff.mp made
  have dots := (constructNode_extends (new_extends dot_made) code _ _ _ _ _).trans (new_extends dotdot_made)
  have constructed := constructNode_extends dots code dotdot .none (h₃.m.read64 (node + 16)) node dotdotName
  exact (((constructed.write64 _ _).write64 _ _).trans (insertChild_extends first)).trans (insertChild_extends second)

theorem callCreate_extends (made : code.callCreate h fs name = some (h₁, node)) : h.Extends h₁ := by
  unfold Symbols.callCreate at made
  split at made
  · obtain ⟨⟨h₂, block⟩, allocated, made⟩ := Option.bind_eq_some_iff.mp made
    obtain ⟨h₃, constructed, made⟩ := Option.bind_eq_some_iff.mp made
    obtain ⟨h₄, dotentries, made⟩ := Option.bind_eq_some_iff.mp made
    obtain ⟨rfl, rfl⟩ := Prod.mk.inj (Option.some.inj made)
    exact ((new_extends allocated).trans (constructDirectoryNode_extends constructed)).trans
      (createDotentries_extends dotentries)
  · cases made

end Extends

namespace Registry

variable {r r₁ : Registry} {map map₁ : RawMap} {frees : Nat} {code : Symbols} {alloc : BuddyAlloc} {m : Mem} {driver : Nat}
  {drivers registered : List (CString × Nat)}

/-- The buckets of the static have been freed so many times since they were allocated. -/
structure Dangling (r : Registry) (map : RawMap) (frees : Nat) : Prop where
  static : r.fileSystems = some map
  array : map.mArray ≠ 0
  light : (map.mSize + 1) * 100 / map.mCapacity < 75
  calls : ∃ since, r.heap.calls = .malloc map.mArray :: since ∧ frees ≤ since.count (.free map.mArray)

theorem Dangling.extends (dangling : r.Dangling map frees) (same : r₁.fileSystems = r.fileSystems)
    (extended : r.heap.Extends r₁.heap) : r₁.Dangling map frees := by
  obtain ⟨since, calls, counted⟩ := dangling.calls
  obtain ⟨later, added⟩ := extended
  refine ⟨same.trans dangling.static, dangling.array, dangling.light, since ++ later, ?_, ?_⟩
  · simp [← added, calls]
  · simp only [List.count_append]
    omega

theorem Dangling.destroy (dangling : r.Dangling map frees) (same : map₁.mArray = map.mArray) :
    Dangling { r with heap := map₁.destroy r.heap } map (frees + 1) := by
  obtain ⟨since, calls, counted⟩ := dangling.calls
  obtain ⟨entries, freed⟩ := map₁.destroy_calls r.heap (by rw [same]; exact dangling.array)
  refine ⟨dangling.static, dangling.array, dangling.light, since ++ entries ++ [.free map.mArray], ?_, ?_⟩
  · simp [freed, calls, same]
  · simp only [List.count_append, List.count_singleton_self]
    omega

theorem fsDrivers_first {h : KernelHeap} {root : Nat} (first : h.calls = [])
    (ran : fsDrivers { heap := h, fileSystems := none, root := root } = some (r, map)) : r.Dangling map 0 := by
  unfold fsDrivers at ran
  dsimp only at ran
  obtain ⟨⟨h₁, file_systems⟩, created, ran⟩ := Option.bind_eq_some_iff.mp ran
  obtain ⟨rfl, rfl⟩ := Prod.mk.inj (Option.some.inj ran)
  obtain ⟨array, calls⟩ := RawMap.create_calls created
  obtain ⟨capacity, size⟩ := RawMap.create_empty created
  exact ⟨rfl, array, by simp [capacity, size], [], by simp [calls, first], Nat.zero_le _⟩

/-- The static is not written, and its buckets are freed with the copy. -/
theorem Dangling.register (dangling : r.Dangling map frees) {identifier : CString}
    (registered : r.registerFilesystem identifier driver = some r₁) : r₁.Dangling map (frees + 1) := by
  have copy : r.fsDrivers = some (r, map) := by rw [fsDrivers, dangling.static]
  unfold registerFilesystem at registered
  rw [copy, Option.bind_eq_bind, Option.bind_some] at registered
  obtain ⟨⟨h, copy⟩, inserted, registered⟩ := Option.bind_eq_some_iff.mp registered
  obtain rfl := Option.some.inj registered
  have before : Dangling { r with heap := h } map frees := dangling.extends rfl (RawMap.insert_extends inserted)
  exact before.destroy (RawMap.insert_light dangling.light inserted)

theorem init_dangling (booted : init code alloc m = some (r, driver)) : ∃ map, r.Dangling map 2 := by
  unfold init at booted
  obtain ⟨⟨r₁, temporary⟩, first, booted⟩ := Option.bind_eq_some_iff.mp booted
  obtain ⟨⟨h₂, tmpfs_driver⟩, created, booted⟩ := Option.bind_eq_some_iff.mp booted
  obtain ⟨r₃, registered, booted⟩ := Option.bind_eq_some_iff.mp booted
  obtain ⟨⟨h₄, root_fs⟩, instantiated, booted⟩ := Option.bind_eq_some_iff.mp booted
  obtain ⟨⟨h₅, root⟩, rooted, booted⟩ := Option.bind_eq_some_iff.mp booted
  obtain ⟨rfl, rfl⟩ := Prod.mk.inj (Option.some.inj booted)
  have constructed : r₁.Dangling temporary 0 := fsDrivers_first rfl first
  have freed := constructed.destroy rfl
  have driven : Dangling { r₁ with heap := h₂ } temporary 1 := freed.extends rfl (createDriver_extends created)
  have twice := driven.register registered
  exact ⟨temporary, twice.extends rfl ((callInstantiate_extends instantiated).trans (callCreate_extends rooted))⟩

theorem registerAll_dangling (dangling : r.Dangling map frees) (ran : r.registerAll drivers = some r₁) :
    r₁.Dangling map (frees + drivers.length) := by
  induction drivers generalizing r frees with
  | nil =>
    obtain rfl := Option.some.inj ran
    exact dangling
  | cons driver drivers ih =>
    rw [registerAll, List.foldlM_cons] at ran
    obtain ⟨r₂, registered, rest⟩ := Option.bind_eq_some_iff.mp ran
    rw [List.length_cons, Nat.add_comm drivers.length, ← Nat.add_assoc]
    exact ih (dangling.register registered) rest

theorem Dangling.not_live (dangling : r.Dangling map (frees + 1)) : ¬ r.BucketsLive := by
  rintro ⟨other, since, static, calls, live⟩
  obtain rfl := Option.some.inj (static.symm.trans dangling.static)
  obtain ⟨since', calls', counted⟩ := dangling.calls
  obtain rfl := List.tail_eq_of_cons_eq (calls.symm.trans calls')
  exact live (List.count_pos_iff.mp (by omega))

/-- A heap of 2048 zero bytes, and addresses of code that are no blocks of it. -/
def smallInit : Option (Registry × Nat) :=
  let (m, alloc) := BuddyAlloc.init (fun _ => 0) 0x1000 (2 ^ 11)
  init { instantiate := 16, create := 32, read := 48, write := 64, node := 80, directoryNode := 96 } alloc m

def isoName : CString := .ofBytes [0x69, 0x73, 0x6F]

/-- In the freed buckets the new blocks have their headers, which the next copy takes for entries. -/
theorem smallInit_calls : smallInit.any fun (r, _) =>
    r.heap.calls.take 9 = [.malloc 5904, .free 5904, .malloc 6128, .malloc 6096, .malloc 6064, .free 6096, .free 32,
      .free 1, .free 5904] ∧ r.lookup tmpfsName = none ∧ (r.registerAll [(isoName, 6000)]).isSome = true := by
  decide +kernel

/-- Whatever is registered, the buckets of the static have been freed once for every call of `fs_drivers`. -/
theorem registry_not_kept (booted : init code alloc m = some (r, driver)) (ran : r.registerAll drivers = some r₁) :
    ¬ r₁.Kept ((tmpfsName, driver) :: drivers) := by
  obtain ⟨map, dangling⟩ := init_dangling booted
  intro kept
  have freed : r₁.Dangling map (1 + drivers.length + 1) := by
    rw [show 1 + drivers.length + 1 = 2 + drivers.length by omega]
    exact registerAll_dangling dangling ran
  exact freed.not_live kept.live

theorem registry_not_kept_iso : ∃ r driver r₁, smallInit = some (r, driver) ∧
    r.registerAll [(isoName, 6000)] = some r₁ ∧ ¬ r₁.Kept [(tmpfsName, driver), (isoName, 6000)] := by
  obtain ⟨⟨r, driver⟩, booted, facts⟩ := (Option.any_eq_true _ _).mp smallInit_calls
  obtain ⟨_, _, ran⟩ := of_decide_eq_true facts
  obtain ⟨r₁, ran⟩ := Option.isSome_iff_exists.mp ran
  exact ⟨r, driver, r₁, booted, ran, registry_not_kept booted ran⟩

/-- Already after `vfs::init` the driver is lost, and the buckets have been freed twice. -/
theorem tmpfs_driver_lost : ∃ r driver, smallInit = some (r, driver) ∧
    r.lookup tmpfsName = none ∧ ¬ r.BucketsLive ∧ ¬ FreedOnce r.heap.calls := by
  obtain ⟨⟨r, driver⟩, booted, facts⟩ := (Option.any_eq_true _ _).mp smallInit_calls
  obtain ⟨calls, lost, _⟩ := of_decide_eq_true facts
  obtain ⟨map, dangling⟩ := init_dangling booted
  refine ⟨r, driver, booted, lost, dangling.not_live, fun once => ?_⟩
  have split := List.take_append_drop 9 r.heap.calls
  rw [calls] at split
  have again : HeapCall.malloc 5904 ∈ _ :=
    once 5904 [.malloc 5904] [.malloc 6128, .malloc 6096, .malloc 6064, .free 6096, .free 32, .free 1]
      (r.heap.calls.drop 9) split.symm
  exact absurd again (by decide)

end Registry

end FishOS.Fs
