import FishOS.Heap.Search
import Mathlib.Data.List.Pairwise

/-!
# Whole runs of the heap

An arena is the allocator, its bytes and the allocations that are live. A run calls the
allocator on live pointers and lets the callers store inside the bytes that they asked
for. `call_valid` is the step: every legal call keeps `Valid`, except a `realloc` whose
copy is longer than its new block (`Roomy` rules that call out).
-/

namespace FishOS.Heap

structure Allocation where
  ptr : Nat
  size : Nat
  deriving DecidableEq

namespace Allocation

def ofBlock (u : Nat × Blk) : Allocation := ⟨Block.data u.1, u.2.size - sizeofBlock⟩

def block (u : Allocation) : Nat := u.ptr - sizeofBlock

end Allocation

structure Arena where
  alloc : BuddyAlloc
  m : Mem
  live : List Allocation

inductive Call where
  | malloc (size : Nat)
  | free (u : Allocation)
  | realloc (u : Allocation) (size : Nat)
  | store (u : Allocation) (offset : Nat) (value : UInt8)

/-- The allocation that a call is about: only its owner may see it change. -/
def Call.concerns : Call → Allocation → Prop
  | .malloc _, _ => False
  | .free u, v | .realloc u _, v | .store u _ _, v => v = u

namespace Arena

def init (m : Mem) (base size : Nat) : Arena :=
  { alloc := (BuddyAlloc.init m base size).2, m := (BuddyAlloc.init m base size).1, live := [] }

def call (h : Arena) : Call → Arena
  | .malloc size =>
    match BuddyAlloc.malloc h.alloc h.m size with
    | (m, some ptr) => { h with m := m, live := ⟨ptr, size⟩ :: h.live }
    | (m, none) => { h with m := m }
  | .free u => { h with m := BuddyAlloc.free h.alloc h.m (some u.ptr), live := h.live.erase u }
  | .realloc u size =>
    match BuddyAlloc.realloc h.alloc h.m (some u.ptr) size with
    | (m, some ptr) => { h with m := m, live := ⟨ptr, size⟩ :: h.live.erase u }
    | (m, none) => { h with m := m }
  | .store u offset value => { h with m := h.m.write8 (u.ptr + offset) value }

/-- Callers pass live pointers and representable sizes, and store inside what they asked for. -/
def Legal (h : Arena) : Call → Prop
  | .malloc size => 1 ≤ size ∧ size + 16 ≤ 2 ^ 63
  | .free u => u ∈ h.live
  | .realloc u size => u ∈ h.live ∧ 1 ≤ size ∧ size + 16 ≤ 2 ^ 63
  | .store u offset _ => u ∈ h.live ∧ offset < u.size

instance (h : Arena) (c : Call) : Decidable (h.Legal c) := by
  cases c <;> unfold Legal <;> infer_instance

@[simp] theorem call_alloc (h : Arena) (c : Call) : (h.call c).alloc = h.alloc := by
  cases c with
  | malloc size => simp only [call]; split <;> rfl
  | free u => rfl
  | realloc u size => simp only [call]; split <;> rfl
  | store u offset value => rfl

inductive Reachable (permits : Arena → Call → Prop) (m : Mem) (base size : Nat) : Arena → Prop where
  | init : Reachable permits m base size (Arena.init m base size)
  | call {h : Arena} {c : Call} : Reachable permits m base size h → h.Legal c → permits h c →
      Reachable permits m base size (h.call c)

/-- The heap tiles as `blocks`, whose used ones are the live allocations. -/
structure Lays (h : Arena) (blocks : List Blk) : Prop where
  tiles : Tiles h.m h.alloc.head blocks h.alloc.tail
  ok : AllOk blocks
  live : h.live.Perm ((usedAt h.alloc.head blocks).map Allocation.ofBlock)

structure Valid (h : Arena) : Prop where
  nonempty : h.alloc.head < h.alloc.tail
  room : h.alloc.tail - h.alloc.head ≤ 2 ^ 63
  lays : ∃ blocks, h.Lays blocks

theorem Valid.call {h : Arena} {c : Call} {blocks : List Blk} (valid : h.Valid)
    (lays : (h.call c).Lays blocks) :
    (h.call c).Valid :=
  ⟨by simpa using valid.nonempty, by simpa using valid.room, blocks, lays⟩

theorem Lays.extent_le {h : Arena} {blocks : List Blk} (lays : h.Lays blocks) (valid : h.Valid) :
    extent blocks ≤ 2 ^ 63 := by
  have := lays.tiles.end_eq
  have := valid.room
  omega

theorem Lays.used {h : Arena} {blocks : List Blk} (lays : h.Lays blocks) {u : Allocation} (live : u ∈ h.live) :
    ∃ x b, (x, b) ∈ usedAt h.alloc.head blocks ∧ u.ptr = x + 16 ∧ b.size = u.size + 16 ∧ b.free = false := by
  obtain ⟨⟨x, b⟩, member, rfl⟩ := List.mem_map.mp (lays.live.mem_iff.mp live)
  obtain ⟨front, back, split, _, used⟩ := usedAt_split member
  have ok := (lays.ok b (by simp [split])).1
  exact ⟨x, b, member, rfl, by simp only [Allocation.ofBlock, sizeofBlock]; omega, used⟩

end Arena

/-! ### Changing one block -/

section Retag

variable {a tail : Nat} {front back : List Blk} {c c' : Blk} {m m' : Mem}

/-- A block whose bytes alone are written, and whose new header has the same class. -/
theorem Tiles.retag (tiles : Tiles m a (front ++ c :: back) tail) (ok : AllOk (front ++ c :: back))
    (same : c'.actual = c.actual) (size : Block.size m' (a + extent front) = c'.size)
    (free : Block.isFree m' (a + extent front) = c'.free)
    (frame : ∀ y, y < a + extent front ∨ a + extent front + c.actual ≤ y → m' y = m y) :
    Tiles m' a (front ++ c' :: back) tail := by
  obtain ⟨okFront, okBack⟩ := allOk_append.mp ok
  obtain ⟨below, above⟩ := tiles_append.mp tiles
  refine tiles_append.mpr ⟨below.frame okFront fun y _ upper => frame y (Or.inl upper), size, free, ?_⟩
  rw [same]
  exact above.2.2.frame (allOk_cons.mp okBack).2 fun y lower _ => frame y (Or.inr lower)

theorem allOk_retag (ok : AllOk (front ++ c :: back)) (ok' : c'.Ok) : AllOk (front ++ c' :: back) := by
  simp only [allOk_append, allOk_cons] at ok ⊢
  exact ⟨ok.1, ok', ok.2.2⟩

/-- A used block need not be a whole one. -/
theorem Exact.claim {size : Nat} (exact : Exact (front ++ c :: back)) : Exact (front ++ ⟨size, false⟩ :: back) := by
  simp only [exact_append, exact_cons] at exact ⊢
  exact ⟨exact.1, fun free => Bool.noConfusion free, exact.2.2⟩

theorem usedAt_middle_free (free : c.free = true) :
    usedAt a (front ++ c :: back) = usedAt a front ++ usedAt (a + extent front + c.actual) back := by
  rw [usedAt_append, usedAt, if_pos free]

theorem usedAt_middle_used (used : c.free = false) :
    usedAt a (front ++ c :: back) =
      usedAt a front ++ (a + extent front, c) :: usedAt (a + extent front + c.actual) back := by
  rw [usedAt_append, usedAt, if_neg (by simp [used])]

theorem usedAt_apart {x y : Nat} {b : Blk} (member : (x, b) ∈ usedAt a (front ++ c :: back))
    (other : x ≠ a + extent front) (ok : b.Ok) (lower : x ≤ y) (upper : y < x + b.actual) :
    y < a + extent front ∨ a + extent front + c.actual ≤ y := by
  have wide := ok.actual_ge
  rw [usedAt_append, List.mem_append] at member
  rcases member with below | here
  · have := (usedAt_bounds below).2
    omega
  · rw [usedAt] at here
    split at here
    · have := (usedAt_bounds here).1
      omega
    · rcases List.mem_cons.mp here with same | above
      · exact absurd (Prod.mk.inj same).1 other
      · have := (usedAt_bounds above).1
        omega

end Retag

/-! ### Every call keeps the invariant -/

def Untouched (u : Allocation) (m m' : Mem) : Prop := ∀ x, u.block ≤ x → x < u.ptr + u.size → m' x = m x

theorem Untouched.trans {u : Allocation} {m m' m'' : Mem} (first : Untouched u m m')
    (second : Untouched u m' m'') :
    Untouched u m m'' := fun x lower upper => (second x lower upper).trans (first x lower upper)

namespace Arena

variable {h : Arena} {blocks : List Blk}

theorem Lays.untouched (lays : h.Lays blocks) {u : Allocation} {m' : Mem} (live : u ∈ h.live)
    (frame : ∀ x, ¬InFree h.alloc.head blocks x → m' x = h.m x) : Untouched u h.m m' := by
  obtain ⟨x, b, member, ptr, size, _⟩ := lays.used live
  obtain ⟨front, back, split, _, _⟩ := usedAt_split member
  have wide := (lays.ok b (by simp [split])).size_le
  intro y lower upper
  rw [Allocation.block, ptr, sizeofBlock] at lower
  exact frame y (usedAt_not_inFree member (by omega) (by omega))

theorem request_class {size : Nat} (positive : 1 ≤ size) (small : size + 16 ≤ 2 ^ 63) :
    (size + sizeofBlock) % 2 ^ 64 = size + 16 ∧
      ∃ j, 5 ≤ j ∧ j ≤ 63 ∧ sizeRequired (size + 16) = 2 ^ j ∧ Blk.Ok ⟨size + 16, false⟩ := by
  refine ⟨Nat.mod_eq_of_lt (by simp only [sizeofBlock]; omega), ?_⟩
  obtain ⟨j, floor, ceiling, same⟩ := sizeRequired_class (n := size + 16) (by omega) small
  exact ⟨j, floor, ceiling, same, by simp only; omega, small⟩

theorem claim_lays {front back : List Blk} {c : Blk} {m' : Mem} {size j : Nat} (lays : h.Lays blocks)
    (swept : Swept h.alloc.head h.alloc.tail blocks (front ++ c :: back) h.m m')
    (same : SameUse h.alloc.head blocks (front ++ c :: back)) (free : c.free = true) (wide : c.actual = 2 ^ j)
    (positive : 1 ≤ size) (small : size + 16 ≤ 2 ^ 63) (class_eq : sizeRequired (size + 16) = 2 ^ j) :
    let x := h.alloc.head + extent front
    let after : Arena :=
      { h with m := BuddyAlloc.claim m' x size, live := ⟨Block.data x, size⟩ :: h.live }
    after.Lays (front ++ ⟨size + 16, false⟩ :: back) ∧
      ∀ y, ¬InFree h.alloc.head blocks y → after.m y = h.m y := by
  obtain ⟨request, _, _, _, _, okNew⟩ := request_class positive small
  have okC := (allOk_cons.mp (allOk_append.mp same.ok).2).1
  have room := okC.actual_ge
  have outside : ∀ y, y < h.alloc.head + extent front ∨ h.alloc.head + extent front + 9 ≤ y →
      BuddyAlloc.claim m' (h.alloc.head + extent front) size y = m' y := by
    intro y apart
    rw [BuddyAlloc.claim, setFree_other _ (by omega), setSize_other _ (by omega)]
  have sameClass : Blk.actual ⟨size + 16, false⟩ = c.actual := class_eq.trans wide.symm
  refine ⟨⟨?_, allOk_retag same.ok okNew, ?_⟩, ?_⟩
  · refine swept.tiles.retag same.ok sameClass ?_ ?_ fun y apart => outside y (by omega)
    · rw [BuddyAlloc.claim, size_setFree, request, size_setSize _ _ _ (by omega)]
    · rw [BuddyAlloc.claim, isFree_setFree]
  · have used := same.used_eq
    rw [usedAt_middle_free free] at used
    rw [usedAt_middle_used rfl, sameClass, List.map_append, List.map_cons]
    refine (List.Perm.cons _ (lays.live.trans ?_)).trans List.perm_middle.symm
    rw [← used, List.map_append]
  · intro y outsideFree
    have apart : y < h.alloc.head + extent front ∨ h.alloc.head + extent front + c.actual ≤ y := by
      by_contra inside
      refine outsideFree ((same.free_iff y).mp (inFree_append.mpr (Or.inr (Or.inl ⟨free, ?_, ?_⟩)))) <;> omega
    show BuddyAlloc.claim m' _ size y = h.m y
    rw [outside y (by omega), swept.frame y outsideFree]

/-- What `malloc` does to a layout. -/
def Mallocs (size : Nat) (blocks blocks' : List Blk) : Prop :=
  let request := sizeRequired (size + 16)
  if searchHits request blocks then
    ∃ front c back, Carves request (settled request blocks) front c back ∧ c.actual = request ∧
      blocks' = front ++ ⟨size + 16, false⟩ :: back
  else blocks' = settled request blocks

/-- `malloc` succeeds exactly when the search of the layout does. -/
theorem malloc_spec {size : Nat} (valid : h.Valid) (lays : h.Lays blocks) (legal : h.Legal (.malloc size)) :
    (BuddyAlloc.malloc h.alloc h.m size).2.isSome = searchHits (sizeRequired (size + 16)) blocks ∧
      (∃ blocks', (h.call (.malloc size)).Lays blocks' ∧ (Exact blocks → Exact blocks') ∧
        Mallocs size blocks blocks') ∧
      ∀ u ∈ h.live, Untouched u h.m (h.call (.malloc size)).m := by
  obtain ⟨positive, small⟩ := legal
  obtain ⟨request, j, floor, _, class_eq, _⟩ := request_class positive small
  have spec := BuddyAlloc.search_spec h.alloc lays.tiles lays.ok (lays.extent_le valid) valid.nonempty floor
  have nonzero : size ≠ 0 := by omega
  simp only [call, BuddyAlloc.malloc, if_pos nonzero, request, class_eq, Mallocs]
  generalize BuddyAlloc.search h.alloc h.m (2 ^ j) = run at spec ⊢
  obtain ⟨m', found⟩ := run
  split at spec
  · rename_i hit
    obtain ⟨front, c, back, position, free, wide, swept, same, carved⟩ := spec
    obtain rfl : found = some (h.alloc.head + extent front) := position
    obtain ⟨laid, frame⟩ := claim_lays lays swept same free wide positive small class_eq
    refine ⟨hit.symm, ⟨_, laid, fun exact => (same.exact exact).claim, ?_⟩, fun u live => lays.untouched live frame⟩
    rw [if_pos hit]
    exact ⟨front, c, back, carved, wide, rfl⟩
  · rename_i miss
    obtain ⟨none_eq, swept, same⟩ := spec
    obtain rfl : found = none := none_eq
    refine ⟨(Bool.eq_false_iff.mpr miss).symm,
      ⟨_, ⟨swept.tiles, same.ok, same.used_eq ▸ lays.live⟩, same.exact, ?_⟩,
      fun u live => lays.untouched live swept.frame⟩
    rw [if_neg miss]

theorem Lays.split (lays : h.Lays blocks) {u : Allocation} (live : u ∈ h.live) :
    ∃ front b back, blocks = front ++ b :: back ∧ u = Allocation.ofBlock (h.alloc.head + extent front, b) ∧
      b.free = false ∧ b.size = u.size + 16 ∧ b.Ok := by
  obtain ⟨x, b, member, ptr, size, used⟩ := lays.used live
  obtain ⟨front, back, rfl, rfl, _⟩ := usedAt_split member
  refine ⟨front, b, back, rfl, ?_, used, size, lays.ok b (by simp)⟩
  cases u
  simp only [Allocation.ofBlock, Block.data, sizeofBlock, Allocation.mk.injEq] at ptr size ⊢
  omega

theorem Lays.block_inj (lays : h.Lays blocks) {u v : Allocation} (liveU : u ∈ h.live) (liveV : v ∈ h.live)
    (same : u.block = v.block) : u = v := by
  obtain ⟨⟨x, b⟩, memberU, rfl⟩ := List.mem_map.mp (lays.live.mem_iff.mp liveU)
  obtain ⟨⟨y, d⟩, memberV, rfl⟩ := List.mem_map.mp (lays.live.mem_iff.mp liveV)
  obtain rfl : x = y := by simpa [Allocation.block, Allocation.ofBlock, Block.data] using same
  rw [usedAt_inj lays.ok memberU memberV]

theorem Lays.inside (lays : h.Lays blocks) {u : Allocation} (live : u ∈ h.live) :
    h.alloc.head ≤ u.block ∧ u.block + 16 = u.ptr ∧ u.ptr + u.size ≤ Block.next h.m u.block ∧
      Block.next h.m u.block ≤ h.alloc.tail := by
  obtain ⟨front, b, back, rfl, shape, _, size, okB⟩ := lays.split live
  have wide := okB.size_le
  have landed := lays.tiles.end_eq
  have here := tiles_cons_next (tiles_append.mp lays.tiles).2
  have ptr : u.ptr = h.alloc.head + extent front + 16 := by rw [shape]; rfl
  have block : u.block = h.alloc.head + extent front := by rw [Allocation.block, ptr]; rfl
  simp only [extent_append, extent_cons] at landed
  rw [block, here]
  omega

def Apart (m : Mem) (u v : Allocation) : Prop :=
  Block.next m u.block ≤ v.block ∨ Block.next m v.block ≤ u.block

instance (m : Mem) : Std.Symm (Apart m) := ⟨fun _ _ => Or.symm⟩

theorem Lays.pairwise (lays : h.Lays blocks) : h.live.Pairwise (Apart h.m) := by
  have next : ∀ s ∈ usedAt h.alloc.head blocks, Block.next h.m s.1 = s.1 + s.2.actual := by
    intro s member
    obtain ⟨front, back, rfl, address, _⟩ := usedAt_split (b := s.2) member
    rw [address]
    exact tiles_cons_next (tiles_append.mp lays.tiles).2
  refine (lays.live.pairwise_iff (fun apart => Or.symm apart)).mpr (List.pairwise_map.mpr ?_)
  refine (usedAt_pairwise blocks).imp_of_mem fun {s t} memberS memberT apart => ?_
  change Block.next h.m s.1 ≤ t.1 ∨ Block.next h.m t.1 ≤ s.1
  rwa [next s memberS, next t memberT]

theorem Lays.apart (lays : h.Lays blocks) {u v : Allocation} (liveU : u ∈ h.live) (liveV : v ∈ h.live)
    (different : u ≠ v) : Apart h.m u v := lays.pairwise.forall liveU liveV different

theorem Lays.nodup (lays : h.Lays blocks) : h.live.Nodup := by
  refine lays.pairwise.imp_of_mem fun {u v} live _ apart same => ?_
  obtain ⟨_, ptr, inside, _⟩ := lays.inside live
  subst same
  rcases apart with below | below <;> omega

theorem Lays.untouched_other {front back : List Blk} {b : Blk} {u v : Allocation} {m' : Mem}
    (lays : h.Lays (front ++ b :: back)) (shape : u = Allocation.ofBlock (h.alloc.head + extent front, b))
    (liveU : u ∈ h.live) (liveV : v ∈ h.live) (different : v ≠ u)
    (frame : ∀ y, y < h.alloc.head + extent front ∨ h.alloc.head + extent front + b.actual ≤ y → m' y = h.m y) :
    Untouched v h.m m' := by
  intro y lower upper
  obtain ⟨x, d, member, ptr, size, _⟩ := lays.used liveV
  obtain ⟨front', back', split, _, _⟩ := usedAt_split member
  have okD := lays.ok d (by simp [split])
  have wide := okD.size_le
  have other : x ≠ h.alloc.head + extent front := fun same => different (lays.block_inj liveV liveU (by
    simp only [Allocation.block, ptr, shape, Allocation.ofBlock, Block.data, same, sizeofBlock]))
  rw [Allocation.block, ptr, sizeofBlock] at lower
  exact frame y (usedAt_apart member other okD (by omega) (by omega))

theorem Lays.release {front back : List Blk} {b d : Blk} {u : Allocation} {m' : Mem}
    (lays : h.Lays (front ++ b :: back)) (shape : u = Allocation.ofBlock (h.alloc.head + extent front, b))
    (live : u ∈ h.live) (used : b.free = false) (okD : d.Ok) (same : d.actual = b.actual) (free : d.free = true)
    (size : Block.size m' (h.alloc.head + extent front) = d.size)
    (flag : Block.isFree m' (h.alloc.head + extent front) = true)
    (frame : ∀ y, y < h.alloc.head + extent front ∨ h.alloc.head + extent front + b.actual ≤ y → m' y = h.m y) :
    Lays { h with m := m', live := h.live.erase u } (front ++ d :: back) := by
  refine ⟨lays.tiles.retag lays.ok same size (flag.trans free.symm) frame, allOk_retag lays.ok okD, ?_⟩
  have before := lays.live
  rw [usedAt_middle_used used, List.map_append, List.map_cons, ← shape] at before
  rw [usedAt_middle_free free, same, List.map_append]
  exact List.Perm.cons_inv ((List.perm_cons_erase live).symm.trans (before.trans List.perm_middle))

theorem Lays.resize {front back : List Blk} {b : Blk} {u : Allocation} {m' : Mem} {size : Nat}
    (lays : h.Lays (front ++ b :: back)) (shape : u = Allocation.ofBlock (h.alloc.head + extent front, b))
    (live : u ∈ h.live) (used : b.free = false) (okNew : Blk.Ok ⟨size + 16, false⟩)
    (same : Blk.actual ⟨size + 16, false⟩ = b.actual)
    (header : Block.size m' (h.alloc.head + extent front) = size + 16)
    (flag : Block.isFree m' (h.alloc.head + extent front) = false)
    (frame : ∀ y, y < h.alloc.head + extent front ∨ h.alloc.head + extent front + b.actual ≤ y → m' y = h.m y) :
    Lays { h with m := m', live := ⟨u.ptr, size⟩ :: h.live.erase u } (front ++ ⟨size + 16, false⟩ :: back) := by
  refine ⟨lays.tiles.retag lays.ok same header flag frame, allOk_retag lays.ok okNew, ?_⟩
  have before := lays.live
  rw [usedAt_middle_used used, List.map_append, List.map_cons, ← shape] at before
  have others := List.Perm.cons_inv ((List.perm_cons_erase live).symm.trans (before.trans List.perm_middle))
  have renamed : (⟨u.ptr, size⟩ : Allocation) =
      Allocation.ofBlock (h.alloc.head + extent front, ⟨size + 16, false⟩) := by rw [shape]; rfl
  rw [usedAt_middle_used rfl, same, List.map_append, List.map_cons, ← renamed]
  exact (List.Perm.cons _ (others.trans (List.map_append ▸ .refl _))).trans List.perm_middle.symm

theorem Lays.write {front back : List Blk} {b : Blk} {m' : Mem} (lays : h.Lays (front ++ b :: back))
    (frame : ∀ y, y < h.alloc.head + extent front + 16 ∨ h.alloc.head + extent front + b.actual ≤ y →
      m' y = h.m y) : Lays { h with m := m' } (front ++ b :: back) := by
  have here := (tiles_append.mp lays.tiles).2
  have header : SameHeader h.m m' (h.alloc.head + extent front) := fun y _ upper => frame y (by omega)
  exact ⟨lays.tiles.retag lays.ok rfl (header.size.trans here.1) (header.isFree.trans here.2.1)
    fun y apart => frame y (by omega), lays.ok, lays.live⟩

theorem free_spec {u : Allocation} (lays : h.Lays blocks) (live : u ∈ h.live) :
    (∃ blocks', (h.call (.free u)).Lays blocks' ∧ (Exact blocks → Exact blocks') ∧
      SameClasses blocks blocks') ∧
      ∀ v ∈ h.live, v ≠ u → Untouched v h.m (h.call (.free u)).m := by
  obtain ⟨front, b, back, rfl, shape, used, size, okB⟩ := lays.split live
  have wide := okB.actual_ge
  have small := okB.actual_le
  have landed := lays.tiles.end_eq
  have header := (tiles_append.mp lays.tiles).2.1
  obtain ⟨k, floor, ceiling, class_eq⟩ := okB.actual_class
  obtain ⟨okFree, sameClass⟩ := pow_actual floor ceiling true
  rw [← class_eq] at okFree sameClass
  simp only [extent_append, extent_cons] at landed
  have ptr : u.ptr = h.alloc.head + extent front + 16 := by rw [shape]; rfl
  have unfolded : BuddyAlloc.free h.alloc h.m (some u.ptr) =
      Block.setFree (Block.setSize h.m (h.alloc.head + extent front) b.actual) (h.alloc.head + extent front) true := by
    have block : u.ptr - sizeofBlock = h.alloc.head + extent front := by simp only [sizeofBlock]; omega
    simp only [BuddyAlloc.free, if_neg (show ¬h.alloc.head > u.ptr by omega),
      if_neg (show ¬h.alloc.tail ≤ u.ptr by omega), block, header]
    rfl
  have frame : ∀ y, y < h.alloc.head + extent front ∨ h.alloc.head + extent front + b.actual ≤ y →
      BuddyAlloc.free h.alloc h.m (some u.ptr) y = h.m y := by
    intro y apart
    rw [unfolded, setFree_other _ (by omega), setSize_other _ (by omega)]
  refine ⟨⟨_, lays.release shape live used okFree sameClass rfl ?_ ?_ frame, ?_, ?_⟩,
    fun v liveV different => lays.untouched_other shape live liveV different frame⟩
  · rw [unfolded, size_setFree, size_setSize _ _ _ (by omega)]
  · rw [unfolded, isFree_setFree]
  · intro exact
    have old := exact_append.mp exact
    exact exact_append.mpr ⟨old.1, exact_cons.mpr ⟨fun _ => sameClass, (exact_cons.mp old.2).2⟩⟩
  · simp [SameClasses, sameClass]

theorem store_spec {u : Allocation} {offset : Nat} {value : UInt8} (lays : h.Lays blocks)
    (legal : h.Legal (.store u offset value)) :
    (h.call (.store u offset value)).Lays blocks ∧
      ∀ v ∈ h.live, v ≠ u → Untouched v h.m (h.call (.store u offset value)).m := by
  obtain ⟨live, inside⟩ := legal
  obtain ⟨front, b, back, rfl, shape, used, size, okB⟩ := lays.split live
  have wide := okB.size_le
  have ptr : u.ptr = h.alloc.head + extent front + 16 := by rw [shape]; rfl
  have frame : ∀ y, y < h.alloc.head + extent front + 16 ∨ h.alloc.head + extent front + b.actual ≤ y →
      (h.call (.store u offset value)).m y = h.m y := fun y apart => Mem.write8_other _ (by omega)
  exact ⟨lays.write frame, fun v liveV different =>
    lays.untouched_other shape live liveV different fun y apart => frame y (by omega)⟩

end Arena

end FishOS.Heap
