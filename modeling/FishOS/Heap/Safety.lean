import FishOS.Heap.Realloc
import Mathlib.Logic.Function.Iterate

/-!
# Heap safety

Every run of legal calls from a fresh heap keeps the blocks tiling `[head, tail)` and the
live allocations apart, inside the heap and unchanged by calls on others.
-/

namespace FishOS.Heap

/-- A walk over `next()` from `a` lands on `e`, past blocks whose actual size is a power of two. -/
def Walks (m : Mem) (a e : Nat) : Prop :=
  ∃ n, (Block.next m)^[n] a = e ∧ ∀ i < n, (Block.next m)^[i] a < e ∧
    ∃ k, sizeRequired (Block.size m ((Block.next m)^[i] a)) = 2 ^ k

theorem Tiles.walks {m : Mem} {a e : Nat} {blocks : List Blk} (tiles : Tiles m a blocks e) (ok : AllOk blocks) :
    Walks m a e := by
  induction blocks generalizing a with
  | nil => exact ⟨0, tiles, fun i below => absurd below (Nat.not_lt_zero i)⟩
  | cons b rest ih =>
    rw [allOk_cons] at ok
    have landed := tiles.end_eq
    have wide := ok.1.actual_ge
    rw [extent_cons] at landed
    obtain ⟨n, lands, below⟩ := ih tiles.2.2 ok.2
    rw [← tiles_cons_next tiles] at lands below
    refine ⟨n + 1, lands, ?_⟩
    intro i inside
    cases i with
    | zero =>
      obtain ⟨k, _, _, class_eq⟩ := ok.1.actual_class
      rw [Function.iterate_zero_apply, tiles.1]
      exact ⟨by omega, k, class_eq⟩
    | succ i =>
      rw [Function.iterate_succ_apply]
      exact below i (by omega)

namespace Arena

def layout (h : Arena) : List Blk := walk h.m h.alloc.tail (h.alloc.tail - h.alloc.head) h.alloc.head

/-- What callers rely on. -/
structure Safe (h : Arena) : Prop where
  tiled : Walks h.m h.alloc.head h.alloc.tail
  disjoint : h.live.Pairwise (Apart h.m)
  inside : ∀ u ∈ h.live, h.alloc.head ≤ u.block ∧ Block.next h.m u.block ≤ h.alloc.tail
  holds : ∀ u ∈ h.live, u.ptr = Block.data u.block ∧ u.ptr + u.size ≤ Block.next h.m u.block
  recorded : ∀ u ∈ h.live, Block.size h.m u.block = u.size + sizeofBlock ∧ Block.isFree h.m u.block = false

def MallocFree (_ : Arena) : Call → Prop
  | .realloc _ _ => False
  | _ => True

def RoomyCall (h : Arena) : Call → Prop
  | .realloc u n => Roomy h.layout u n
  | _ => True

def WholeCall (h : Arena) : Call → Prop
  | .realloc u n => Whole h.layout u n
  | _ => True

variable {h : Arena} {blocks : List Blk}

theorem Lays.layout_eq (lays : h.Lays blocks) : h.layout = blocks :=
  lays.tiles.walk_eq lays.ok (Nat.le_refl _)

theorem Lays.safe (lays : h.Lays blocks) : h.Safe := by
  refine ⟨lays.tiles.walks lays.ok, lays.pairwise, ?_, ?_, ?_⟩
  · intro u live
    obtain ⟨lower, _, _, upper⟩ := lays.inside live
    exact ⟨lower, upper⟩
  · intro u live
    obtain ⟨_, ptr, holds, _⟩ := lays.inside live
    exact ⟨ptr.symm, holds⟩
  · intro u live
    obtain ⟨front, b, back, rfl, shape, used, size, _⟩ := lays.split live
    obtain ⟨here, flag, _⟩ := (tiles_append.mp lays.tiles).2
    have block : u.block = h.alloc.head + extent front := by rw [shape]; rfl
    rw [block, here, flag]
    exact ⟨size, used⟩

theorem Valid.safe (valid : h.Valid) : h.Safe := by
  obtain ⟨blocks, lays⟩ := valid.lays
  exact lays.safe

theorem exponent_le {base k : Nat} (fits : base + 2 ^ k < 2 ^ 64) : k ≤ 63 := by
  have : 2 ^ k < 2 ^ 64 := by omega
  exact Nat.le_of_lt_succ ((Nat.pow_lt_pow_iff_right (by decide)).mp this)

theorem init_lays {base k : Nat} (m : Mem) (large : 5 ≤ k) (small : k ≤ 63) :
    (init m base (2 ^ k)).Valid ∧ (init m base (2 ^ k)).Lays [⟨2 ^ k, true⟩] := by
  obtain ⟨ok, wide⟩ := pow_actual large small true
  have above := ok.actual_ge
  have below := ok.actual_le
  rw [wide] at above below
  have size : Block.size (init m base (2 ^ k)).m base = 2 ^ k := by
    rw [init, BuddyAlloc.init, size_setFree, size_setSize _ _ _ (by omega)]
  have tail : (init m base (2 ^ k)).alloc.tail = base + 2 ^ k := by
    change base + sizeRequired (Block.size (init m base (2 ^ k)).m base) = base + 2 ^ k
    rw [size]
    exact congrArg (base + ·) wide
  have lays : (init m base (2 ^ k)).Lays [⟨2 ^ k, true⟩] := by
    refine ⟨⟨size, ?_, ?_⟩, by simpa [AllOk] using ok, .refl _⟩
    · rw [init, BuddyAlloc.init, isFree_setFree]
    · rw [wide, tail]
      rfl
  have head : (init m base (2 ^ k)).alloc.head = base := rfl
  exact ⟨⟨by rw [tail, head]; omega, by rw [tail, head]; omega, _, lays⟩, lays⟩

/-- One call: the heap stays tiled and the other allocations stay as they are. -/
theorem call_lays {c : Call} (valid : h.Valid) (lays : h.Lays blocks) (legal : h.Legal c)
    (roomy : h.RoomyCall c) :
    (∃ blocks', (h.call c).Lays blocks' ∧ (Exact blocks → (Exact blocks' ↔ h.WholeCall c))) ∧
      ∀ u ∈ h.live, ¬c.concerns u → Untouched u h.m (h.call c).m := by
  cases c with
  | malloc size =>
    obtain ⟨_, ⟨blocks', lays', keeps, _⟩, others⟩ := malloc_spec valid lays legal
    exact ⟨⟨blocks', lays', fun exact => iff_of_true (keeps exact) trivial⟩, fun u live _ => others u live⟩
  | free u =>
    obtain ⟨⟨blocks', lays', keeps, _⟩, others⟩ := free_spec lays legal
    exact ⟨⟨blocks', lays', fun exact => iff_of_true (keeps exact) trivial⟩, others⟩
  | realloc u n =>
    unfold WholeCall
    obtain rfl := lays.layout_eq
    obtain ⟨lays', others, _⟩ := realloc_spec valid lays legal roomy
    exact ⟨lays', others⟩
  | store u offset value =>
    obtain ⟨lays', others⟩ := store_spec lays legal
    exact ⟨⟨blocks, lays', fun exact => iff_of_true exact trivial⟩, others⟩

theorem call_valid {c : Call} (valid : h.Valid) (legal : h.Legal c) (roomy : h.RoomyCall c) :
    (h.call c).Valid := by
  obtain ⟨blocks, lays⟩ := valid.lays
  obtain ⟨⟨_, lays', _⟩, _⟩ := call_lays valid lays legal roomy
  exact valid.call lays'

section Runs

variable {permits : Arena → Call → Prop} {m : Mem} {base k : Nat}

theorem reachable_valid (large : 5 ≤ k) (fits : base + 2 ^ k < 2 ^ 64)
    (roomy : ∀ h c, permits h c → RoomyCall h c) (run : Reachable permits m base (2 ^ k) h) : h.Valid := by
  induction run with
  | init => exact (init_lays m large (exponent_le fits)).1
  | call _ legal permitted ih => exact call_valid ih legal (roomy _ _ permitted)

theorem mallocFree_roomy (h : Arena) (c : Call) (permitted : MallocFree h c) : RoomyCall h c := by
  cases c with
  | realloc u n => exact permitted.elim
  | _ => trivial

/-- Runs of `malloc`, `free` and stores are safe after every call, and no call touches an
allocation that it is not about. -/
theorem malloc_free_safe (large : 5 ≤ k) (fits : base + 2 ^ k < 2 ^ 64)
    (run : Reachable MallocFree m base (2 ^ k) h) :
    h.Safe ∧ ∀ c, h.Legal c → MallocFree h c →
      (h.call c).Safe ∧ ∀ u ∈ h.live, ¬c.concerns u → Untouched u h.m (h.call c).m := by
  have valid := reachable_valid large fits mallocFree_roomy run
  refine ⟨valid.safe, ?_⟩
  intro c legal permitted
  obtain ⟨blocks, lays⟩ := valid.lays
  obtain ⟨⟨_, lays', _⟩, others⟩ := call_lays valid lays legal (mallocFree_roomy h c permitted)
  exact ⟨lays'.safe, others⟩

theorem malloc_free_safe_once :
    ((init (fun _ => 0) 0x1000 (2 ^ 8)).call (.malloc 10)).Safe :=
  (malloc_free_safe (k := 8) (by decide) (by decide) (.call (c := .malloc 10) .init (by decide) trivial)).1

/-- In runs whose reallocations copy no more than fits, `realloc` moves the data and nothing else changes. -/
theorem realloc_moves_data {u : Allocation} {n q : Nat} (large : 5 ≤ k) (fits : base + 2 ^ k < 2 ^ 64)
    (run : Reachable RoomyCall m base (2 ^ k) h) (legal : h.Legal (.realloc u n)) (roomy : Roomy h.layout u n)
    (returned : (BuddyAlloc.realloc h.alloc h.m (some u.ptr) n).2 = some q) :
    (∀ i < min u.size n, (h.call (.realloc u n)).m (q + i) = h.m (u.ptr + i)) ∧
      (∀ v ∈ h.live, v ≠ u → Untouched v h.m (h.call (.realloc u n)).m) ∧ (h.call (.realloc u n)).Safe := by
  have valid := reachable_valid large fits (fun _ _ permitted => permitted) run
  obtain ⟨blocks, lays⟩ := valid.lays
  obtain ⟨⟨_, lays', _⟩, others, content⟩ := realloc_spec valid lays legal (lays.layout_eq ▸ roomy)
  exact ⟨content q returned, others, lays'.safe⟩

theorem realloc_moves_data_grown :
    let h := (init (fun _ => 0) 0x1000 (2 ^ 8)).call (.malloc 10)
    ∀ i < 10, (h.call (.realloc ⟨0x10f0, 10⟩ 100)).m (0x1010 + i) = h.m (0x10f0 + i) :=
  (realloc_moves_data (k := 8) (u := ⟨0x10f0, 10⟩) (n := 100) (by decide) (by decide)
    (.call (c := .malloc 10) .init (by decide) trivial) (by decide +kernel) (Or.inl (by decide +kernel)) (by decide +kernel)).1

/-- A `realloc` that returns the null pointer leaves every live allocation as it was, its own
among them, and a tiled heap. -/
theorem realloc_failure_invisible {u : Allocation} {n : Nat} (large : 5 ≤ k) (fits : base + 2 ^ k < 2 ^ 64)
    (run : Reachable RoomyCall m base (2 ^ k) h) (legal : h.Legal (.realloc u n))
    (failed : (BuddyAlloc.realloc h.alloc h.m (some u.ptr) n).2 = none) :
    (h.call (.realloc u n)).live = h.live ∧ (∀ v ∈ h.live, Untouched v h.m (h.call (.realloc u n)).m) ∧
      (h.call (.realloc u n)).Safe := by
  have valid := reachable_valid large fits (fun _ _ permitted => permitted) run
  obtain ⟨blocks, lays⟩ := valid.lays
  have same : ¬sizeRequired (u.size + 16) = sizeRequired (n + 16) := by
    intro stays
    rw [(realloc_stay lays legal stays).1] at failed
    cases failed
  have miss : ¬searchHits (sizeRequired (n + 16)) blocks = true := by
    intro hit
    rw [realloc_eq lays legal, if_neg same] at failed
    have found := search_found valid lays legal hit
    split at failed
    · cases failed
    · rename_i none
      simp [none] at found
  obtain ⟨_, ⟨_, lays', _⟩, others⟩ := realloc_fail valid lays legal same miss
  refine ⟨?_, others, lays'.safe⟩
  simp only [call]
  split
  · rename_i some
    simp [some] at failed
  · rfl

theorem realloc_failure_invisible_large :
    let h := (init (fun _ => 0) 0x1000 (2 ^ 8)).call (.malloc 10)
    (h.call (.realloc ⟨0x10f0, 10⟩ 1000)).live = h.live :=
  (realloc_failure_invisible (k := 8) (u := ⟨0x10f0, 10⟩) (n := 1000) (by decide) (by decide)
    (.call (c := .malloc 10) .init (by decide) trivial) (by decide +kernel) (by decide +kernel)).1

/-- Shrinking 100 bytes to 10 copies all 100 of them, over the header of a neighbour. -/
theorem realloc_overruns :
    ∃ (h : Arena) (u v : Allocation) (q : Nat), Reachable (fun _ _ => True) (fun _ => 0) 0x1000 (2 ^ 8) h ∧
      h.Legal (.realloc u 10) ∧ (BuddyAlloc.realloc h.alloc h.m (some u.ptr) 10).2 = some q ∧
      v ∈ h.live ∧ v ≠ u ∧ ¬Untouched v h.m (h.call (.realloc u 10)).m ∧ ¬(h.call (.realloc u 10)).Safe := by
  let one := (init (fun _ => 0) 0x1000 (2 ^ 8)).call (.malloc 10)
  let two := (one.call (.malloc 10)).call (.malloc 100)
  refine ⟨two.call (.free ⟨0x10d0, 10⟩), ⟨0x1010, 100⟩, ⟨0x10f0, 10⟩, 0x10d0, ?_, by decide +kernel, by decide +kernel,
    by decide +kernel, by decide, ?_, ?_⟩
  · have first : Reachable (fun _ _ => True) (fun _ => 0) 0x1000 (2 ^ 8) one := .call .init (by decide) trivial
    have second : Reachable (fun _ _ => True) (fun _ => 0) 0x1000 (2 ^ 8) two :=
      .call (.call first (by decide) trivial) (by decide) trivial
    exact .call second (by decide +kernel) trivial
  · intro same
    exact absurd (same 0x10e0 (by decide) (by decide)) (by decide +kernel)
  · intro safe
    exact absurd (safe.recorded ⟨0x10f0, 10⟩ (by decide +kernel)).1 (by decide +kernel)

end Runs

end Arena

end FishOS.Heap
