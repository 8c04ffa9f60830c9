import FishOS.Heap.Halting
import FishOS.Heap.Misses

/-!
# Requests of every size

Above `2^63` the doubling of `size_required` never ends. In the last sizes below `2^64` the addition
of the header, or the rounding to the alignment, wraps: the request shrinks to the smallest class, and
`malloc` hands out a header without a byte behind it.
-/

namespace FishOS.Heap

variable {bound n j : Nat}

/-! ### The three ranges of a request -/

theorem request_fits (small : n + 16 ≤ 2 ^ 63) : (n + sizeofBlock) % 2 ^ 64 ≤ 2 ^ 63 := by
  rw [sizeofBlock, Nat.mod_eq_of_lt (by omega)]
  exact small

theorem align_spins (large : 2 ^ 63 < n + 16) (below : n ≤ 2 ^ 64 - 32) : 2 ^ 63 < align ((n + sizeofBlock) % 2 ^ 64) := by
  rw [sizeofBlock, Nat.mod_eq_of_lt (by omega)]
  unfold align alignment
  split
  · rw [Nat.mod_eq_of_lt (by omega)]
    omega
  · exact large

theorem request_spins (large : 2 ^ 63 < n + 16) (below : n ≤ 2 ^ 64 - 32) (bound : Nat) :
    sizeRequiredWithin bound ((n + sizeofBlock) % 2 ^ 64) = none :=
  sizeRequiredLoopWithin_spins (align_spins large below) bound (.inr ⟨4, by decide, rfl⟩)

theorem align_wraps (large : 2 ^ 64 - 32 < n) (word : n < 2 ^ 64) : align ((n + sizeofBlock) % 2 ^ 64) ≤ 2 ^ 4 := by
  unfold align alignment sizeofBlock
  by_cases beyond : 2 ^ 64 ≤ n + 16
  · have wrapped : (n + 16) % 2 ^ 64 = n + 16 - 2 ^ 64 := by omega
    rw [wrapped]
    split
    · rw [Nat.mod_eq_of_lt (by omega)]
      omega
    · omega
  · have whole : (n + 16) % 2 ^ 64 = n + 16 := Nat.mod_eq_of_lt (by omega)
    rw [whole]
    split
    · have rounded : ((n + 16) / 16 + 1) * 16 = 2 ^ 64 := by omega
      rw [rounded]
      decide
    · omega

/-- The smallest class, which the header alone fills. -/
theorem request_wraps (large : 2 ^ 64 - 32 < n) (word : n < 2 ^ 64) (enough : 64 ≤ bound) :
    sizeRequiredWithin bound ((n + sizeofBlock) % 2 ^ 64) = some (2 ^ 4) := by
  have wraps := align_wraps large word
  obtain ⟨rounds, rfl⟩ : ∃ r, bound = r + 1 := ⟨bound - 1, by omega⟩
  rw [sizeRequiredWithin, sizeRequiredLoopWithin, if_neg (by unfold alignment; omega)]
  rfl

theorem request_wraps_plain (large : 2 ^ 64 - 32 < n) (word : n < 2 ^ 64) :
    sizeRequired ((n + sizeofBlock) % 2 ^ 64) = 2 ^ 4 := by
  have wraps := align_wraps large word
  rw [sizeRequired, sizeRequiredLoop, if_neg (by unfold alignment; omega)]
  rfl

namespace BuddyAlloc

variable {alloc : BuddyAlloc} {m : Mem} {blocks : List Blk} {result result' : Mem × Option Nat}

theorem Returns.unique (first : Returns alloc m n result) (second : Returns alloc m n result') : result = result' := by
  obtain ⟨enough, returned⟩ := first
  obtain ⟨enough', returned'⟩ := second
  have both := (returned _ (Nat.le_max_left enough enough')).symm.trans (returned' _ (Nat.le_max_right enough enough'))
  exact Option.some.inj both

theorem malloc_returns (tiles : Tiles m alloc.head blocks alloc.tail) (ok : AllOk blocks) (room : extent blocks ≤ 2 ^ 63)
    (nonempty : alloc.head < alloc.tail) (class_eq : sizeRequired ((n + sizeofBlock) % 2 ^ 64) = 2 ^ j)
    (ends : ∀ bound, 64 ≤ bound → sizeRequiredWithin bound ((n + sizeofBlock) % 2 ^ 64) = some (2 ^ j)) :
    Returns alloc m n (malloc alloc m n) := by
  refine ⟨alloc.tail - alloc.head + 65, ?_⟩
  intro bound enough
  unfold mallocWithin malloc
  split
  · rw [ends bound (by omega), class_eq, Option.bind_eq_bind, Option.bind_some,
      searchWithin_eq (by omega) (by omega) tiles ok room nonempty, Option.bind_eq_bind, Option.bind_some]
    generalize search alloc m (2 ^ j) = run
    obtain ⟨m', _ | found⟩ := run
    · rfl
    · rfl
  · rfl

theorem malloc_found {m' : Mem} {found : Nat} (positive : 1 ≤ n) (class_eq : sizeRequired ((n + sizeofBlock) % 2 ^ 64) = 2 ^ j)
    (searched : search alloc m (2 ^ j) = (m', some found)) :
    malloc alloc m n = (claim m' found n, some (Block.data found)) := by
  rw [malloc, if_pos (by omega), class_eq, searched]

theorem malloc_missed {m' : Mem} (positive : 1 ≤ n) (class_eq : sizeRequired ((n + sizeofBlock) % 2 ^ 64) = 2 ^ j)
    (searched : search alloc m (2 ^ j) = (m', none)) : malloc alloc m n = (m', none) := by
  rw [malloc, if_pos (by omega), class_eq, searched]

theorem not_returns (positive : 1 ≤ n) (spins : ∀ bound, sizeRequiredWithin bound ((n + sizeofBlock) % 2 ^ 64) = none)
    (bound : Nat) : mallocWithin bound alloc m n = none := by
  unfold mallocWithin
  rw [if_pos (by omega), spins]
  rfl

end BuddyAlloc

/-- A free block fits every request of the smallest class. -/
theorem hits_smallest_iff {blocks : List Blk} (ok : AllOk blocks) (room : extent blocks ≤ 2 ^ 63) :
    hits (2 ^ 4) blocks = true ↔ ∃ c ∈ examined blocks, c.free = true := by
  have same := (pairUp_coarsens blocks).sameUse 0 ok room
  have seen : sees (2 ^ 4) blocks = true ↔ ∃ c ∈ scanned blocks, c.free = true := by
    rw [sees_iff]
    refine exists_congr fun c => and_congr_right fun member => ?_
    have above := (same.ok c (scanned_subset member)).1
    rw [Blk.fits_iff]
    exact and_iff_left (by omega)
  match blocks with
  | [] => exact seen
  | [b] =>
    have above := (ok b (by simp)).actual_ge
    simp only [hits, examined, List.mem_singleton, exists_eq_left, Bool.and_eq_true, decide_eq_true_eq]
    exact and_iff_left (by omega)
  | b :: d :: rest => exact seen

namespace Arena

/-- `malloc` ends, and a pointer that it returns has so many bytes of its block behind it, inside the heap. -/
def MallocSafe (h : Arena) (n : Nat) : Prop :=
  ∃ m' result, BuddyAlloc.Returns h.alloc h.m n (m', result) ∧
    ∀ ptr, result = some ptr → ∃ block, ptr = Block.data block ∧ h.alloc.head ≤ block ∧
      ptr + n ≤ Block.next m' block ∧ Block.next m' block ≤ h.alloc.tail

/-- None of the blocks that the two scans of a search look at is free. -/
def Exhausted (h : Arena) : Prop := ∀ c ∈ examined h.layout ++ examined (coalesced h.layout), c.free = false

instance (h : Arena) : Decidable h.Exhausted := by unfold Exhausted; infer_instance

/-- The calls that meet the condition for `malloc`, and the legal calls of the other functions. -/
def Orderly (h : Arena) : Call → Prop
  | .malloc size => (1 ≤ size ∧ size + 16 ≤ 2 ^ 63) ∨ (2 ^ 64 - 32 < size ∧ size < 2 ^ 64 ∧ h.Exhausted)
  | c => h.Legal c ∧ h.RoomyCall c

inductive OrderlyRun (m : Mem) (base size : Nat) : Arena → Prop where
  | init : OrderlyRun m base size (Arena.init m base size)
  | call {h : Arena} {c : Call} : OrderlyRun m base size h → h.Orderly c → OrderlyRun m base size (h.call c)

variable {h : Arena} {m : Mem} {base k : Nat} {blocks : List Blk}

theorem Valid.searchHits_iff (valid : h.Valid) : searchHits (2 ^ 4) h.layout = false ↔ h.Exhausted := by
  obtain ⟨blocks, lays⟩ := valid.lays
  obtain rfl := lays.layout_eq
  have room := lays.extent_le valid
  obtain ⟨_, same⟩ := coalesced_spec h.alloc.head lays.ok room
  unfold searchHits Exhausted
  rw [← Bool.not_eq_true, Bool.or_eq_true, hits_smallest_iff lays.ok room,
    hits_smallest_iff same.ok (same.extent_eq ▸ room)]
  simp only [List.mem_append, or_imp, forall_and, not_or, not_exists, not_and, Bool.not_eq_true]

theorem Valid.returns (valid : h.Valid) (class_eq : sizeRequired ((n + sizeofBlock) % 2 ^ 64) = 2 ^ j)
    (ends : ∀ bound, 64 ≤ bound → sizeRequiredWithin bound ((n + sizeofBlock) % 2 ^ 64) = some (2 ^ j)) :
    BuddyAlloc.Returns h.alloc h.m n (BuddyAlloc.malloc h.alloc h.m n) := by
  obtain ⟨blocks, lays⟩ := valid.lays
  exact BuddyAlloc.malloc_returns lays.tiles lays.ok (lays.extent_le valid) valid.nonempty class_eq ends

theorem call_malloc_some {m' : Mem} {ptr : Nat} (returned : BuddyAlloc.malloc h.alloc h.m n = (m', some ptr)) :
    h.call (.malloc n) = { h with m := m', live := ⟨ptr, n⟩ :: h.live } := by
  simp only [call, returned]

theorem call_malloc_none {m' : Mem} (returned : BuddyAlloc.malloc h.alloc h.m n = (m', none)) :
    h.call (.malloc n) = { h with m := m' } := by
  simp only [call, returned]

/-- Up to the largest class the block has room. -/
theorem Valid.mallocSafe (valid : h.Valid) (positive : 1 ≤ n) (small : n + 16 ≤ 2 ^ 63) : h.MallocSafe n := by
  obtain ⟨blocks, lays⟩ := valid.lays
  obtain ⟨request, j, _, _, class_eq, _⟩ := request_class positive small
  have returns := valid.returns (j := j) (request ▸ class_eq) fun bound enough => by
    rw [sizeRequiredWithin_eq (request_fits small) enough, request, class_eq]
  obtain ⟨_, ⟨blocks', laid, _⟩, _⟩ := malloc_spec valid lays ⟨positive, small⟩
  refine ⟨(BuddyAlloc.malloc h.alloc h.m n).1, (BuddyAlloc.malloc h.alloc h.m n).2, returns, ?_⟩
  intro ptr found
  rw [call_malloc_some (Prod.ext rfl found)] at laid
  obtain ⟨above, data, room, below⟩ := laid.inside (u := ⟨ptr, n⟩) (.head _)
  exact ⟨_, data.symm, above, room, below⟩

/-- Between the largest class and the sizes that wrap, `malloc` never ends. -/
theorem not_mallocSafe_spins (positive : 1 ≤ n) (large : 2 ^ 63 < n + 16) (below : n ≤ 2 ^ 64 - 32) : ¬h.MallocSafe n := by
  rintro ⟨m', result, ⟨enough, returned⟩, _⟩
  have ran := returned enough (Nat.le_refl _)
  rw [BuddyAlloc.not_returns positive (request_spins large below)] at ran
  cases ran

theorem Valid.malloc_wraps (valid : h.Valid) (large : 2 ^ 64 - 32 < n) (word : n < 2 ^ 64) :
    ((BuddyAlloc.malloc h.alloc h.m n).2 = none ↔ h.Exhausted) ∧
      (h.Exhausted → (h.call (.malloc n)).Valid) := by
  obtain ⟨blocks, lays⟩ := valid.lays
  obtain rfl := lays.layout_eq
  obtain ⟨same, scan⟩ :=
    BuddyAlloc.search_scan (j := 4) h.alloc lays.tiles lays.ok (lays.extent_le valid) valid.nonempty
  have smallest := request_wraps_plain large word
  rw [← valid.searchHits_iff]
  rcases searched : BuddyAlloc.search h.alloc h.m (2 ^ 4) with ⟨m', found⟩
  rw [searched] at scan
  split at scan
  · rename_i hit
    obtain ⟨x, rfl⟩ := Option.isSome_iff_exists.mp (scan.isSome same.ok)
    rw [BuddyAlloc.malloc_found (by omega) smallest searched, hit]
    exact ⟨iff_of_false nofun nofun, nofun⟩
  · rename_i miss
    obtain ⟨none, swept⟩ := scan
    obtain rfl : found = Option.none := none
    have ran := BuddyAlloc.malloc_missed (by omega) smallest searched
    rw [call_malloc_none ran, ran]
    exact ⟨iff_of_true rfl (by simpa using miss),
      fun _ => ⟨valid.nonempty, valid.room, _, swept.tiles, same.ok, same.used_eq ▸ lays.live⟩⟩

/-- A size that wraps is safe only when there is nothing to hand out. -/
theorem Valid.mallocSafe_wraps_iff (valid : h.Valid) (large : 2 ^ 64 - 32 < n) (word : n < 2 ^ 64) :
    h.MallocSafe n ↔ h.Exhausted := by
  have returns := valid.returns (j := 4) (request_wraps_plain large word) fun bound enough =>
    request_wraps large word enough
  rw [← (valid.malloc_wraps large word).1]
  constructor
  · rintro ⟨m', result, returned, safe⟩
    have same := returned.unique returns
    rw [← same]
    cases result with
    | none => rfl
    | some ptr =>
      -- no heap has room for so many bytes
      obtain ⟨block, data, above, inside, below⟩ := safe ptr rfl
      have room := valid.room
      have start : ptr = block + 16 := data
      omega
  · intro none
    refine ⟨(BuddyAlloc.malloc h.alloc h.m n).1, (BuddyAlloc.malloc h.alloc h.m n).2, returns, ?_⟩
    intro ptr found
    rw [none] at found
    cases found

theorem Orderly.valid {c : Call} (orderly : h.Orderly c) (valid : h.Valid) : (h.call c).Valid := by
  cases c with
  | malloc size =>
    rcases orderly with legal | ⟨large, word, exhausted⟩
    · exact call_valid valid legal trivial
    · exact (valid.malloc_wraps large word).2 exhausted
  | free u => exact call_valid valid orderly.1 orderly.2
  | realloc u size => exact call_valid valid orderly.1 orderly.2
  | store u offset value => exact call_valid valid orderly.1 orderly.2

theorem OrderlyRun.valid (large : 5 ≤ k) (fits : base + 2 ^ k < 2 ^ 64) (run : OrderlyRun m base (2 ^ k) h) : h.Valid := by
  induction run with
  | init => exact (init_lays m large (exponent_le fits)).1
  | call _ orderly ih => exact orderly.valid ih

/-- `malloc` is safe exactly for the sizes whose class exists, and for those that wrap as long as
there is nothing to hand out. -/
theorem malloc_safe_iff (large : 5 ≤ k) (fits : base + 2 ^ k < 2 ^ 64) (run : OrderlyRun m base (2 ^ k) h)
    (positive : 1 ≤ n) (word : n < 2 ^ 64) :
    h.MallocSafe n ↔ n + 16 ≤ 2 ^ 63 ∨ (2 ^ 64 - 32 < n ∧ h.Exhausted) := by
  have valid := run.valid large fits
  by_cases small : n + 16 ≤ 2 ^ 63
  · exact iff_of_true (valid.mallocSafe positive small) (.inl small)
  · by_cases wraps : 2 ^ 64 - 32 < n
    · rw [valid.mallocSafe_wraps_iff wraps word, or_iff_right small, and_iff_right wraps]
    · refine iff_of_false (not_mallocSafe_spins positive (by omega) (by omega)) ?_
      rintro (fits | ⟨high, _⟩)
      · exact small fits
      · exact wraps high

/-- 100 bytes of a fresh heap of 256, and the largest size in a heap whose only block is in use. -/
theorem malloc_safe_iff_small :
    (init (fun _ => 0) 0x1000 (2 ^ 8)).MallocSafe 100 ∧
      ((init (fun _ => 0) 0x1000 (2 ^ 5)).call (.malloc 10)).MallocSafe (2 ^ 64 - 1) := by
  refine ⟨?_, ?_⟩
  · exact (malloc_safe_iff (k := 8) (by decide) (by decide) .init (by decide) (by decide)).mpr (.inl (by decide))
  · have run : OrderlyRun (fun _ => 0) 0x1000 (2 ^ 5) ((init (fun _ => 0) 0x1000 (2 ^ 5)).call (.malloc 10)) :=
      .call .init (.inl (by decide))
    exact (malloc_safe_iff (k := 5) (by decide) (by decide) run (by decide) (by decide)).mpr
      (.inr ⟨by decide, by decide +kernel⟩)

/-- In a fresh heap of 256 bytes the largest size gets the pointer to the end of the heap, and `2^63` no answer. -/
theorem malloc_unsafe :
    let h := init (fun _ => 0) 0x1000 (2 ^ 8)
    h.alloc.tail = 0x1100 ∧ (∃ m', BuddyAlloc.Returns h.alloc h.m (2 ^ 64 - 1) (m', some 0x1100)) ∧
      ¬h.MallocSafe (2 ^ 64 - 1) ∧ (∀ bound, BuddyAlloc.mallocWithin bound h.alloc h.m (2 ^ 63) = none) ∧
      ¬h.MallocSafe (2 ^ 63) := by
  intro h
  have valid : h.Valid := (init_lays (k := 8) (fun _ => 0) (by decide) (by decide)).1
  have returns := valid.returns (n := 2 ^ 64 - 1) (j := 4) (request_wraps_plain (by decide) (by decide))
    fun bound enough => request_wraps (by decide) (by decide) enough
  have found : (BuddyAlloc.malloc h.alloc h.m (2 ^ 64 - 1)).2 = some 0x1100 := by decide +kernel
  have free : ¬h.Exhausted := by decide +kernel
  have tail : h.alloc.tail = 0x1100 := by decide +kernel
  clear_value h
  generalize BuddyAlloc.malloc h.alloc h.m (2 ^ 64 - 1) = run at returns found
  obtain ⟨m', result⟩ := run
  obtain rfl : result = some 0x1100 := found
  refine ⟨tail, ⟨m', returns⟩, ?_, ?_, ?_⟩
  · rw [valid.mallocSafe_wraps_iff (by decide) (by decide)]
    exact free
  · exact BuddyAlloc.not_returns (by decide) (request_spins (by decide) (by decide))
  · exact not_mallocSafe_spins (by decide) (by decide) (by decide)

end Arena

end FishOS.Heap
