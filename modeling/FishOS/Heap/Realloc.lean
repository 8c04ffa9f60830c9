import FishOS.Heap.Run

/-!
# Reallocation

`realloc` stays in its block when the class is the same, and otherwise moves to a block
that it searches for. The copy takes the old size from the old header, so it fits only a
new block that is at least as large: `Roomy` is that condition.
-/

namespace FishOS.Heap

namespace Arena

variable {h : Arena} {blocks : List Blk} {u : Allocation} {n : Nat}

/-- The copy of `realloc` fits the new block, or there is no new block to copy to. -/
def Roomy (blocks : List Blk) (u : Allocation) (n : Nat) : Prop :=
  sizeRequired (u.size + 16) ≤ sizeRequired (n + 16) ∨ searchHits (sizeRequired (n + 16)) blocks = false

/-- A block that `realloc` gives up records its whole size, or none is given up: the header of
the old block keeps the size of the request that it was obtained with. -/
def Whole (blocks : List Blk) (u : Allocation) (n : Nat) : Prop :=
  sizeRequired (u.size + 16) = u.size + 16 ∨ sizeRequired (u.size + 16) = sizeRequired (n + 16) ∨
    searchHits (sizeRequired (n + 16)) blocks = false

theorem realloc_eq (lays : h.Lays blocks) (legal : h.Legal (.realloc u n)) :
    BuddyAlloc.realloc h.alloc h.m (some u.ptr) n =
      if sizeRequired (u.size + 16) = sizeRequired (n + 16) then
        (Block.setSize h.m u.block (n + 16), some u.ptr)
      else
        match BuddyAlloc.search h.alloc h.m (sizeRequired (n + 16)) with
        | (m, some found) =>
          (Block.setFree ((BuddyAlloc.claim m found n).memcpy (found + 16) u.ptr u.size) u.block true,
            some (found + 16))
        | (m, none) => (m, none) := by
  obtain ⟨live, positive, small⟩ := legal
  obtain ⟨request, _⟩ := request_class positive small
  obtain ⟨front, b, back, rfl, shape, _, size, okB⟩ := lays.split live
  have wide := okB.actual_ge
  have landed := lays.tiles.end_eq
  have header := (tiles_append.mp lays.tiles).2.1
  have ptr : u.ptr = h.alloc.head + extent front + 16 := by rw [shape]; rfl
  have block : u.ptr - sizeofBlock = h.alloc.head + extent front := by simp only [sizeofBlock]; omega
  simp only [extent_append, extent_cons] at landed
  have nonzero : ¬n = 0 := by omega
  have above : ¬h.alloc.head > u.ptr := by omega
  have below : ¬h.alloc.tail ≤ u.ptr := by omega
  rw [BuddyAlloc.realloc]
  rcases searched : BuddyAlloc.search h.alloc h.m (sizeRequired (n + 16)) with ⟨m', _ | found⟩ <;>
    simp only [if_neg nonzero, if_neg above, if_neg below, Allocation.block, block, header, size,
      request, searched, Block.data] <;>
    simp [ptr, sizeofBlock]

theorem search_found (valid : h.Valid) (lays : h.Lays blocks) (legal : h.Legal (.realloc u n))
    (hit : searchHits (sizeRequired (n + 16)) blocks = true) :
    (BuddyAlloc.search h.alloc h.m (sizeRequired (n + 16))).2.isSome = true := by
  obtain ⟨_, positive, small⟩ := legal
  obtain ⟨_, j, floor, _, class_eq, _⟩ := request_class positive small
  have spec := BuddyAlloc.search_spec h.alloc lays.tiles lays.ok (lays.extent_le valid) valid.nonempty floor
  rw [← class_eq, if_pos hit] at spec
  obtain ⟨front, c, back, position, _⟩ := spec
  simp [position]

theorem Lays.move {w : Allocation} (lays : h.Lays blocks) (live : u ∈ h.live) (target : w ∈ h.live)
    (different : u ≠ w) (fits : u.size ≤ w.size) :
    let m' := Block.setFree (h.m.memcpy w.ptr u.ptr u.size) u.block true
    (∃ blocks', Lays { h with m := m', live := h.live.erase u } blocks' ∧
        (Exact blocks → (Exact blocks' ↔ sizeRequired (u.size + 16) = u.size + 16))) ∧
      (∀ v ∈ h.live, v ≠ u → v ≠ w → Untouched v h.m m') ∧ ∀ i < u.size, m' (w.ptr + i) = h.m (u.ptr + i) := by
  have apart := lays.apart live target different
  unfold Apart at apart
  obtain ⟨_, ptrU, insideU, _⟩ := lays.inside live
  obtain ⟨_, ptrW, insideW, _⟩ := lays.inside target
  -- the copy stays inside the block of `w`
  generalize copied : h.m.memcpy w.ptr u.ptr u.size = m₁
  have outside : ∀ y, y < w.ptr ∨ w.ptr + u.size ≤ y → m₁ y = h.m y := by
    intro y off
    exact copied ▸ Mem.memcpy_other _ off
  obtain ⟨front, b, back, rfl, shape, _, size, okB⟩ := lays.split target
  have wideB := okB.size_le
  have ptr : w.ptr = h.alloc.head + extent front + 16 := by rw [shape]; rfl
  have laid := @Lays.write h front back b m₁ lays fun y off => outside y (by omega)
  have others : ∀ v ∈ h.live, v ≠ w → Untouched v h.m m₁ := fun v liveV different =>
    lays.untouched_other shape target liveV different fun y off => outside y (by omega)
  -- the release writes only the header of `u`
  obtain ⟨front', d, back', split, shape', used, size', okD⟩ := laid.split (u := u) live
  have wideD := okD.actual_ge
  have block : u.block = h.alloc.head + extent front' := by rw [shape']; rfl
  rw [split] at laid
  have header := (tiles_append.mp laid.tiles).2.1
  have frame : ∀ y, y < h.alloc.head + extent front' ∨ h.alloc.head + extent front' + d.actual ≤ y →
      Block.setFree m₁ u.block true y = m₁ y := fun y off => setFree_other _ (by omega)
  have released := laid.release (d := ⟨d.size, true⟩) shape' live used okD rfl rfl
    (by rw [block, size_setFree]; exact header) (by rw [block, isFree_setFree]) frame
  have recorded : d.size = u.size + 16 := size'
  refine ⟨⟨_, released, ?_⟩, ?_, ?_⟩
  · intro exact
    rw [split] at exact
    simp only [exact_append, exact_cons] at exact ⊢
    simp only [exact.1, exact.2.2, true_and, and_true, forall_const, recorded]
    rfl
  · intro v liveV other away
    exact (others v liveV away).trans (laid.untouched_other shape' live liveV other frame)
  · intro i inside
    rw [setFree_other _ (by omega), ← copied]
    exact Mem.memcpy_inside _ (by omega) inside

theorem realloc_stay (lays : h.Lays blocks) (legal : h.Legal (.realloc u n))
    (same : sizeRequired (u.size + 16) = sizeRequired (n + 16)) :
    (BuddyAlloc.realloc h.alloc h.m (some u.ptr) n).2 = some u.ptr ∧
      (∃ blocks', (h.call (.realloc u n)).Lays blocks' ∧ (Exact blocks → Exact blocks')) ∧
      (∀ v ∈ h.live, v ≠ u → Untouched v h.m (h.call (.realloc u n)).m) ∧
      ∀ i < min u.size n, (h.call (.realloc u n)).m (u.ptr + i) = h.m (u.ptr + i) := by
  have run := realloc_eq lays legal
  obtain ⟨live, positive, small⟩ := legal
  obtain ⟨_, _, _, _, _, okNew⟩ := request_class positive small
  obtain ⟨front, b, back, rfl, shape, used, size, okB⟩ := lays.split live
  have wide := okB.actual_ge
  have header := (tiles_append.mp lays.tiles).2
  have ptr : u.ptr = h.alloc.head + extent front + 16 := by rw [shape]; rfl
  have block : u.block = h.alloc.head + extent front := by rw [Allocation.block, ptr]; rfl
  have sameClass : Blk.actual ⟨n + 16, false⟩ = b.actual := by rw [Blk.actual, Blk.actual, size, same]
  rw [if_pos same, block] at run
  simp only [call, run]
  have frame : ∀ y, y < h.alloc.head + extent front ∨ h.alloc.head + extent front + 16 ≤ y →
      Block.setSize h.m (h.alloc.head + extent front) (n + 16) y = h.m y :=
    fun y apart => setSize_other _ (by omega)
  have laid := lays.resize shape live used okNew sameClass (size_setSize _ _ _ (by omega))
    ((isFree_setSize _ _ _).trans (header.2.1.trans used)) fun y apart => frame y (by omega)
  exact ⟨trivial, ⟨_, laid, Exact.claim⟩,
    fun v liveV different => lays.untouched_other shape live liveV different fun y apart => frame y (by omega),
    fun i _ => frame _ (by omega)⟩

theorem realloc_move (valid : h.Valid) (lays : h.Lays blocks) (legal : h.Legal (.realloc u n))
    (larger : sizeRequired (u.size + 16) < sizeRequired (n + 16))
    (hit : searchHits (sizeRequired (n + 16)) blocks = true) :
    ∃ q, (BuddyAlloc.realloc h.alloc h.m (some u.ptr) n).2 = some q ∧
      (∃ blocks', (h.call (.realloc u n)).Lays blocks' ∧
        (Exact blocks → (Exact blocks' ↔ sizeRequired (u.size + 16) = u.size + 16))) ∧
      (∀ v ∈ h.live, v ≠ u → Untouched v h.m (h.call (.realloc u n)).m) ∧
      ∀ i < u.size, (h.call (.realloc u n)).m (q + i) = h.m (u.ptr + i) := by
  have run := realloc_eq lays legal
  obtain ⟨live, positive, small⟩ := legal
  obtain ⟨_, j, floor, _, class_eq, okNew⟩ := request_class positive small
  have grows : u.size < n := by
    obtain ⟨_, b, _, _, _, _, size, okB⟩ := lays.split live
    by_contra shrinks
    exact absurd (sizeRequired_mono (Nat.add_le_add_right (Nat.not_lt.mp shrinks) 16) (size ▸ okB.2))
      (Nat.not_le.mpr larger)
  have spec := BuddyAlloc.search_spec h.alloc lays.tiles lays.ok (lays.extent_le valid) valid.nonempty floor
  rw [← class_eq, if_pos hit] at spec
  obtain ⟨front, c, back, position, free, wide, swept, same, _⟩ := spec
  rw [if_neg (by omega)] at run
  generalize BuddyAlloc.search h.alloc h.m (sizeRequired (n + 16)) = found at run position swept
  obtain ⟨m', found⟩ := found
  obtain rfl : found = some (h.alloc.head + extent front) := position
  simp only [call, run]
  obtain ⟨laid, kept⟩ := claim_lays lays swept same free (wide.trans class_eq) positive small class_eq
  -- the new block is live beside the old one until the old one is released
  have different : u ≠ ⟨h.alloc.head + extent front + 16, n⟩ := by
    intro same
    rw [same] at grows
    exact absurd grows (Nat.lt_irrefl n)
  obtain ⟨⟨blocks', moved, whole⟩, others, content⟩ := laid.move (w := ⟨h.alloc.head + extent front + 16, n⟩)
    (List.mem_cons_of_mem _ live) List.mem_cons_self different (Nat.le_of_lt grows)
  refine ⟨_, rfl, ⟨blocks', ?_, fun exact => whole (same.exact exact).claim⟩, ?_, ?_⟩
  · have rest : (⟨h.alloc.head + extent front + 16, n⟩ :: h.live).erase u =
        ⟨h.alloc.head + extent front + 16, n⟩ :: h.live.erase u := List.erase_cons_tail (by simpa using different.symm)
    exact rest ▸ moved
  · intro v liveV other
    have away : v ≠ ⟨h.alloc.head + extent front + 16, n⟩ := fun same =>
      (List.nodup_cons.mp laid.nodup).1 (same ▸ liveV)
    exact (lays.untouched liveV kept).trans (others v (List.mem_cons_of_mem _ liveV) other away)
  · intro i inside
    rw [content i inside]
    obtain ⟨_, ptr, _⟩ := lays.inside live
    exact lays.untouched live kept _ (by omega) (by omega)

theorem realloc_fail (valid : h.Valid) (lays : h.Lays blocks) (legal : h.Legal (.realloc u n))
    (changes : sizeRequired (u.size + 16) ≠ sizeRequired (n + 16))
    (miss : ¬searchHits (sizeRequired (n + 16)) blocks = true) :
    (BuddyAlloc.realloc h.alloc h.m (some u.ptr) n).2 = none ∧
      (∃ blocks', (h.call (.realloc u n)).Lays blocks' ∧ (Exact blocks → Exact blocks')) ∧
      ∀ v ∈ h.live, Untouched v h.m (h.call (.realloc u n)).m := by
  have run := realloc_eq lays legal
  obtain ⟨_, positive, small⟩ := legal
  obtain ⟨_, j, floor, _, class_eq, _⟩ := request_class positive small
  have spec := BuddyAlloc.search_spec h.alloc lays.tiles lays.ok (lays.extent_le valid) valid.nonempty floor
  rw [← class_eq, if_neg miss] at spec
  obtain ⟨none_eq, swept, same⟩ := spec
  rw [if_neg changes] at run
  generalize BuddyAlloc.search h.alloc h.m (sizeRequired (n + 16)) = found at run none_eq swept
  obtain ⟨m', found⟩ := found
  obtain rfl : found = none := none_eq
  simp only [call, run]
  exact ⟨trivial, ⟨_, ⟨swept.tiles, same.ok, same.used_eq ▸ lays.live⟩, same.exact⟩,
    fun v live => lays.untouched live swept.frame⟩

/-- A `realloc` whose copy fits leaves a tiled heap, keeps every other allocation and moves the data. -/
theorem realloc_spec (valid : h.Valid) (lays : h.Lays blocks) (legal : h.Legal (.realloc u n))
    (roomy : Roomy blocks u n) :
    (∃ blocks', (h.call (.realloc u n)).Lays blocks' ∧ (Exact blocks → (Exact blocks' ↔ Whole blocks u n))) ∧
      (∀ v ∈ h.live, v ≠ u → Untouched v h.m (h.call (.realloc u n)).m) ∧
      ∀ q ∈ (BuddyAlloc.realloc h.alloc h.m (some u.ptr) n).2,
        ∀ i < min u.size n, (h.call (.realloc u n)).m (q + i) = h.m (u.ptr + i) := by
  by_cases same : sizeRequired (u.size + 16) = sizeRequired (n + 16)
  · obtain ⟨result, ⟨blocks', laid, keeps⟩, others, content⟩ := realloc_stay lays legal same
    refine ⟨⟨blocks', laid, fun exact => iff_of_true (keeps exact) (Or.inr (Or.inl same))⟩, others, ?_⟩
    intro q found
    obtain rfl : u.ptr = q := by simpa [result] using found
    exact content
  by_cases hit : searchHits (sizeRequired (n + 16)) blocks = true
  · have larger : sizeRequired (u.size + 16) < sizeRequired (n + 16) := by
      rcases roomy with le | miss
      · omega
      · exact absurd hit (by simp [miss])
    obtain ⟨q, result, ⟨blocks', laid, whole⟩, others, content⟩ := realloc_move valid lays legal larger hit
    refine ⟨⟨blocks', laid, ?_⟩, others, ?_⟩
    · intro exact
      rw [whole exact]
      simp [Whole, same, hit]
    · intro q' found i inside
      obtain rfl : q = q' := by simpa [result] using found
      exact content i (by omega)
  · obtain ⟨result, ⟨blocks', laid, keeps⟩, others⟩ := realloc_fail valid lays legal same hit
    have miss : searchHits (sizeRequired (n + 16)) blocks = false := by simpa using hit
    exact ⟨⟨blocks', laid, fun exact => iff_of_true (keeps exact) (Or.inr (Or.inr miss))⟩,
      fun v live _ => others v live, fun q found => by simp [result] at found⟩

end Arena

end FishOS.Heap
