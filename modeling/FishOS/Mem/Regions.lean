import FishOS.Mem.FlatMap

/-!
# Regions

`map_pages` counts its pages from the size alone and cuts them from a start that need not be
aligned. What that means for the last bytes of a region.
-/

namespace FishOS.Mem

open RadixTree Pmm

/-- The address that the tables send `virt` to. -/
def translate (m : Mem) (root virt : Nat) : Option Nat :=
  let e := leaf m root (path virt)
  if e &&& pagePresent ≠ 0 then some ((e &&& addressMask) + virt % 0x1000) else none

/-- The calls of `map_page` that the loop of `map_pages` makes from `i` on. -/
def pageCalls (phy virt flags i n : Nat) : List MapPage :=
  (List.range' i n).map fun j =>
    { phy := (phy + j * 0x1000) % 2 ^ 64, virt := (virt + j * 0x1000) % 2 ^ 64, flags := flags }

def Covered (m : Mem) (root phy virt size : Nat) : Prop := ∀ k < size, translate m root (virt + k) = some (phy + k)

/-- The region fits into the address spaces, and its last byte lies in a page that the count
includes or that was mapped rightly before. -/
def Coverable (m : Mem) (root phy virt size : Nat) : Prop :=
  size = 0 ∨ phy + size ≤ 2 ^ 52 ∧ virt % 0x1000 + size ≤ 2 ^ 48 ∧
    (virt % 0x1000 + size ≤ alignUp size ∨ translate m root (virt + (size - 1)) = some (phy + (size - 1)))

/-- A region without wrap-around whose two ends lie alike in their pages. -/
structure Region (phy virt size flags : Nat) : Prop where
  phyEnd : phy + size ≤ 2 ^ 64
  virtEnd : virt + size ≤ 2 ^ 64
  congruent : phy % 0x1000 = virt % 0x1000
  bounded : flags < 2 ^ 64
  present : flags &&& pagePresent ≠ 0
  clear : flags &&& addressMask = 0

section Translate

variable {m m' : Mem} {root v w result : Nat}

theorem translate_lt (found : translate m root v = some result) : result < 2 ^ 52 := by
  unfold translate at found
  dsimp only at found
  split at found
  · obtain rfl := Option.some.inj found
    rw [and_addressMask]
    omega
  · cases found

/-- Two addresses in one page are sent to one frame. -/
theorem translate_of_page (same : page v = page w) (found : translate m root v = some result) :
    translate m root w = some (result - v % 0x1000 + w % 0x1000) ∧ v % 0x1000 ≤ result := by
  unfold translate at found ⊢
  rw [← path_eq_iff.mpr same]
  dsimp only at found ⊢
  split at found
  · rename_i present
    obtain rfl := Option.some.inj found
    rw [if_pos present, Nat.add_sub_cancel]
    exact ⟨rfl, Nat.le_add_left _ _⟩
  · cases found

theorem translate_congr (same : leaf m' root (path v) = leaf m root (path v)) :
    translate m' root v = translate m root v := by
  unfold translate
  rw [same]

theorem translate_leafWord {phy flags : Nat} (entry : leaf m root (path v) = leafWord phy flags)
    (present : flags &&& pagePresent ≠ 0) (clear : flags &&& addressMask = 0) :
    translate m root v = some ((phy &&& addressMask) + v % 0x1000) := by
  unfold translate
  dsimp only
  rw [entry, leafWord_present, if_pos present, leafWord_address clear]

theorem latest_unique {calls : List MapPage} {call : MapPage} (member : call ∈ calls)
    (unique : ∀ c ∈ calls, page c.virt = page call.virt → c = call) : latest calls (page call.virt) = some call := by
  cases found : latest calls (page call.virt) with
  | none =>
    have missed := List.find?_eq_none.mp found call (List.mem_reverse.mpr member)
    simp at missed
  | some c =>
    have here := List.find?_some found
    rw [unique c (latest_mem found) (by simpa using here)]

theorem latest_none {calls : List MapPage} {p : Nat} (other : ∀ c ∈ calls, page c.virt ≠ p) : latest calls p = none := by
  apply List.find?_eq_none.mpr
  intro c member
  simpa using other c (List.mem_reverse.mp member)

end Translate

section MapPages

variable {s s' : Phys} {root phy virt size flags i n : Nat} {lab : Nat → Option (List (Fin 512))}

theorem mapPagesLoop_eq : mapPagesLoop root phy virt flags s i n = mapAll s root (pageCalls phy virt flags i n) := by
  induction n generalizing s i with
  | zero => rfl
  | succ n ih =>
    unfold mapPagesLoop pageCalls
    simp only [List.range'_succ, List.map_cons, mapAll, ih]
    rfl

theorem mem_pageCalls {call : MapPage} : call ∈ pageCalls phy virt flags 0 n ↔
    ∃ j < n, { phy := (phy + j * 0x1000) % 2 ^ 64, virt := (virt + j * 0x1000) % 2 ^ 64, flags := flags } = call := by
  unfold pageCalls
  simp [List.mem_range'_1]

theorem Region.legal (region : Region phy virt size flags) : ∀ call ∈ pageCalls phy virt flags 0 n, call.Legal := by
  intro call member
  obtain ⟨j, -, rfl⟩ := mem_pageCalls.mp member
  exact ⟨Nat.mod_lt _ (Nat.two_pow_pos 64), region.bounded, region.present, region.clear⟩

theorem page_mod (v : Nat) : page (v % 2 ^ 64) = page v := by
  unfold page
  omega

/-- Less than 2^36 pages in a row do not fall together. -/
theorem latest_pageCalls {j : Nat} (few : n ≤ 2 ^ 36) (inside : j < n) :
    latest (pageCalls phy virt flags 0 n) (page (virt + j * 0x1000)) =
      some { phy := (phy + j * 0x1000) % 2 ^ 64, virt := (virt + j * 0x1000) % 2 ^ 64, flags := flags } := by
  have member : ({ phy := (phy + j * 0x1000) % 2 ^ 64, virt := (virt + j * 0x1000) % 2 ^ 64, flags := flags } : MapPage) ∈
      pageCalls phy virt flags 0 n := mem_pageCalls.mpr ⟨j, inside, rfl⟩
  have found := latest_unique member (by
    intro c other same
    obtain ⟨j', inside', rfl⟩ := mem_pageCalls.mp other
    dsimp only at same
    rw [page_mod, page_mod] at same
    obtain rfl : j' = j := by
      unfold page at same
      omega
    rfl)
  rwa [page_mod] at found

/-- The pages that the loop reaches, and those that it leaves alone. -/
theorem leaf_mapPages (tables : Tables s lab) (top : lab root = some []) (region : Region phy virt size flags)
    (mapped : mapPages s root phy virt size flags = some s') (few : alignUp size / 0x1000 ≤ 2 ^ 36) :
    (∀ j < alignUp size / 0x1000, ∀ v, page v = page (virt + j * 0x1000) →
      leaf s'.m root (path v) = leafWord ((phy + j * 0x1000) % 2 ^ 64) flags) ∧
    ∀ v, (∀ j < alignUp size / 0x1000, page (virt + j * 0x1000) ≠ page v) →
      leaf s'.m root (path v) = leaf s.m root (path v) := by
  unfold mapPages at mapped
  rw [mapPagesLoop_eq] at mapped
  obtain ⟨-, entries⟩ := tables.leaf_mapAll top region.legal mapped
  constructor
  · intro j inside v here
    rw [entries v, here, latest_pageCalls few inside]
    rfl
  · intro v other
    have missed : latest (pageCalls phy virt flags 0 (alignUp size / 0x1000)) (page v) = none := by
      apply latest_none
      intro c member
      obtain ⟨j, inside, rfl⟩ := mem_pageCalls.mp member
      rw [page_mod]
      exact other j inside
    rw [entries v, missed]
    rfl

theorem covered_fits (congruent : phy % 0x1000 = virt % 0x1000) (nonempty : size ≠ 0)
    (covered : Covered s'.m root phy virt size) : phy + size ≤ 2 ^ 52 ∧ virt % 0x1000 + size ≤ 2 ^ 48 := by
  constructor
  · have last := translate_lt (covered (size - 1) (by omega))
    omega
  · -- the page 2^48 bytes on has the same entry
    by_contra long
    have first := covered 0 (by omega)
    have again := covered (2 ^ 48 - virt % 0x1000) (by omega)
    have same : page (virt + 0) = page (virt + (2 ^ 48 - virt % 0x1000)) := by
      unfold page
      omega
    obtain ⟨moved, -⟩ := translate_of_page same first
    rw [again, Option.some.injEq] at moved
    omega

/-- The bytes of the pages that the loop reaches are translated as the region asks. -/
theorem translate_mapPages {k : Nat} (tables : Tables s lab) (top : lab root = some [])
    (region : Region phy virt size flags) (mapped : mapPages s root phy virt size flags = some s')
    (bounded : phy + size ≤ 2 ^ 52) (short : virt % 0x1000 + size ≤ 2 ^ 48) (below : k < size)
    (counted : (virt % 0x1000 + k) / 0x1000 < alignUp size / 0x1000) :
    translate s'.m root (virt + k) = some (phy + k) := by
  have congruent := region.congruent
  have virtEnd := region.virtEnd
  have rounded : alignUp size = (size + 0xFFF) / 0x1000 * 0x1000 := alignUp_eq (by omega)
  obtain ⟨reached, -⟩ := leaf_mapPages tables top region mapped (by omega)
  have here : page (virt + k) = page (virt + (virt % 0x1000 + k) / 0x1000 * 0x1000) := by
    unfold page
    omega
  rw [translate_leafWord (reached _ counted _ here) region.present region.clear, and_addressMask, Option.some.injEq]
  omega

/-- The page of the last byte, when it is the one behind those that are counted. -/
theorem leaf_last (tables : Tables s lab) (top : lab root = some []) (region : Region phy virt size flags)
    (mapped : mapPages s root phy virt size flags = some s') (bounded : phy + size ≤ 2 ^ 52)
    (short : virt % 0x1000 + size ≤ 2 ^ 48) (behind : alignUp size < virt % 0x1000 + size) :
    leaf s'.m root (path (virt + (size - 1))) = leaf s.m root (path (virt + (size - 1))) := by
  have rounded : alignUp size = (size + 0xFFF) / 0x1000 * 0x1000 := alignUp_eq (by omega)
  obtain ⟨-, beyond⟩ := leaf_mapPages tables top region mapped (by omega)
  apply beyond
  intro j counted same
  unfold page at same
  omega

/-- `map_pages` covers its region exactly when the count reaches the page of the last byte, up to
what the address spaces hold and what was mapped before. -/
theorem map_pages_covers_iff (tables : Tables s lab) (top : lab root = some [])
    (region : Region phy virt size flags) (mapped : mapPages s root phy virt size flags = some s') :
    Covered s'.m root phy virt size ↔ Coverable s.m root phy virt size := by
  by_cases empty : size = 0
  · refine ⟨fun _ => Or.inl empty, fun _ k inside => ?_⟩
    omega
  by_cases fits : phy + size ≤ 2 ^ 52 ∧ virt % 0x1000 + size ≤ 2 ^ 48
  swap
  · refine ⟨fun covered => absurd (covered_fits region.congruent empty covered) fits, ?_⟩
    rintro (none | ⟨bounded, short, -⟩)
    · exact absurd none empty
    · exact absurd ⟨bounded, short⟩ fits
  obtain ⟨bounded, short⟩ := fits
  have rounded : alignUp size = (size + 0xFFF) / 0x1000 * 0x1000 := alignUp_eq (by omega)
  by_cases whole : virt % 0x1000 + size ≤ alignUp size
  · refine ⟨fun _ => Or.inr ⟨bounded, short, Or.inl whole⟩, fun _ k below => ?_⟩
    exact translate_mapPages tables top region mapped bounded short below (by omega)
  have last := leaf_last tables top region mapped bounded short (by omega)
  rw [Covered, Coverable, ← translate_congr last]
  constructor
  · exact fun covered => Or.inr ⟨bounded, short, Or.inr (covered (size - 1) (by omega))⟩
  · rintro (none | ⟨-, -, counted | before⟩)
    · exact absurd none empty
    · exact absurd counted whole
    · intro k below
      by_cases counted : (virt % 0x1000 + k) / 0x1000 < alignUp size / 0x1000
      · exact translate_mapPages tables top region mapped bounded short below counted
      · have same : page (virt + (size - 1)) = page (virt + k) := by
          unfold page
          omega
        obtain ⟨moved, -⟩ := translate_of_page same before
        rw [moved, Option.some.injEq]
        omega

end MapPages

theorem map_pages_covers_iff_aligned :
    ∃ s', mapPages smallPhys 0x1000 0x5000 0x400000 0x2000 3 = some s' ∧ Covered s'.m 0x1000 0x5000 0x400000 0x2000 := by
  have returns : (mapPages smallPhys 0x1000 0x5000 0x400000 0x2000 3).isSome := by decide +kernel
  obtain ⟨s', mapped⟩ := Option.isSome_iff_exists.mp returns
  have region : Region 0x5000 0x400000 0x2000 3 :=
    ⟨by decide, by decide, by decide, by decide, by decide, by decide⟩
  have coverable : Coverable smallPhys.m 0x1000 0x5000 0x400000 0x2000 := Or.inr ⟨by decide, by decide, Or.inl (by decide)⟩
  exact ⟨s', mapped, (map_pages_covers_iff smallPhys_zeroPml4.tables (if_pos rfl) region mapped).mpr coverable⟩

/-- One page from the middle of a page on: its second half lies in the next one, which is not mapped. -/
theorem map_pages_leaves_tail : Region 0x5800 0x400800 0x1000 3 ∧
    ∃ s', mapPages smallPhys 0x1000 0x5800 0x400800 0x1000 3 = some s' ∧
      translate s'.m 0x1000 (0x400800 + 0x800) = none ∧ ¬Covered s'.m 0x1000 0x5800 0x400800 0x1000 := by
  refine ⟨⟨by decide, by decide, by decide, by decide, by decide, by decide⟩, ?_⟩
  have evaluated : (mapPages smallPhys 0x1000 0x5800 0x400800 0x1000 3).map
      (fun s' => translate s'.m 0x1000 (0x400800 + 0x800)) = some none := by decide +kernel
  obtain ⟨s', mapped, missed⟩ := Option.map_eq_some_iff.mp evaluated
  refine ⟨s', mapped, missed, ?_⟩
  intro covered
  rw [covered 0x800 (by decide)] at missed
  cases missed

end FishOS.Mem
