import FishOS.Heap.Search

/-!
# Loops that may not end

The functions of the allocator again, with a bound on the rounds of every loop. The result `none`
stands for a loop that is still running. On a heap that tiles each of them ends, once the bound is
large enough, with what the functions without a bound return.
-/

namespace FishOS.Heap

def sizeRequiredLoopWithin (size : Nat) : Nat → Nat → Option Nat
  | 0, _ => none
  | rounds + 1, actual_size =>
    if size > actual_size then sizeRequiredLoopWithin size rounds (actual_size * 2 % 2 ^ 64) else some actual_size

def sizeRequiredWithin (bound size : Nat) : Option Nat := sizeRequiredLoopWithin (align size) bound alignment

namespace Block

def nextWithin (bound : Nat) (m : Mem) (block : Nat) : Option Nat := do
  let actual_size ← sizeRequiredWithin bound (size m block)
  some (block + actual_size)

def splitLoopWithin (bound request : Nat) : Nat → Mem → Nat → Nat → Option (Mem × Nat × Nat)
  | 0, _, _, _ => none
  | rounds + 1, m, block, actual =>
    if request < actual then do
      let half := actual / 2
      let m := setSize m block half
      let block ← nextWithin bound m block
      let m := setSize m block half
      let m := setFree m block true
      splitLoopWithin bound request rounds m block half
    else some (m, block, actual)

def splitUntilWithin (bound : Nat) (m : Mem) (block request : Nat) : Option (Mem × Option Nat) :=
  if request = 0 then some (m, none)
  else do
    let actual ← sizeRequiredWithin bound (size m block)
    let (m, block, actual) ← splitLoopWithin bound request bound m block actual
    some (m, if request ≤ actual then some block else none)

end Block

namespace BuddyAlloc

def findBestLoopWithin (bound tail request : Nat) : Nat → Mem → Nat → Nat → Option Nat → Option (Mem × Option Nat)
  | 0, _, _, _, _ => none
  | rounds + 1, m, block, buddy, best =>
    if block < tail ∧ buddy < tail then
      if Block.isFree m block ∧ Block.isFree m buddy ∧ Block.size m block = Block.size m buddy then do
        let m := Block.setSize m block (Block.size m block * 2)
        let size := Block.size m block
        let best := prefer (request ≤ size && best.all (fun b => size ≤ Block.size m b)) block best
        let block ← Block.nextWithin bound m buddy
        let buddy ← (if block < tail then Block.nextWithin bound m block else some buddy)
        findBestLoopWithin bound tail request rounds m block buddy best
      else do
        let actual_best_size ← best.elim (some 0) (fun b => sizeRequiredWithin bound (Block.size m b))
        let size := Block.size m block
        let best := prefer
          (Block.isFree m block && request ≤ size && best.all (fun _ => size ≤ actual_best_size)) block best
        let buddy_size := Block.size m buddy
        let best := prefer
          (Block.isFree m buddy && request ≤ buddy_size && best.all (fun _ => buddy_size < actual_best_size))
          buddy best
        let actual_size ← sizeRequiredWithin bound size
        let actual_buddy_size ← sizeRequiredWithin bound buddy_size
        if actual_size ≤ actual_buddy_size then do
          let block ← Block.nextWithin bound m buddy
          let buddy ← (if block < tail then Block.nextWithin bound m block else some buddy)
          findBestLoopWithin bound tail request rounds m block buddy best
        else do
          let next ← Block.nextWithin bound m buddy
          findBestLoopWithin bound tail request rounds m buddy next best
    else some (m, best)

def findBestWithin (bound : Nat) (alloc : BuddyAlloc) (m : Mem) (request : Nat) : Option (Mem × Option Nat) := do
  let block := alloc.head
  let buddy ← Block.nextWithin bound m block
  if buddy = alloc.tail ∧ Block.isFree m block then Block.splitUntilWithin bound m block request
  else
    match ← findBestLoopWithin bound alloc.tail request bound m block buddy none with
    | (m, some best) => Block.splitUntilWithin bound m best request
    | (m, none) => some (m, none)

def coalescencePassWithin (bound tail : Nat) : Nat → Mem → Nat → Nat → Bool → Option (Mem × Bool)
  | 0, _, _, _, _ => none
  | rounds + 1, m, block, buddy, no_coalescence =>
    if block < tail ∧ buddy < tail then
      if Block.isFree m block ∧ Block.isFree m buddy ∧ Block.size m block = Block.size m buddy then do
        let m := Block.setSize m block (Block.size m block * 2)
        let block ← Block.nextWithin bound m block
        if block < tail then do
          let buddy ← Block.nextWithin bound m block
          coalescencePassWithin bound tail rounds m block buddy false
        else coalescencePassWithin bound tail rounds m block buddy no_coalescence
      else do
        let actual_size ← sizeRequiredWithin bound (Block.size m block)
        let actual_buddy_size ← sizeRequiredWithin bound (Block.size m buddy)
        if actual_size < actual_buddy_size then do
          let next ← Block.nextWithin bound m buddy
          coalescencePassWithin bound tail rounds m buddy next no_coalescence
        else do
          let block ← Block.nextWithin bound m buddy
          let buddy ← (if block < tail then Block.nextWithin bound m block else some buddy)
          coalescencePassWithin bound tail rounds m block buddy no_coalescence
    else some (m, no_coalescence)

def coalescenceLoopWithin (bound : Nat) (alloc : BuddyAlloc) : Nat → Mem → Option Mem
  | 0, _ => none
  | rounds + 1, m => do
    let buddy ← Block.nextWithin bound m alloc.head
    match ← coalescencePassWithin bound alloc.tail bound m alloc.head buddy true with
    | (m, true) => some m
    | (m, false) => coalescenceLoopWithin bound alloc rounds m

def coalescenceWithin (bound : Nat) (alloc : BuddyAlloc) (m : Mem) : Option Mem :=
  coalescenceLoopWithin bound alloc bound m

def searchWithin (bound : Nat) (alloc : BuddyAlloc) (m : Mem) (actual_size : Nat) : Option (Mem × Option Nat) := do
  match ← findBestWithin bound alloc m actual_size with
  | (m, some found) => some (m, some found)
  | (m, none) => do
    let m ← coalescenceWithin bound alloc m
    findBestWithin bound alloc m actual_size

def mallocWithin (bound : Nat) (alloc : BuddyAlloc) (m : Mem) (size : Nat) : Option (Mem × Option Nat) :=
  if size ≠ 0 then do
    let actual_size ← sizeRequiredWithin bound ((size + sizeofBlock) % 2 ^ 64)
    match ← searchWithin bound alloc m actual_size with
    | (m, some found) => some (claim m found size, some (Block.data found))
    | (m, none) => some (m, none)
  else some (m, none)

/-- `malloc` ends, with this result. -/
def Returns (alloc : BuddyAlloc) (m : Mem) (size : Nat) (result : Mem × Option Nat) : Prop :=
  ∃ enough, ∀ bound, enough ≤ bound → mallocWithin bound alloc m size = some result

end BuddyAlloc

variable {bound n : Nat}

theorem double_mod {j : Nat} (below : j < 63) : 2 ^ j * 2 % 2 ^ 64 = 2 ^ (j + 1) := by
  have small : 2 ^ (j + 1) ≤ 2 ^ 63 := Nat.pow_le_pow_right (by decide) below
  rw [← Nat.pow_succ, Nat.mod_eq_of_lt (by omega)]

theorem sizeRequiredLoopWithin_eq {size : Nat} (small : size ≤ 2 ^ 63) (rounds fuel j : Nat) (start : j ≤ 63)
    (enough : 63 < rounds + j) (room : 63 ≤ fuel + j) :
    sizeRequiredLoopWithin size rounds (2 ^ j) = some (sizeRequiredLoop size fuel (2 ^ j)) := by
  induction rounds generalizing fuel j with
  | zero => omega
  | succ rounds ih =>
    rw [sizeRequiredLoopWithin]
    by_cases above : size > 2 ^ j
    · have below : j < 63 := (Nat.pow_lt_pow_iff_right (by decide)).mp (Nat.lt_of_lt_of_le above small)
      obtain ⟨fuel, rfl⟩ : ∃ f, fuel = f + 1 := ⟨fuel - 1, by omega⟩
      rw [sizeRequiredLoop, if_pos above, if_pos above, double_mod below]
      exact ih fuel (j + 1) (by omega) (by omega) (by omega)
    · rw [if_neg above]
      cases fuel with
      | zero => rfl
      | succ fuel => rw [sizeRequiredLoop, if_neg above]

/-- The doubling ends for every size up to the largest power of two. -/
theorem sizeRequiredWithin_eq (small : n ≤ 2 ^ 63) (enough : 64 ≤ bound) :
    sizeRequiredWithin bound n = some (sizeRequired n) :=
  sizeRequiredLoopWithin_eq (align_le_max small) bound 64 4 (by decide) (by omega) (by decide)

/-- The size of a block that takes two equal blocks over spans exactly the two. -/
theorem next_merged {m : Mem} {block : Nat} (same : Block.size m block = n) (above : 9 ≤ n) (small : n ≤ 2 ^ 62) :
    Block.next (Block.setSize m block (n * 2)) block = Block.next m block + sizeRequired n := by
  have twice := sizeRequired_double above (show 2 * n ≤ 2 ^ 63 by omega)
  rw [Block.next, Block.next, size_setSize _ _ _ (by omega), same, Nat.mul_comm n 2, twice]
  omega

/-- `size_required` is the function of the size classes. -/
theorem sizeRequired_exact (small : n ≤ 2 ^ 63) :
    (∃ enough, ∀ bound, enough ≤ bound → sizeRequiredWithin bound n = some (sizeRequired n)) ∧
      IsLeast { c | n ≤ c ∧ ∃ k, c = 16 * 2 ^ k } (sizeRequired n) ∧
      sizeRequired (sizeRequired n) = sizeRequired n ∧
      (∀ i ≤ n, sizeRequired i ≤ sizeRequired n) ∧
      (9 ≤ n → n ≤ 2 ^ 62 → sizeRequired (2 * n) = 2 * sizeRequired n ∧
        ∀ m block, Block.size m block = n →
          Block.next (Block.setSize m block (n * 2)) block = Block.next m block + sizeRequired n) := by
  refine ⟨⟨64, fun bound enough => sizeRequiredWithin_eq small enough⟩, sizeRequired_isLeast small,
    sizeRequired_idem small, fun i le => sizeRequired_mono le small, ?_⟩
  intro above below
  exact ⟨sizeRequired_double above (by omega), fun m block same => next_merged same above below⟩

theorem sizeRequired_exact_nine :
    IsLeast { c | 9 ≤ c ∧ ∃ k, c = 16 * 2 ^ k } (sizeRequired 9) ∧ sizeRequired 18 = 2 * sizeRequired 9 := by
  obtain ⟨-, least, -, -, double⟩ := sizeRequired_exact (n := 9) (by decide)
  exact ⟨least, (double (by decide) (by decide)).1⟩

/-- Above it the doubling runs through all powers to zero, and stays there. -/
theorem sizeRequiredLoopWithin_spins {size : Nat} (large : 2 ^ 63 < size) (rounds : Nat) {actual : Nat}
    (passed : actual = 0 ∨ ∃ j ≤ 63, actual = 2 ^ j) : sizeRequiredLoopWithin size rounds actual = none := by
  induction rounds generalizing actual with
  | zero => rfl
  | succ rounds ih =>
    have above : size > actual := by
      rcases passed with rfl | ⟨j, le, rfl⟩
      · omega
      · exact Nat.lt_of_le_of_lt (Nat.pow_le_pow_right (by decide) le) large
    rw [sizeRequiredLoopWithin, if_pos above]
    apply ih
    rcases passed with rfl | ⟨j, le, rfl⟩
    · exact .inl rfl
    · by_cases last : j = 63
      · subst last
        exact .inl rfl
      · exact .inr ⟨j + 1, by omega, double_mod (by omega)⟩

namespace Block

theorem nextWithin_eq {m : Mem} {block : Nat} (small : size m block ≤ 2 ^ 63) (enough : 64 ≤ bound) :
    nextWithin bound m block = some (next m block) := by
  unfold nextWithin
  rw [sizeRequiredWithin_eq small enough]
  rfl

/-- The halving ends when the halves are no larger than the request, at the latest with zero. -/
theorem splitLoopWithin_eq {request : Nat} (enough : 64 ≤ bound) (rounds fuel : Nat)
    {m : Mem} {block actual : Nat} (small : actual ≤ 2 ^ 63) (left : actual < 2 ^ rounds) (left' : actual < 2 ^ fuel) :
    splitLoopWithin bound request (rounds + 1) m block actual = some (splitLoop request fuel m block actual) := by
  induction rounds generalizing fuel m block actual with
  | zero =>
    obtain rfl : actual = 0 := by simpa using left
    cases fuel with
    | zero => rfl
    | succ fuel => rw [splitLoopWithin, splitLoop, if_neg (Nat.not_lt_zero _), if_neg (Nat.not_lt_zero _)]
  | succ rounds ih =>
    rw [splitLoopWithin]
    by_cases more : request < actual
    · obtain ⟨fuel, rfl⟩ : ∃ f, fuel = f + 1 := ⟨fuel - 1, by cases fuel <;> omega⟩
      rw [Nat.pow_succ] at left left'
      have half : size (setSize m block (actual / 2)) block = actual / 2 := size_setSize _ _ _ (by omega)
      rw [if_pos more, splitLoop, if_pos more]
      dsimp only
      rw [nextWithin_eq (by rw [half]; omega) enough, Option.bind_eq_bind, Option.bind_some]
      exact ih fuel (by omega) (by omega) (by omega)
    · rw [if_neg more]
      cases fuel with
      | zero => rfl
      | succ fuel => rw [splitLoop, if_neg more]

theorem splitUntilWithin_eq {m : Mem} {block request : Nat} (small : size m block ≤ 2 ^ 63) (enough : 65 ≤ bound) :
    splitUntilWithin bound m block request = some (splitUntil m block request) := by
  unfold splitUntilWithin splitUntil
  by_cases zero : request = 0
  · rw [if_pos zero, if_pos zero]
  · obtain ⟨rounds, rfl⟩ : ∃ r, bound = r + 1 := ⟨bound - 1, by omega⟩
    have actual := sizeRequired_le_max small
    have room : sizeRequired (size m block) < 2 ^ 64 := by omega
    have room' : sizeRequired (size m block) < 2 ^ rounds :=
      Nat.lt_of_lt_of_le room (Nat.pow_le_pow_right (by decide) (by omega))
    rw [if_neg zero, if_neg zero, sizeRequiredWithin_eq small (by omega), Option.bind_eq_bind, Option.bind_some,
      splitLoopWithin_eq (by omega) rounds 64 actual room' room, Option.bind_eq_bind, Option.bind_some]

end Block

namespace BuddyAlloc

variable {tail request a buddy : Nat} {m : Mem} {blocks : List Blk} {b d : Blk} {rest : List Blk} {best : Option Nat}

theorem nextWithin_tiles (tiles : Tiles m a (b :: rest) tail) (ok : b.Ok) (enough : 64 ≤ bound) :
    Block.nextWithin bound m a = some (a + b.actual) := by
  rw [Block.nextWithin_eq (by rw [tiles.1]; exact ok.2) enough, tiles_cons_next tiles]

theorem nextWithin_before (tiles : Tiles m a blocks tail) (ok : AllOk blocks) (enough : 64 ≤ bound) (more : a < tail) :
    Block.nextWithin bound m a = some (Block.next m a) := by
  obtain ⟨b, rest, rfl⟩ := tiles.nonempty more
  rw [nextWithin_tiles tiles (allOk_cons.mp ok).1 enough, tiles_cons_next tiles]

theorem buddyWithin_eq (tiles : Tiles m a blocks tail) (ok : AllOk blocks) (enough : 64 ≤ bound) :
    (if a < tail then Block.nextWithin bound m a else some buddy) =
      some (if a < tail then Block.next m a else buddy) := by
  by_cases more : a < tail
  · rw [if_pos more, if_pos more, nextWithin_before tiles ok enough more]
  · rw [if_neg more, if_neg more]

theorem classesWithin_eq (tiles : Tiles m a (b :: d :: rest) tail) (okB : b.Ok) (okD : d.Ok) (enough : 64 ≤ bound) :
    sizeRequiredWithin bound (Block.size m a) = some b.actual ∧
      sizeRequiredWithin bound (Block.size m (a + b.actual)) = some d.actual ∧
      sizeRequired (Block.size m a) = b.actual ∧ sizeRequired (Block.size m (a + b.actual)) = d.actual := by
  rw [tiles.1, tiles.2.2.1]
  exact ⟨sizeRequiredWithin_eq okB.2 enough, sizeRequiredWithin_eq okD.2 enough, rfl, rfl⟩

/-- The candidate is a block that has been passed, or the block at `a`, and the class of its size exists. -/
def BestOk (m : Mem) (a : Nat) (best : Option Nat) : Prop :=
  ∀ x, best = some x → x = a ∨ (x + 16 ≤ a ∧ Block.size m x ≤ 2 ^ 63)

/-- After a merge the block at `a` has been passed, at its new size. -/
theorem BestOk.merge {fits : Bool} {next : Nat} (bestOk : BestOk m a best) (tiles : Tiles m a (b :: rest) tail)
    (okMerged : (merged b).Ok) (passed : a + 16 ≤ next) : BestOk (mergeStore m a) next (prefer fits a best) := by
  have here : Block.size (mergeStore m a) a ≤ 2 ^ 63 := size_mergeStore tiles okMerged ▸ okMerged.2
  intro x picked
  rcases prefer_eq_some picked with ⟨_, rfl⟩ | before
  · exact .inr ⟨passed, here⟩
  · rcases bestOk x before with rfl | ⟨below, small⟩
    · exact .inr ⟨passed, here⟩
    · have header : SameHeader m (mergeStore m a) x := fun y _ upper => setSize_other m (by omega)
      refine .inr ⟨by omega, ?_⟩
      rw [header.size]
      exact small

/-- A round that does not merge brings one of its two blocks along, or the old candidate. -/
theorem BestOk.round {fits fits' : Bool} {next : Nat} (bestOk : BestOk m a best) (tiles : Tiles m a (b :: d :: rest) tail)
    (okB : b.Ok) (okD : d.Ok) (passed : a + 16 ≤ next) (ahead : a + b.actual = next ∨ a + b.actual + 16 ≤ next) :
    BestOk m next (prefer fits' (a + b.actual) (prefer fits a best)) := by
  have left : Block.size m a ≤ 2 ^ 63 := tiles.1 ▸ okB.2
  have right : Block.size m (a + b.actual) ≤ 2 ^ 63 := tiles.2.2.1 ▸ okD.2
  intro x picked
  rcases prefer_eq_some picked with ⟨_, rfl⟩ | picked
  · exact ahead.imp id fun below => ⟨below, right⟩
  · rcases prefer_eq_some picked with ⟨_, rfl⟩ | before
    · exact .inr ⟨passed, left⟩
    · rcases bestOk x before with rfl | ⟨below, small⟩
      · exact .inr ⟨passed, left⟩
      · exact .inr ⟨by omega, small⟩

theorem BestOk.size (bestOk : BestOk m a best) (tiles : Tiles m a (b :: rest) tail) (okB : b.Ok) (enough : 64 ≤ bound) :
    best.elim (some 0) (fun x => sizeRequiredWithin bound (Block.size m x)) =
      some (best.elim 0 fun x => sizeRequired (Block.size m x)) := by
  cases best with
  | none => rfl
  | some x =>
    simp only [Option.elim_some]
    rcases bestOk x rfl with rfl | ⟨_, small⟩
    · rw [tiles.1]
      exact sizeRequiredWithin_eq okB.2 enough
    · exact sizeRequiredWithin_eq small enough

/-- The scan ends with the heap. -/
theorem findBestLoopWithin_eq (enough : 64 ≤ bound) (rounds fuel : Nat) (tiles : Tiles m a blocks tail) (ok : AllOk blocks)
    (room : extent blocks ≤ 2 ^ 63) (left : blocks.length < rounds) (left' : blocks.length ≤ fuel)
    (second : a < tail → buddy = Block.next m a) (bestOk : BestOk m a best) :
    findBestLoopWithin bound tail request rounds m a buddy best =
      some (findBestLoop tail request fuel m a buddy best) := by
  induction blocks using pairUp.induct generalizing rounds fuel m a buddy best with
  | case1 b d rest merge ih =>
    obtain ⟨rfl, first, last⟩ := tiles.pair ok second
    obtain ⟨okB, okD, okRest⟩ : b.Ok ∧ d.Ok ∧ AllOk rest := by simpa only [allOk_cons] using ok
    obtain ⟨okMerged, wide⟩ := merged_spec merge okB room
    have restTiles := tiles_mergeStore tiles okB (allOk_cons.mpr ⟨okD, okRest⟩)
    have wideB := okB.actual_ge
    simp only [extent_cons] at room
    simp only [List.length_cons] at left left'
    obtain ⟨rounds, rfl⟩ : ∃ r, rounds = r + 1 := ⟨rounds - 1, by omega⟩
    obtain ⟨fuel, rfl⟩ : ∃ f, fuel = f + 1 := ⟨fuel - 1, by omega⟩
    rw [findBestLoopWithin, if_pos ⟨first, last⟩, if_pos (tiles.mergeable_iff.mpr merge),
      findBestLoop, if_pos ⟨first, last⟩, if_pos (tiles.mergeable_iff.mpr merge)]
    simp only [nextWithin_tiles restTiles okD enough, tiles_cons_next restTiles, Option.bind_eq_bind, Option.bind_some,
      buddyWithin_eq restTiles.2.2 okRest enough]
    exact ih _ _ restTiles.2.2 okRest (by omega) (by omega) (by omega) (fun more => if_pos more)
      (bestOk.merge tiles okMerged (by omega))
  | case2 b d rest apart small ih =>
    obtain ⟨rfl, first, last⟩ := tiles.pair ok second
    obtain ⟨okB, okD, okRest⟩ : b.Ok ∧ d.Ok ∧ AllOk rest := by simpa only [allOk_cons] using ok
    have wideB := okB.actual_ge
    have wideD := okD.actual_ge
    simp only [extent_cons] at room
    simp only [List.length_cons] at left left'
    obtain ⟨rounds, rfl⟩ : ∃ r, rounds = r + 1 := ⟨rounds - 1, by omega⟩
    obtain ⟨fuel, rfl⟩ : ∃ f, fuel = f + 1 := ⟨fuel - 1, by omega⟩
    obtain ⟨ends, ends', class_block, class_buddy⟩ := classesWithin_eq tiles okB okD enough
    rw [findBestLoopWithin, if_pos ⟨first, last⟩, if_neg (mt tiles.mergeable_iff.mp apart),
      findBestLoop, if_pos ⟨first, last⟩, if_neg (mt tiles.mergeable_iff.mp apart)]
    simp only [bestOk.size tiles okB enough, ends, ends', class_block, class_buddy, Option.bind_eq_bind, Option.bind_some,
      if_pos small, nextWithin_tiles tiles.2.2 okD enough, tiles_cons_next tiles.2.2,
      buddyWithin_eq tiles.2.2.2.2 okRest enough]
    exact ih _ _ tiles.2.2.2.2 okRest (by omega) (by omega) (by omega) (fun more => if_pos more)
      (bestOk.round tiles okB okD (by omega) (.inr (by omega)))
  | case3 b d rest apart large ih =>
    obtain ⟨rfl, first, last⟩ := tiles.pair ok second
    obtain ⟨okB, okD, okRest⟩ : b.Ok ∧ d.Ok ∧ AllOk rest := by simpa only [allOk_cons] using ok
    have wideB := okB.actual_ge
    rw [extent_cons] at room
    rw [List.length_cons] at left left'
    obtain ⟨rounds, rfl⟩ : ∃ r, rounds = r + 1 := ⟨rounds - 1, by omega⟩
    obtain ⟨fuel, rfl⟩ : ∃ f, fuel = f + 1 := ⟨fuel - 1, by omega⟩
    obtain ⟨ends, ends', class_block, class_buddy⟩ := classesWithin_eq tiles okB okD enough
    rw [findBestLoopWithin, if_pos ⟨first, last⟩, if_neg (mt tiles.mergeable_iff.mp apart),
      findBestLoop, if_pos ⟨first, last⟩, if_neg (mt tiles.mergeable_iff.mp apart)]
    simp only [bestOk.size tiles okB enough, ends, ends', class_block, class_buddy, Option.bind_eq_bind, Option.bind_some,
      if_neg large, nextWithin_tiles tiles.2.2 okD enough, tiles_cons_next tiles.2.2]
    exact ih _ _ tiles.2.2 (allOk_cons.mpr ⟨okD, okRest⟩) (by omega) (by omega) (by omega)
      (fun _ => (tiles_cons_next tiles.2.2).symm) (bestOk.round tiles okB okD (by omega) (.inl rfl))
  | case4 blocks short =>
    have stop := pair_stop tiles second short
    obtain ⟨rounds, rfl⟩ : ∃ r, rounds = r + 1 := ⟨rounds - 1, by omega⟩
    rw [findBestLoopWithin, if_neg stop]
    cases fuel with
    | zero => rfl
    | succ fuel => rw [findBestLoop, if_neg stop]

theorem coalescencePassWithin_eq (enough : 64 ≤ bound) (rounds fuel : Nat) (no_coalescence : Bool)
    (tiles : Tiles m a blocks tail) (ok : AllOk blocks) (room : extent blocks ≤ 2 ^ 63) (left : blocks.length < rounds)
    (left' : blocks.length ≤ fuel) (second : a < tail → buddy = Block.next m a) :
    coalescencePassWithin bound tail rounds m a buddy no_coalescence =
      some (coalescencePass tail fuel m a buddy no_coalescence) := by
  induction blocks using mergePass.induct generalizing rounds fuel m a buddy no_coalescence with
  | case1 b d rest merge ih =>
    obtain ⟨rfl, first, last⟩ := tiles.pair ok second
    obtain ⟨okB, okD, okRest⟩ : b.Ok ∧ d.Ok ∧ AllOk rest := by simpa only [allOk_cons] using ok
    obtain ⟨okMerged, wide⟩ := merged_spec merge okB room
    have restTiles := tiles_mergeStore tiles okB (allOk_cons.mpr ⟨okD, okRest⟩)
    simp only [extent_cons] at room
    simp only [List.length_cons] at left left'
    obtain ⟨rounds, rfl⟩ : ∃ r, rounds = r + 1 := ⟨rounds - 1, by omega⟩
    obtain ⟨fuel, rfl⟩ : ∃ f, fuel = f + 1 := ⟨fuel - 1, by omega⟩
    have size := size_mergeStore tiles okMerged
    have next : Block.next (mergeStore m a) a = a + b.actual + d.actual := by
      rw [Block.next, size, Nat.add_assoc, ← wide]
      rfl
    have ends : Block.nextWithin bound (mergeStore m a) a = some (a + b.actual + d.actual) := by
      rw [Block.nextWithin_eq (size ▸ okMerged.2) enough, next]
    rw [coalescencePassWithin, if_pos ⟨first, last⟩, if_pos (tiles.mergeable_iff.mpr merge),
      coalescencePass, if_pos ⟨first, last⟩, if_pos (tiles.mergeable_iff.mpr merge)]
    simp only [ends, next, Option.bind_eq_bind, Option.bind_some]
    by_cases more : a + b.actual + d.actual < tail
    · rw [if_pos more, if_pos more, nextWithin_before restTiles.2.2 okRest enough more, Option.bind_some]
      exact ih _ _ false restTiles.2.2 okRest (by omega) (by omega) (by omega) (fun _ => rfl)
    · rw [if_neg more, if_neg more]
      exact ih _ _ no_coalescence restTiles.2.2 okRest (by omega) (by omega) (by omega) (fun lt => absurd lt more)
  | case2 b d rest apart small ih =>
    obtain ⟨rfl, first, last⟩ := tiles.pair ok second
    obtain ⟨okB, okD, okRest⟩ : b.Ok ∧ d.Ok ∧ AllOk rest := by simpa only [allOk_cons] using ok
    rw [extent_cons] at room
    rw [List.length_cons] at left left'
    obtain ⟨rounds, rfl⟩ : ∃ r, rounds = r + 1 := ⟨rounds - 1, by omega⟩
    obtain ⟨fuel, rfl⟩ : ∃ f, fuel = f + 1 := ⟨fuel - 1, by omega⟩
    obtain ⟨ends, ends', class_block, class_buddy⟩ := classesWithin_eq tiles okB okD enough
    rw [coalescencePassWithin, if_pos ⟨first, last⟩, if_neg (mt tiles.mergeable_iff.mp apart),
      coalescencePass, if_pos ⟨first, last⟩, if_neg (mt tiles.mergeable_iff.mp apart)]
    simp only [ends, ends', class_block, class_buddy, Option.bind_eq_bind, Option.bind_some, if_pos small,
      nextWithin_tiles tiles.2.2 okD enough, tiles_cons_next tiles.2.2]
    exact ih _ _ no_coalescence tiles.2.2 (allOk_cons.mpr ⟨okD, okRest⟩) (by omega) (by omega) (by omega)
      (fun _ => (tiles_cons_next tiles.2.2).symm)
  | case3 b d rest apart large ih =>
    obtain ⟨rfl, first, last⟩ := tiles.pair ok second
    obtain ⟨okB, okD, okRest⟩ : b.Ok ∧ d.Ok ∧ AllOk rest := by simpa only [allOk_cons] using ok
    simp only [extent_cons] at room
    simp only [List.length_cons] at left left'
    obtain ⟨rounds, rfl⟩ : ∃ r, rounds = r + 1 := ⟨rounds - 1, by omega⟩
    obtain ⟨fuel, rfl⟩ : ∃ f, fuel = f + 1 := ⟨fuel - 1, by omega⟩
    obtain ⟨ends, ends', class_block, class_buddy⟩ := classesWithin_eq tiles okB okD enough
    rw [coalescencePassWithin, if_pos ⟨first, last⟩, if_neg (mt tiles.mergeable_iff.mp apart),
      coalescencePass, if_pos ⟨first, last⟩, if_neg (mt tiles.mergeable_iff.mp apart)]
    simp only [ends, ends', class_block, class_buddy, Option.bind_eq_bind, Option.bind_some, if_neg large,
      nextWithin_tiles tiles.2.2 okD enough, tiles_cons_next tiles.2.2, buddyWithin_eq tiles.2.2.2.2 okRest enough]
    exact ih _ _ no_coalescence tiles.2.2.2.2 okRest (by omega) (by omega) (by omega) (fun more => if_pos more)
  | case4 blocks short =>
    have stop := pair_stop tiles second short
    obtain ⟨rounds, rfl⟩ : ∃ r, rounds = r + 1 := ⟨rounds - 1, by omega⟩
    rw [coalescencePassWithin, if_neg stop]
    cases fuel with
    | zero => rfl
    | succ fuel => rw [coalescencePass, if_neg stop]

variable {alloc : BuddyAlloc}

/-- The passes end, since each but the last one has merged two blocks. -/
theorem coalescenceLoopWithin_eq (enough : 64 ≤ bound) (long : alloc.tail - alloc.head < bound) (rounds fuel : Nat)
    (tiles : Tiles m alloc.head blocks alloc.tail) (ok : AllOk blocks) (room : extent blocks ≤ 2 ^ 63)
    (nonempty : alloc.head < alloc.tail) (left : blocks.length < rounds) (left' : blocks.length ≤ fuel) :
    coalescenceLoopWithin bound alloc rounds m = some (coalescenceLoop alloc fuel m) := by
  induction rounds generalizing fuel blocks m with
  | zero => omega
  | succ rounds ih =>
    have landed := tiles.end_eq
    have short := length_le_extent ok
    obtain ⟨b, rest, rfl⟩ := tiles.nonempty nonempty
    obtain ⟨fuel, rfl⟩ : ∃ f, fuel = f + 1 := ⟨fuel - 1, by rw [List.length_cons] at left'; omega⟩
    have pass := coalescencePassWithin_eq enough bound (alloc.tail - alloc.head) true tiles ok room (by omega) (by omega)
      (fun _ => rfl)
    obtain ⟨swept, last⟩ :=
      coalescencePass_spec (alloc.tail - alloc.head) true tiles ok room (by omega) (fun _ => rfl)
    have same := (mergePass_coarsens (b :: rest)).sameUse alloc.head ok room
    have shorter := (mergePass_length (b :: rest)).2
    rw [coalescenceLoopWithin, coalescenceLoop, nextWithin_tiles tiles (allOk_cons.mp ok).1 enough, Option.bind_eq_bind,
      Option.bind_some, ← tiles_cons_next tiles, pass, Option.bind_eq_bind, Option.bind_some]
    generalize coalescencePass alloc.tail (alloc.tail - alloc.head) m alloc.head
      (Block.next m alloc.head) true = run at swept last ⊢
    obtain ⟨m', done⟩ := run
    cases done with
    | true => rfl
    | false =>
      rw [Bool.true_and] at last
      exact ih fuel swept.tiles same.ok (same.extent_eq ▸ room) (by have := shorter last.symm; omega)
        (by have := shorter last.symm; omega)

theorem coalescenceWithin_eq (enough : 64 ≤ bound) (long : alloc.tail - alloc.head < bound)
    (tiles : Tiles m alloc.head blocks alloc.tail) (ok : AllOk blocks) (room : extent blocks ≤ 2 ^ 63)
    (nonempty : alloc.head < alloc.tail) : coalescenceWithin bound alloc m = some (coalescence alloc m) := by
  have landed := tiles.end_eq
  have short := length_le_extent ok
  exact coalescenceLoopWithin_eq enough long bound _ tiles ok room nonempty (by omega) (by omega)

theorem findBestWithin_eq (enough : 65 ≤ bound) (long : alloc.tail - alloc.head < bound)
    (tiles : Tiles m alloc.head blocks alloc.tail) (ok : AllOk blocks) (room : extent blocks ≤ 2 ^ 63)
    (nonempty : alloc.head < alloc.tail) : findBestWithin bound alloc m request = some (findBest alloc m request) := by
  have landed := tiles.end_eq
  have short := length_le_extent ok
  obtain ⟨b, rest, rfl⟩ := tiles.nonempty nonempty
  unfold findBestWithin findBest
  dsimp only
  rw [nextWithin_tiles tiles (allOk_cons.mp ok).1 (by omega), Option.bind_eq_bind, Option.bind_some,
    ← tiles_cons_next tiles]
  split
  · exact Block.splitUntilWithin_eq (by rw [tiles.1]; exact (allOk_cons.mp ok).1.2) enough
  · have start : Carried request alloc.head (b :: rest) none := fun _ same => nomatch same
    have noBest : BestOk m alloc.head none := fun _ same => nomatch same
    obtain ⟨swept, found⟩ :=
      findBestLoop_spec request (alloc.tail - alloc.head) none tiles ok room (by omega) (fun _ => rfl) start
    have same := (pairUp_coarsens (b :: rest)).sameUse alloc.head ok room
    rw [findBestLoopWithin_eq (by omega) bound (alloc.tail - alloc.head) tiles ok room (by omega) (by omega)
      (fun _ => rfl) noBest, Option.bind_eq_bind, Option.bind_some]
    have candidate := found.candidate
    generalize findBestLoop alloc.tail request (alloc.tail - alloc.head) m alloc.head (Block.next m alloc.head)
      none = run at swept candidate ⊢
    obtain ⟨m', best⟩ := run
    cases best with
    | none => rfl
    | some x =>
      -- the candidate is a block of the layout that the scan leaves
      rcases candidate x rfl with ⟨impossible, _⟩ | ⟨front, c, back, shape, rfl, _⟩
      · cases impossible
      · have okAll := same.ok
        have tilesAll := swept.tiles
        rw [shape] at okAll tilesAll
        have here := (tiles_append.mp tilesAll).2
        exact Block.splitUntilWithin_eq (by rw [here.1]; exact (allOk_cons.mp (allOk_append.mp okAll).2).1.2) enough

theorem searchWithin_eq {j : Nat} (enough : 65 ≤ bound) (long : alloc.tail - alloc.head < bound)
    (tiles : Tiles m alloc.head blocks alloc.tail) (ok : AllOk blocks) (room : extent blocks ≤ 2 ^ 63)
    (nonempty : alloc.head < alloc.tail) :
    searchWithin bound alloc m (2 ^ j) = some (search alloc m (2 ^ j)) := by
  have positive : 2 ^ j ≠ 0 := (Nat.pow_pos Nat.two_pos).ne'
  have first := findBest_scan alloc tiles ok room nonempty positive
  have same := (pairUp_coarsens blocks).sameUse alloc.head ok room
  unfold searchWithin search
  rw [findBestWithin_eq enough long tiles ok room nonempty, Option.bind_eq_bind, Option.bind_some]
  generalize findBest alloc m (2 ^ j) = run at first ⊢
  obtain ⟨m', found⟩ := run
  cases found with
  | some x => rfl
  | none =>
    split at first
    · have some := first.isSome same.ok
      cases some
    · have swept := coalescence_spec first.2.tiles same.ok (same.extent_eq ▸ room)
      have same' := (mergeAll_coarsens (pairUp blocks).length (pairUp blocks)).sameUse alloc.head same.ok
        (same.extent_eq ▸ room)
      dsimp only
      rw [coalescenceWithin_eq (by omega) long first.2.tiles same.ok (same.extent_eq ▸ room) nonempty,
        Option.bind_eq_bind, Option.bind_some]
      exact findBestWithin_eq enough long swept.tiles same'.ok (same'.extent_eq ▸ same.extent_eq ▸ room) nonempty

end BuddyAlloc

end FishOS.Heap
