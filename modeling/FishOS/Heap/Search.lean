import FishOS.Heap.Refine

/-!
# Searching

`splitUntil` halves a free block until it has the requested class, and `search` is the
scan, `coalescence` and the second scan of `malloc` and `realloc`. `searchHits` says from
the layout alone whether a search succeeds.
-/

namespace FishOS.Heap

theorem inFree_of_free {a x : Nat} {blocks : List Blk} (free : ∀ b ∈ blocks, b.free = true) :
    InFree a blocks x ↔ a ≤ x ∧ x < a + extent blocks := by
  induction blocks generalizing a with
  | nil => exact ⟨False.elim, fun h => by rw [extent_nil] at h; omega⟩
  | cons b rest ih =>
    rw [List.forall_mem_cons] at free
    rw [InFree, ih free.2, extent_cons]
    simp only [free.1, true_and]
    omega

theorem SameUse.replace {a : Nat} (front mid mid' back : List Blk) (ok : AllOk (front ++ mid ++ back))
    (ok' : AllOk mid') (free : ∀ b ∈ mid, b.free = true) (free' : ∀ b ∈ mid', b.free = true)
    (same : extent mid' = extent mid) (exact : Exact mid → Exact mid') :
    SameUse a (front ++ mid ++ back) (front ++ mid' ++ back) := by
  simp only [allOk_append] at ok
  refine ⟨?_, ?_, ?_, ?_, ?_⟩
  · simp only [allOk_append]
    exact ⟨⟨ok.1.1, ok'⟩, ok.2⟩
  · simp only [extent_append, same]
  · simp only [usedAt_append, usedAt_of_free free, usedAt_of_free free', extent_append, same]
  · intro x
    simp only [inFree_append, inFree_of_free free, inFree_of_free free', extent_append, same]
  · simp only [exact_append]
    exact fun old => ⟨⟨old.1.1, exact old.1.2⟩, old.2⟩

/-! ### Splitting -/

theorem pow_actual {i : Nat} (floor : 5 ≤ i) (ceiling : i ≤ 63) (free : Bool) :
    Blk.Ok ⟨2 ^ i, free⟩ ∧ Blk.actual ⟨2 ^ i, free⟩ = 2 ^ i := by
  have low : 2 ^ 5 ≤ 2 ^ i := Nat.pow_le_pow_right Nat.two_pos floor
  have high : 2 ^ i ≤ 2 ^ 63 := Nat.pow_le_pow_right Nat.two_pos ceiling
  exact ⟨⟨by simp only; omega, high⟩, sizeRequired_pow (by omega) ceiling⟩

/-- The halves that `split_until` leaves to the left of its result. -/
def splitParts (request : Nat) : Nat → Nat → List Blk
  | 0, _ => []
  | fuel + 1, actual => if request < actual then ⟨actual / 2, true⟩ :: splitParts request fuel (actual / 2) else []

def splitLast (request : Nat) (b : Blk) : Blk := if request < b.actual then ⟨request, true⟩ else b

theorem splitParts_free {request fuel actual : Nat} : ∀ b ∈ splitParts request fuel actual, b.free = true := by
  induction fuel generalizing actual with
  | zero => simp [splitParts]
  | succ fuel ih =>
    rw [splitParts]
    split
    · rw [List.forall_mem_cons]
      exact ⟨rfl, ih⟩
    · simp

theorem half_pow (i : Nat) : 2 ^ (i + 1) / 2 = 2 ^ i := by rw [Nat.pow_succ, Nat.mul_div_cancel _ Nat.two_pos]

theorem splitParts_ok (fuel : Nat) {j k : Nat} (floor : 5 ≤ j) (le : j ≤ k) (ceiling : k ≤ 63)
    (enough : k ≤ j + fuel) :
    AllOk (splitParts (2 ^ j) fuel (2 ^ k)) ∧ Exact (splitParts (2 ^ j) fuel (2 ^ k)) ∧
      extent (splitParts (2 ^ j) fuel (2 ^ k)) + 2 ^ j = 2 ^ k := by
  induction fuel generalizing k with
  | zero =>
    obtain rfl : k = j := by omega
    exact ⟨by simp [AllOk, splitParts], by simp [Exact, splitParts], by simp [splitParts]⟩
  | succ fuel ih =>
    rw [splitParts]
    split
    · rename_i more
      have below : j < k := (Nat.pow_lt_pow_iff_right (by decide)).mp more
      obtain ⟨i, rfl⟩ : ∃ i, k = i + 1 := ⟨k - 1, by omega⟩
      obtain ⟨ok, exact, sum⟩ := ih (k := i) (by omega) (by omega) (by omega)
      obtain ⟨okHalf, half⟩ := pow_actual (i := i) (by omega) (by omega) true
      rw [half_pow]
      refine ⟨allOk_cons.mpr ⟨okHalf, ok⟩, exact_cons.mpr ⟨fun _ => half, exact⟩, ?_⟩
      rw [extent_cons, half, Nat.pow_succ]
      omega
    · rename_i done
      have same : k = j := by
        have : ¬j < k := fun lt => done (Nat.pow_lt_pow_right (by decide) lt)
        omega
      subst same
      exact ⟨by simp [AllOk], by simp [Exact], by simp⟩

/-- The header stores of one round of `split_until`. -/
abbrev halve (m : Mem) (x half : Nat) : Mem :=
  Block.setFree (Block.setSize (Block.setSize m x half) (x + half) half) (x + half) true

theorem halve_other (m : Mem) {x half y : Nat} (apart : y < x ∨ x + 8 ≤ y)
    (apart' : y < x + half ∨ x + half + 9 ≤ y) : halve m x half y = m y := by
  rw [halve, setFree_other _ (by omega), setSize_other _ (by omega), setSize_other _ apart]

/-- The left half keeps the flag of the block, the right half gets a new header. -/
theorem halve_swept {i x tail : Nat} {b : Blk} {back : List Blk} {m : Mem} (floor : 5 ≤ i)
    (ceiling : i ≤ 62) (wide : b.actual = 2 ^ (i + 1)) (tiles : Tiles m x (b :: back) tail)
    (ok : AllOk (b :: back)) (free : b.free = true) :
    Swept x tail (b :: back) (⟨2 ^ i, true⟩ :: ⟨2 ^ i, true⟩ :: back) m (halve m x (2 ^ i)) := by
  obtain ⟨okHalf, half⟩ := pow_actual (i := i) floor (by omega) true
  have large := okHalf.actual_ge
  have small : 2 ^ i < 2 ^ 64 := Nat.pow_lt_pow_right (by decide) (by omega)
  have twice : b.actual = 2 ^ i + 2 ^ i := by rw [wide, Nat.pow_succ, Nat.mul_two]
  rw [half] at large
  have left : SameHeader (Block.setSize m x (2 ^ i)) (halve m x (2 ^ i)) x := by
    intro y lower upper
    rw [halve, setFree_other _ (by omega), setSize_other _ (by omega)]
  refine ⟨⟨left.size.trans (size_setSize _ _ _ small), ?_, ?_, ?_, ?_⟩, ?_⟩
  · rw [left.isFree, isFree_setSize, tiles.2.1, free]
  · rw [half, size_setFree, size_setSize _ _ _ small]
  · rw [half, isFree_setFree]
  · have rest := tiles.2.2
    rw [half, Nat.add_assoc, ← twice]
    apply rest.frame (allOk_cons.mp ok).2
    intro y lower _
    exact halve_other m (by omega) (by omega)
  · intro y outside
    have apart : ¬(x ≤ y ∧ y < x + b.actual) := fun inside => outside (Or.inl ⟨free, inside⟩)
    exact halve_other m (by omega) (by omega)

theorem halve_sameUse {i x : Nat} {b : Blk} {back : List Blk} (floor : 5 ≤ i) (ceiling : i ≤ 62)
    (wide : b.actual = 2 ^ (i + 1)) (ok : AllOk (b :: back)) (free : b.free = true) :
    SameUse x (b :: back) (⟨2 ^ i, true⟩ :: ⟨2 ^ i, true⟩ :: back) := by
  obtain ⟨okHalf, half⟩ := pow_actual (i := i) floor (by omega) true
  apply SameUse.replace [] [b] [⟨2 ^ i, true⟩, ⟨2 ^ i, true⟩] back ok
  · simp [AllOk, okHalf]
  · simp [free]
  · simp
  · simp only [extent_cons, extent_nil, half, wide, Nat.pow_succ]
    omega
  · simp [Exact, half]

theorem splitLoop_spec (fuel : Nat) {j k x tail : Nat} {b : Blk} {back : List Blk} {m : Mem} (floor : 5 ≤ j)
    (le : j ≤ k) (ceiling : k ≤ 63) (enough : k ≤ j + fuel) (class_eq : b.actual = 2 ^ k)
    (tiles : Tiles m x (b :: back) tail) (ok : AllOk (b :: back)) (free : b.free = true) :
    ∃ m' y, Block.splitLoop (2 ^ j) fuel m x (2 ^ k) = (m', y, 2 ^ j) ∧ y + 2 ^ j = x + 2 ^ k ∧
      Swept x tail (b :: back) (splitParts (2 ^ j) fuel (2 ^ k) ++ splitLast (2 ^ j) b :: back) m m' := by
  induction fuel generalizing k x b m with
  | zero =>
    obtain rfl : k = j := by omega
    refine ⟨m, x, rfl, rfl, ?_⟩
    rw [splitLast, if_neg (by omega)]
    exact .refl tiles
  | succ fuel ih =>
    by_cases below : j < k
    · obtain ⟨i, rfl⟩ : ∃ i, k = i + 1 := ⟨k - 1, by omega⟩
      have more : 2 ^ j < 2 ^ (i + 1) := Nat.pow_lt_pow_right (by decide) below
      have twice : 2 ^ (i + 1) = 2 ^ i + 2 ^ i := by rw [Nat.pow_succ, Nat.mul_two]
      obtain ⟨okHalf, half⟩ := pow_actual (i := i) (by omega) (by omega) true
      have small : 2 ^ i < 2 ^ 64 := Nat.pow_lt_pow_right (by decide) (by omega)
      have halved := halve_swept (by omega) (by omega) class_eq tiles ok free
      have same := halve_sameUse (x := x) (by omega) (by omega) class_eq ok free
      have right := halved.tiles.2.2
      rw [half] at right
      obtain ⟨m', y, run, position, swept⟩ := ih (k := i) (by omega) (by omega) (by omega) half right
        (allOk_cons.mp same.ok).2 rfl
      have step : Block.next (Block.setSize m x (2 ^ i)) x = x + 2 ^ i := by
        rw [Block.next, size_setSize _ _ _ small, sizeRequired_pow (by omega) (by omega)]
      have last : splitLast (2 ^ j) b = splitLast (2 ^ j) ⟨2 ^ i, true⟩ := by
        rw [splitLast, splitLast, class_eq, half, if_pos more]
        split
        · rfl
        · rename_i done
          have : ¬j < i := fun lt => done (Nat.pow_lt_pow_right (by decide) lt)
          rw [show i = j by omega]
      refine ⟨m', y, ?_, by omega, ?_⟩
      · rw [Block.splitLoop, if_pos more, half_pow]
        simp only [step]
        exact run
      · rw [splitParts, if_pos more, half_pow, last]
        apply halved.trans same
        apply Swept.keep halved.tiles okHalf
        rw [half]
        exact swept
    · obtain rfl : k = j := by omega
      refine ⟨m, x, ?_, rfl, ?_⟩
      · rw [Block.splitLoop, if_neg (by omega)]
      · rw [splitParts, if_neg (by omega), splitLast, if_neg (by omega)]
        exact .refl tiles

/-- `c` is what the halving of a free block of `blocks` leaves between `front` and `back`. -/
def Carves (request : Nat) (blocks front : List Blk) (c : Blk) (back : List Blk) : Prop :=
  ∃ before b, blocks = before ++ b :: back ∧ b.free = true ∧ request ≤ b.actual ∧
    front = before ++ splitParts request 64 b.actual ∧ c = splitLast request b

/-- A search of a heap that tiles as `blocks` has halved a block of the layout `scanned`. -/
def Hit (request a tail : Nat) (blocks scanned : List Blk) (m : Mem) (result : Mem × Option Nat) : Prop :=
  ∃ front c back, result.2 = some (a + extent front) ∧ c.free = true ∧ c.actual = request ∧
    Swept a tail blocks (front ++ c :: back) m result.1 ∧ SameUse a blocks (front ++ c :: back) ∧
    Carves request scanned front c back

theorem splitUntil_hit (front back : List Blk) {j a tail : Nat} {b : Blk} {m : Mem} (floor : 5 ≤ j)
    (tiles : Tiles m a (front ++ b :: back) tail) (ok : AllOk (front ++ b :: back)) (free : b.free = true)
    (enough : 2 ^ j ≤ b.actual) :
    Hit (2 ^ j) a tail (front ++ b :: back) (front ++ b :: back) m
      (Block.splitUntil m (a + extent front) (2 ^ j)) := by
  obtain ⟨okFront, okBack⟩ := allOk_append.mp ok
  obtain ⟨k, _, ceiling, class_eq⟩ := (allOk_cons.mp okBack).1.actual_class
  have le : j ≤ k := (Nat.pow_le_pow_iff_right (by decide)).mp (class_eq ▸ enough)
  have here := (tiles_append.mp tiles).2
  obtain ⟨m', y, run, position, swept⟩ := splitLoop_spec 64 floor le ceiling (by omega) class_eq here
    okBack free
  obtain ⟨okParts, exactParts, sum⟩ := splitParts_ok 64 floor le ceiling (by omega)
  obtain ⟨okLast, wideLast, freeLast, exactLast⟩ :
      (splitLast (2 ^ j) b).Ok ∧ (splitLast (2 ^ j) b).actual = 2 ^ j ∧ (splitLast (2 ^ j) b).free = true ∧
        (Exact [b] → Exact [splitLast (2 ^ j) b]) := by
    rw [splitLast]
    split
    · obtain ⟨okPow, wide⟩ := pow_actual floor (by omega) true
      exact ⟨okPow, wide, rfl, fun _ => by simpa [Exact] using wide⟩
    · exact ⟨(allOk_cons.mp okBack).1, by omega, free, id⟩
  refine ⟨front ++ splitParts (2 ^ j) 64 (2 ^ k), splitLast (2 ^ j) b, back, ?_, freeLast, wideLast, ?_, ?_,
    front, b, rfl, free, enough, by rw [class_eq], rfl⟩
  · have size : Block.size m (a + extent front) = b.size := here.1
    rw [Block.splitUntil, if_neg (Nat.pow_pos Nat.two_pos).ne', size,
      show sizeRequired b.size = 2 ^ k from class_eq, run, extent_append]
    simp only [Nat.le_refl, if_true]
    apply congrArg some
    omega
  · rw [Block.splitUntil, if_neg (Nat.pow_pos Nat.two_pos).ne',
      show sizeRequired (Block.size m (a + extent front)) = 2 ^ k from by rw [here.1]; exact class_eq, run,
      List.append_assoc]
    exact swept.under tiles okFront
  · have same := SameUse.replace (a := a) front [b] (splitParts (2 ^ j) 64 (2 ^ k) ++ [splitLast (2 ^ j) b]) back
      (by simpa using ok)
      (allOk_append.mpr ⟨okParts, by simpa [AllOk] using okLast⟩) (by simpa using free)
      (by
        intro c member
        rcases List.mem_append.mp member with part | last
        · exact splitParts_free c part
        · exact List.mem_singleton.mp last ▸ freeLast)
      (by simp only [extent_append, extent_cons, extent_nil, wideLast, class_eq]; omega)
      fun exact => exact_append.mpr ⟨exactParts, exactLast exact⟩
    simpa using same

theorem splitUntil_miss {request x : Nat} {b : Blk} {m : Mem} (positive : request ≠ 0)
    (size : Block.size m x = b.size) (small : ¬request ≤ b.actual) : Block.splitUntil m x request = (m, none) := by
  have stop : ¬request < sizeRequired b.size := fun lt => small (Nat.le_of_lt lt)
  have exit : Block.splitLoop request 64 m x (sizeRequired b.size) = (m, x, sizeRequired b.size) := by
    rw [Block.splitLoop, if_neg stop]
  rw [Block.splitUntil, if_neg positive, size, exit]
  exact congrArg (Prod.mk m) (if_neg small)

theorem splitLoop_actual (fuel : Nat) {j k x : Nat} {m : Mem} (le : j ≤ k) (enough : k ≤ j + fuel) :
    (Block.splitLoop (2 ^ j) fuel m x (2 ^ k)).2.2 = 2 ^ j := by
  induction fuel generalizing k x m with
  | zero =>
    obtain rfl : k = j := by omega
    rfl
  | succ fuel ih =>
    rw [Block.splitLoop]
    split
    · rename_i more
      have below : j < k := (Nat.pow_lt_pow_iff_right (by decide)).mp more
      obtain ⟨i, rfl⟩ : ∃ i, k = i + 1 := ⟨k - 1, by omega⟩
      rw [half_pow]
      exact ih (by omega) (by omega)
    · rename_i done
      have same : k = j := by
        have : ¬j < k := fun lt => done (Nat.pow_lt_pow_right (by decide) lt)
        omega
      rw [same]

/-- A block that is large enough is never given up, down to halves that are smaller than a header. -/
theorem splitUntil_isSome {j x : Nat} {b : Blk} {m : Mem} (size : Block.size m x = b.size) (ok : b.Ok)
    (enough : 2 ^ j ≤ b.actual) : (Block.splitUntil m x (2 ^ j)).2.isSome = true := by
  obtain ⟨k, _, ceiling, class_eq⟩ := ok.actual_class
  have le : j ≤ k := (Nat.pow_le_pow_iff_right (by decide)).mp (class_eq ▸ enough)
  have actual := splitLoop_actual 64 (x := x) (m := m) le (by omega)
  rw [Block.splitUntil, if_neg (Nat.pow_pos Nat.two_pos).ne', size, show sizeRequired b.size = 2 ^ k from class_eq]
  generalize Block.splitLoop (2 ^ j) 64 m x (2 ^ k) = run at actual
  obtain ⟨m', y, last⟩ := run
  obtain rfl : last = 2 ^ j := actual
  simp

/-! ### Searching -/

/-- `find_best` succeeds. A heap of one free block is split at once, whatever its size field. -/
def hits (request : Nat) : List Blk → Bool
  | [b] => b.free && decide (request ≤ b.actual)
  | blocks => sees request blocks

def coalesced (blocks : List Blk) : List Blk := mergeAll (pairUp blocks).length (pairUp blocks)

def searchHits (request : Nat) (blocks : List Blk) : Bool :=
  hits request blocks || hits request (coalesced blocks)

theorem coalesced_spec {blocks : List Blk} (a : Nat) (ok : AllOk blocks) (room : extent blocks ≤ 2 ^ 63) :
    Coarsens blocks (coalesced blocks) ∧ SameUse a blocks (coalesced blocks) := by
  have coarse : Coarsens blocks (coalesced blocks) := .trans (pairUp_coarsens blocks) (mergeAll_coarsens _ _)
  exact ⟨coarse, coarse.sameUse a ok room⟩

/-- The layout after the merges of a search. -/
def settled (request : Nat) (blocks : List Blk) : List Blk :=
  if hits request blocks then pairUp blocks else pairUp (coalesced blocks)

/-- A search has picked a free block of the layout that its merges leave, and halves it. -/
def Picks (request a tail : Nat) (blocks scanned : List Blk) (m : Mem) (result : Mem × Option Nat) : Prop :=
  ∃ front b back m₁, scanned = front ++ b :: back ∧ b.free = true ∧ request ≤ b.actual ∧
    Swept a tail blocks scanned m m₁ ∧ result = Block.splitUntil m₁ (a + extent front) request

theorem Picks.isSome {j a tail : Nat} {blocks scanned : List Blk} {m : Mem} {result : Mem × Option Nat}
    (picks : Picks (2 ^ j) a tail blocks scanned m result) (ok : AllOk scanned) : result.2.isSome = true := by
  obtain ⟨front, b, back, m₁, rfl, _, enough, swept, rfl⟩ := picks
  have here := (tiles_append.mp swept.tiles).2
  exact splitUntil_isSome here.1 (allOk_cons.mp (allOk_append.mp ok).2).1 enough

theorem Picks.hit {j a tail : Nat} {blocks scanned : List Blk} {m : Mem} {result : Mem × Option Nat}
    (picks : Picks (2 ^ j) a tail blocks scanned m result) (same : SameUse a blocks scanned) (floor : 5 ≤ j) :
    Hit (2 ^ j) a tail blocks scanned m result := by
  obtain ⟨front, b, back, m₁, rfl, free, enough, swept, rfl⟩ := picks
  obtain ⟨front', c, back', position, free, wide, swept', same', carved⟩ :=
    splitUntil_hit front back floor swept.tiles same.ok free enough
  exact ⟨front', c, back', position, free, wide, swept.trans same swept', same.trans same', carved⟩

namespace BuddyAlloc

variable (alloc : BuddyAlloc) {blocks : List Blk} {m : Mem} {j request : Nat}

theorem findBest_scan (tiles : Tiles m alloc.head blocks alloc.tail) (ok : AllOk blocks)
    (room : extent blocks ≤ 2 ^ 63) (nonempty : alloc.head < alloc.tail) (positive : request ≠ 0) :
    if hits request blocks then Picks request alloc.head alloc.tail blocks (pairUp blocks) m (findBest alloc m request)
    else (findBest alloc m request).2 = none ∧
      Swept alloc.head alloc.tail blocks (pairUp blocks) m (findBest alloc m request).1 := by
  by_cases whole : Block.next m alloc.head = alloc.tail ∧ Block.isFree m alloc.head = true
  · rw [findBest]
    simp only [if_pos whole]
    obtain ⟨b, rfl⟩ : ∃ b, blocks = [b] := by
      match blocks with
      | [] => exact absurd tiles (by change alloc.head ≠ alloc.tail; omega)
      | [b] => exact ⟨b, rfl⟩
      | b :: d :: rest =>
        have landed := tiles.end_eq
        have := tiles_cons_next tiles
        have := (allOk_cons.mp (allOk_cons.mp ok).2).1.actual_ge
        simp only [extent_cons] at landed
        omega
    have free : b.free = true := tiles.2.1.symm.trans whole.2
    split
    · rename_i hit
      simp only [hits, free, Bool.true_and, decide_eq_true_eq] at hit
      exact ⟨[], b, [], m, rfl, free, hit, .refl tiles, rfl⟩
    · rename_i miss
      simp only [hits, free, Bool.true_and, decide_eq_true_eq] at miss
      rw [splitUntil_miss positive tiles.1 miss]
      exact ⟨rfl, .refl tiles⟩
  · have enough := length_le_extent ok
    have landed := tiles.end_eq
    have start : Carried request alloc.head blocks none := fun _ same => nomatch same
    obtain ⟨swept, found⟩ :=
      findBestLoop_spec request (alloc.tail - alloc.head) none tiles ok room (by omega) (fun _ => rfl) start
    have same := (pairUp_coarsens blocks).sameUse alloc.head ok room
    have hit_iff : hits request blocks = sees request blocks := by
      match blocks with
      | [] => rfl
      | [b] =>
        have used : b.free = false := by
          rw [← tiles.2.1, Bool.eq_false_iff]
          exact fun free => whole ⟨by rw [tiles_cons_next tiles]; simpa using landed, free⟩
        simp [hits, sees, used]
      | b :: d :: rest => rfl
    rw [findBest]
    simp only [if_neg whole, hit_iff]
    have isSome := found.isSome
    have candidate := found.candidate
    generalize findBestLoop alloc.tail request (alloc.tail - alloc.head) m alloc.head (Block.next m alloc.head)
      none = run at swept isSome candidate ⊢
    obtain ⟨m', best⟩ := run
    cases best with
    | none =>
      rw [if_neg (by simpa using isSome.symm)]
      exact ⟨rfl, swept⟩
    | some x =>
      rw [if_pos (by simpa using isSome.symm)]
      rcases candidate x rfl with ⟨impossible, _⟩ | ⟨front, b, back, shape, rfl, fit⟩
      · cases impossible
      · rw [Blk.fits_iff] at fit
        have ok' := same.ok
        rw [shape] at ok'
        have okB := (allOk_cons.mp (allOk_append.mp ok').2).1
        exact ⟨front, b, back, m', shape, fit.1, fit.2.trans okB.size_le, swept, rfl⟩

/-- A search for a power of two picks a block exactly when the layout says so. -/
theorem search_scan (tiles : Tiles m alloc.head blocks alloc.tail) (ok : AllOk blocks)
    (room : extent blocks ≤ 2 ^ 63) (nonempty : alloc.head < alloc.tail) :
    SameUse alloc.head blocks (settled (2 ^ j) blocks) ∧
      if searchHits (2 ^ j) blocks then
        Picks (2 ^ j) alloc.head alloc.tail blocks (settled (2 ^ j) blocks) m (search alloc m (2 ^ j))
      else (search alloc m (2 ^ j)).2 = none ∧
        Swept alloc.head alloc.tail blocks (settled (2 ^ j) blocks) m (search alloc m (2 ^ j)).1 := by
  have positive : 2 ^ j ≠ 0 := (Nat.pow_pos Nat.two_pos).ne'
  have first := findBest_scan alloc tiles ok room nonempty positive
  have same₁ := (pairUp_coarsens blocks).sameUse alloc.head ok room
  rw [search]
  generalize findBest alloc m (2 ^ j) = run at first ⊢
  obtain ⟨m₁, found⟩ := run
  by_cases hit : hits (2 ^ j) blocks = true
  · rw [if_pos hit] at first
    obtain ⟨x, rfl⟩ := Option.isSome_iff_exists.mp (first.isSome same₁.ok)
    rw [if_pos (by simp [searchHits, hit]), settled, if_pos hit]
    exact ⟨same₁, first⟩
  · rw [if_neg hit] at first
    obtain ⟨none_eq, swept₁⟩ := first
    obtain rfl : found = none := none_eq
    have swept₂ := coalescence_spec swept₁.tiles same₁.ok (same₁.extent_eq ▸ room)
    have same₂ := same₁.trans
      ((mergeAll_coarsens (pairUp blocks).length (pairUp blocks)).sameUse alloc.head same₁.ok (same₁.extent_eq ▸ room))
    have swept := swept₁.trans same₁ swept₂
    have second := findBest_scan alloc swept₂.tiles same₂.ok (same₂.extent_eq ▸ room) nonempty positive
    have same₃ := (pairUp_coarsens _).sameUse alloc.head same₂.ok (same₂.extent_eq ▸ room)
    rw [settled, if_neg hit]
    simp only [searchHits, hit, Bool.false_or, coalesced]
    refine ⟨same₂.trans same₃, ?_⟩
    split
    · rename_i again
      rw [if_pos again] at second
      obtain ⟨front, b, back, m₃, shape, free, wide, swept₃, split⟩ := second
      exact ⟨front, b, back, m₃, shape, free, wide, swept.trans same₂ swept₃, split⟩
    · rename_i again
      rw [if_neg again] at second
      exact ⟨second.1, swept.trans same₂ second.2⟩

/-- A search finds a block exactly when the layout says so, and keeps every used block. -/
theorem search_spec (tiles : Tiles m alloc.head blocks alloc.tail) (ok : AllOk blocks)
    (room : extent blocks ≤ 2 ^ 63) (nonempty : alloc.head < alloc.tail) (floor : 5 ≤ j) :
    if searchHits (2 ^ j) blocks then
      Hit (2 ^ j) alloc.head alloc.tail blocks (settled (2 ^ j) blocks) m (search alloc m (2 ^ j))
    else (search alloc m (2 ^ j)).2 = none ∧
      Swept alloc.head alloc.tail blocks (settled (2 ^ j) blocks) m (search alloc m (2 ^ j)).1 ∧
        SameUse alloc.head blocks (settled (2 ^ j) blocks) := by
  obtain ⟨same, scan⟩ := search_scan (j := j) alloc tiles ok room nonempty
  split at scan
  · rename_i hit
    rw [if_pos hit]
    exact scan.hit same floor
  · rename_i miss
    rw [if_neg miss]
    exact ⟨scan.1, scan.2, same⟩

end BuddyAlloc

end FishOS.Heap
