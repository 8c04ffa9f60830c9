import FishOS.Heap.Scan

/-!
# The loops refine the scans

On a heap that tiles, `findBestLoop` and `coalescencePass` leave the layouts `pairUp` and
`mergePass` behind and write nothing outside the free blocks.
-/

namespace FishOS.Heap

/-! ### Header stores -/

theorem size_setSize (m : Mem) (block value : Nat) (small : value < 2 ^ 64) :
    Block.size (Block.setSize m block value) block = value := by
  rw [Block.size, Block.setSize, Mem.read64_write64, Nat.mod_eq_of_lt small]

theorem setSize_other (m : Mem) {block value x : Nat} (apart : x < block ∨ block + 8 ≤ x) :
    Block.setSize m block value x = m x := Mem.write64_other m apart

theorem isFree_setSize (m : Mem) (block value : Nat) :
    Block.isFree (Block.setSize m block value) block = Block.isFree m block := by
  rw [Block.isFree, Block.isFree, setSize_other m (Or.inr (Nat.le_refl _))]

theorem isFree_setFree (m : Mem) (block : Nat) (value : Bool) :
    Block.isFree (Block.setFree m block value) block = value := by
  rw [Block.isFree, Block.setFree, Mem.write8_same]
  cases value <;> rfl

theorem size_setFree (m : Mem) (block : Nat) (value : Bool) :
    Block.size (Block.setFree m block value) block = Block.size m block :=
  Mem.read64_write8_other m (Or.inr (Nat.le_refl _))

theorem setFree_other (m : Mem) {block x : Nat} {value : Bool} (apart : x ≠ block + 8) :
    Block.setFree m block value x = m x := Mem.write8_other m apart

/-! ### The candidate -/

namespace BuddyAlloc

theorem prefer_isSome (fits : Bool) (better : Nat → Bool) (block : Nat) (best : Option Nat) :
    (prefer (fits && best.all better) block best).isSome = (best.isSome || fits) := by
  cases best with
  | none => cases fits <;> rfl
  | some b => cases fits <;> cases h : better b <;> simp [prefer, h]

theorem prefer_eq_some {fits : Bool} {block x : Nat} {best : Option Nat} (h : prefer fits block best = some x) :
    (fits = true ∧ block = x) ∨ best = some x := by
  unfold prefer at h
  split at h
  · exact Or.inl ⟨by assumption, Option.some.inj h⟩
  · exact Or.inr h

end BuddyAlloc

/-! ### Sweeps -/

/-- `m'` tiles as `blocks'` where `m` tiled as `blocks`, and only free bytes were written. -/
structure Swept (a tail : Nat) (blocks blocks' : List Blk) (m m' : Mem) : Prop where
  tiles : Tiles m' a blocks' tail
  frame : ∀ x, ¬InFree a blocks x → m' x = m x

section Sweeps

variable {a tail : Nat} {b d : Blk} {rest rest' : List Blk} {m m' : Mem}

theorem Swept.keep (tiles : Tiles m a (b :: rest) tail) (ok : b.Ok)
    (swept : Swept (a + b.actual) tail rest rest' m m') : Swept a tail (b :: rest) (b :: rest') m m' := by
  have wide := ok.actual_ge
  have header : SameHeader m m' a := fun x _ _ => swept.frame x fun inside => by
    have := (inFree_bounds inside).1
    omega
  exact ⟨⟨header.size.trans tiles.1, header.isFree.trans tiles.2.1, swept.tiles⟩,
    fun x outside => swept.frame x fun inside => outside (Or.inr inside)⟩

abbrev mergeStore (m : Mem) (a : Nat) : Mem := Block.setSize m a (Block.size m a * 2)

theorem size_mergeStore (tiles : Tiles m a (b :: rest) tail) (okMerged : (merged b).Ok) :
    Block.size (mergeStore m a) a = (merged b).size := by
  have small : b.size * 2 ≤ 2 ^ 63 := okMerged.2
  rw [size_setSize _ _ _ (by rw [tiles.1]; omega), tiles.1]
  rfl

theorem tiles_mergeStore (tiles : Tiles m a (b :: rest) tail) (okB : b.Ok) (ok : AllOk rest) :
    Tiles (mergeStore m a) (a + b.actual) rest tail :=
  tiles.2.2.frame ok fun x lower _ => setSize_other m (by have := okB.actual_ge; omega)

theorem Tiles.mergeable_iff (tiles : Tiles m a (b :: d :: rest) tail) :
    Block.isFree m a = true ∧ Block.isFree m (a + b.actual) = true ∧ Block.size m a = Block.size m (a + b.actual) ↔
      Mergeable b d := by
  rw [tiles.1, tiles.2.1, tiles.2.2.1, tiles.2.2.2.1]
  rfl

/-- With two blocks left a scan stands at both of them. -/
theorem Tiles.pair {buddy : Nat} (tiles : Tiles m a (b :: d :: rest) tail) (ok : AllOk (b :: d :: rest))
    (second : a < tail → buddy = Block.next m a) : buddy = a + b.actual ∧ a < tail ∧ a + b.actual < tail := by
  have landed := tiles.end_eq
  simp only [allOk_cons] at ok
  have wideB := ok.1.actual_ge
  have wideD := ok.2.1.actual_ge
  simp only [extent_cons] at landed
  exact ⟨(second (by omega)).trans (tiles_cons_next tiles), by omega, by omega⟩

theorem Tiles.nonempty {blocks : List Blk} (tiles : Tiles m a blocks tail) (more : a < tail) :
    ∃ b rest, blocks = b :: rest := by
  cases blocks with
  | nil => exact absurd tiles (Nat.ne_of_lt more)
  | cons b rest => exact ⟨b, rest, rfl⟩

theorem Tiles.lt_iff {blocks : List Blk} (tiles : Tiles m a blocks tail) (ok : AllOk blocks) :
    a < tail ↔ blocks.isEmpty = false := by
  cases blocks with
  | nil =>
    obtain rfl : a = tail := tiles
    simp
  | cons b rest =>
    have landed := tiles.end_eq
    have wide := (allOk_cons.mp ok).1.actual_ge
    rw [extent_cons] at landed
    exact iff_of_true (by omega) rfl

theorem Swept.merge (tiles : Tiles m a (b :: d :: rest) tail) (ok : AllOk (b :: d :: rest))
    (room : extent (b :: d :: rest) ≤ 2 ^ 63) (merge : Mergeable b d)
    (swept : Swept (a + b.actual + d.actual) tail rest rest' (mergeStore m a) m') :
    Swept a tail (b :: d :: rest) (merged b :: rest') m m' := by
  simp only [allOk_cons] at ok
  obtain ⟨okMerged, wide⟩ := merged_spec merge ok.1 room
  have wideB := ok.1.actual_ge
  have header : SameHeader (mergeStore m a) m' a := fun x _ _ => swept.frame x fun inside => by
    have := (inFree_bounds inside).1
    omega
  refine ⟨⟨header.size.trans (size_mergeStore tiles okMerged), ?_, ?_⟩, ?_⟩
  · rw [header.isFree, isFree_setSize, tiles.2.1, merge.1]
    rfl
  · rw [wide, ← Nat.add_assoc]
    exact swept.tiles
  · intro x outside
    have later : ¬InFree (a + b.actual + d.actual) rest x := fun inside => outside (Or.inr (Or.inr inside))
    rw [swept.frame x later]
    apply setSize_other m
    by_contra inside
    exact outside (Or.inl ⟨merge.1, by omega, by omega⟩)

theorem Swept.refl {blocks : List Blk} (tiles : Tiles m a blocks tail) : Swept a tail blocks blocks m m :=
  ⟨tiles, fun _ _ => rfl⟩

theorem Swept.trans {blocks blocks' blocks'' : List Blk} {m'' : Mem} (first : Swept a tail blocks blocks' m m')
    (same : SameUse a blocks blocks') (second : Swept a tail blocks' blocks'' m' m'') :
    Swept a tail blocks blocks'' m m'' :=
  ⟨second.tiles, fun x outside =>
    (second.frame x fun inside => outside ((same.free_iff x).mp inside)).trans (first.frame x outside)⟩

theorem Swept.under {front blocks blocks' : List Blk} (tiles : Tiles m a (front ++ blocks) tail)
    (ok : AllOk front) (swept : Swept (a + extent front) tail blocks blocks' m m') :
    Swept a tail (front ++ blocks) (front ++ blocks') m m' := by
  induction front generalizing a with
  | nil => exact swept
  | cons b front ih =>
    rw [allOk_cons] at ok
    rw [extent_cons, ← Nat.add_assoc] at swept
    exact (ih tiles.2.2 ok.2 swept).keep tiles ok.1

end Sweeps

/-! ### The scan of `find_best` -/

namespace BuddyAlloc

/-- The candidate that the scan brings to `a`: one it has passed, or the block at `a` itself. -/
def Carried (request a : Nat) (blocks : List Blk) (best : Option Nat) : Prop :=
  ∀ x, best = some x → x < a ∨ (x = a ∧ ∃ b rest, blocks = b :: rest ∧ b.fits request = true)

structure Found (request a : Nat) (blocks : List Blk) (best result : Option Nat) : Prop where
  isSome : result.isSome = (best.isSome || sees request blocks)
  candidate : ∀ x, result = some x → (best = some x ∧ x < a) ∨ Candidate request a (pairUp blocks) x

theorem carried_of_lt {request a : Nat} {blocks : List Blk} {best : Option Nat}
    (h : ∀ x, best = some x → x < a) :
    Carried request a blocks best := fun x same => Or.inl (h x same)

theorem pair_stop {m : Mem} {a tail buddy : Nat} {blocks : List Blk} (tiles : Tiles m a blocks tail)
    (second : a < tail → buddy = Block.next m a) (short : ∀ b d rest, blocks = b :: d :: rest → False) :
    ¬(a < tail ∧ buddy < tail) := by
  intro ⟨lt, lt'⟩
  match blocks, short with
  | [], _ => exact absurd tiles (by change a ≠ tail; omega)
  | [b], _ =>
    have landed := tiles.end_eq
    have := (second lt).trans (tiles_cons_next tiles)
    simp only [extent_cons, extent_nil] at landed
    omega
  | b :: d :: rest, short => exact short b d rest rfl

/-- The candidate after a round that merges: the merged block is the only new one. -/
structure MergeRound (request a : Nat) (b : Blk) (best best' : Option Nat) : Prop where
  isSome : best'.isSome = (best.isSome || (merged b).fits request)
  passed : ∀ x, best' = some x → ((merged b).fits request = true ∧ a = x) ∨ best = some x

/-- The candidate after a round that does not: either of the two blocks is a new one. -/
structure PlainRound (request a : Nat) (b d : Blk) (best best' : Option Nat) : Prop where
  isSome : best'.isSome = (best.isSome || (b.fits request || d.fits request))
  passed : ∀ x, best' = some x →
    (d.fits request = true ∧ a + b.actual = x) ∨ (b.fits request = true ∧ a = x) ∨ best = some x

theorem findBestLoop_merge (request fuel : Nat) (best : Option Nat) {tail a : Nat} {b d : Blk} {rest : List Blk}
    {m : Mem} (tiles : Tiles m a (b :: d :: rest) tail) (ok : AllOk (b :: d :: rest))
    (room : extent (b :: d :: rest) ≤ 2 ^ 63) (merge : Mergeable b d) :
    ∃ best' : Option Nat,
      findBestLoop tail request (fuel + 1) m a (a + b.actual) best =
        findBestLoop tail request fuel (mergeStore m a) (a + b.actual + d.actual)
          (if a + b.actual + d.actual < tail then Block.next (mergeStore m a) (a + b.actual + d.actual)
            else a + b.actual) best' ∧
      MergeRound request a b best best' := by
  obtain ⟨-, left, right⟩ := tiles.pair ok fun _ => (tiles_cons_next tiles).symm
  have restOk := allOk_cons.mp ok
  obtain ⟨okMerged, -⟩ := merged_spec merge restOk.1 room
  have restTiles := tiles_mergeStore tiles restOk.1 restOk.2
  rw [findBestLoop, if_pos ⟨left, right⟩, if_pos (tiles.mergeable_iff.mpr merge)]
  simp only [size_mergeStore tiles okMerged, tiles_cons_next restTiles]
  refine ⟨_, rfl, ?_, ?_⟩
  · rw [prefer_isSome]
    rfl
  · intro x h
    exact (prefer_eq_some h).imp (fun p => ⟨(Bool.and_eq_true_iff.mp p.1).1, p.2⟩) id

theorem findBestLoop_round (request fuel : Nat) (best : Option Nat) {tail a : Nat} {b d : Blk} {rest : List Blk}
    {m : Mem} (tiles : Tiles m a (b :: d :: rest) tail) (ok : AllOk (b :: d :: rest)) (apart : ¬Mergeable b d) :
    ∃ best' : Option Nat,
      findBestLoop tail request (fuel + 1) m a (a + b.actual) best =
        (if b.actual ≤ d.actual then
          findBestLoop tail request fuel m (a + b.actual + d.actual)
            (if a + b.actual + d.actual < tail then Block.next m (a + b.actual + d.actual) else a + b.actual) best'
        else findBestLoop tail request fuel m (a + b.actual) (a + b.actual + d.actual) best') ∧
      PlainRound request a b d best best' := by
  obtain ⟨-, left, right⟩ := tiles.pair ok fun _ => (tiles_cons_next tiles).symm
  have stay := mt tiles.mergeable_iff.mp apart
  rw [findBestLoop, if_pos ⟨left, right⟩, if_neg stay]
  simp only [tiles.1, tiles.2.1, tiles.2.2.1, tiles.2.2.2.1, tiles_cons_next tiles.2.2]
  refine ⟨_, rfl, ?_, ?_⟩
  · rw [prefer_isSome, prefer_isSome, Bool.or_assoc]
    rfl
  · intro x h
    rcases prefer_eq_some h with ⟨fit, same⟩ | h
    · exact Or.inl ⟨(Bool.and_eq_true_iff.mp fit).1, same⟩
    · rcases prefer_eq_some h with ⟨fit, same⟩ | h
      · exact Or.inr (Or.inl ⟨(Bool.and_eq_true_iff.mp fit).1, same⟩)
      · exact Or.inr (Or.inr h)

section Rounds

variable {request a : Nat} {b d : Blk} {rest : List Blk} {best best' result : Option Nat}

theorem Carried.candidate {x : Nat} (carried : Carried request a (b :: rest) best) (same : best = some x) :
    (best = some x ∧ x < a) ∨ Candidate request a (pairUp (b :: rest)) x := by
  rcases carried x same with below | ⟨rfl, c, tail, split, fit⟩
  · exact Or.inl ⟨same, below⟩
  · obtain ⟨rfl, rfl⟩ := List.cons.inj split
    exact Or.inr (pairUp_head fit)

/-- What is brought to a block has been passed at the next one. -/
theorem Carried.below {x e : Nat} (carried : Carried request a (b :: rest) best) (same : best = some x) (next : a < e) :
    x < e := by
  rcases carried x same with below | ⟨rfl, _⟩
  · exact Nat.lt_trans below next
  · exact next

theorem MergeRound.carried (round : MergeRound request a b best best') (carried : Carried request a (b :: d :: rest) best)
    (okB : b.Ok) : Carried request (a + b.actual + d.actual) rest best' := by
  have wide := okB.actual_ge
  apply carried_of_lt
  intro x h
  rcases round.passed x h with ⟨_, rfl⟩ | h
  · omega
  · exact carried.below h (by omega)

theorem MergeRound.found (round : MergeRound request a b best best') (carried : Carried request a (b :: d :: rest) best)
    (merge : Mergeable b d) (wide : (merged b).actual = b.actual + d.actual)
    (found : Found request (a + b.actual + d.actual) rest best' result) :
    Found request a (b :: d :: rest) best result := by
  constructor
  · rw [found.isSome, round.isSome, sees, if_pos merge, Bool.or_assoc]
  · intro x h
    rcases found.candidate x h with ⟨h, _⟩ | later
    · rcases round.passed x h with ⟨fit, rfl⟩ | h
      · rw [pairUp, if_pos merge]
        exact Or.inr (Candidate.head fit)
      · exact carried.candidate h
    · rw [pairUp, if_pos merge]
      exact Or.inr (Candidate.cons (by rwa [wide, ← Nat.add_assoc]))

theorem PlainRound.carried_both (round : PlainRound request a b d best best')
    (carried : Carried request a (b :: d :: rest) best) (okB : b.Ok) (okD : d.Ok) :
    Carried request (a + b.actual + d.actual) rest best' := by
  have wideB := okB.actual_ge
  have wideD := okD.actual_ge
  apply carried_of_lt
  intro x h
  rcases round.passed x h with ⟨_, rfl⟩ | ⟨_, rfl⟩ | h
  · omega
  · omega
  · exact carried.below h (by omega)

theorem PlainRound.found_both (round : PlainRound request a b d best best')
    (carried : Carried request a (b :: d :: rest) best) (apart : ¬Mergeable b d) (small : b.actual ≤ d.actual)
    (found : Found request (a + b.actual + d.actual) rest best' result) :
    Found request a (b :: d :: rest) best result := by
  constructor
  · rw [found.isSome, round.isSome, sees, if_neg apart, if_pos small, Bool.or_assoc]
  · intro x h
    rcases found.candidate x h with ⟨h, _⟩ | later
    · rcases round.passed x h with ⟨fit, rfl⟩ | ⟨fit, rfl⟩ | h
      · rw [pairUp, if_neg apart, if_pos small]
        exact Or.inr (Candidate.head fit).cons
      · exact Or.inr (pairUp_head fit)
      · exact carried.candidate h
    · rw [pairUp, if_neg apart, if_pos small]
      exact Or.inr later.cons.cons

theorem PlainRound.carried_one (round : PlainRound request a b d best best')
    (carried : Carried request a (b :: d :: rest) best) (okB : b.Ok) :
    Carried request (a + b.actual) (d :: rest) best' := by
  have wide := okB.actual_ge
  intro x h
  rcases round.passed x h with ⟨fit, rfl⟩ | ⟨_, rfl⟩ | h
  · exact Or.inr ⟨rfl, d, rest, rfl, fit⟩
  · exact Or.inl (by omega)
  · exact Or.inl (carried.below h (by omega))

theorem PlainRound.found_one (round : PlainRound request a b d best best')
    (carried : Carried request a (b :: d :: rest) best) (apart : ¬Mergeable b d) (large : ¬b.actual ≤ d.actual)
    (found : Found request (a + b.actual) (d :: rest) best' result) :
    Found request a (b :: d :: rest) best result := by
  constructor
  · rw [found.isSome, round.isSome, sees, if_neg apart, if_neg large, Bool.or_assoc]
  · intro x h
    rcases found.candidate x h with ⟨h, below⟩ | later
    · rcases round.passed x h with ⟨_, rfl⟩ | ⟨fit, rfl⟩ | h
      · exact absurd below (Nat.lt_irrefl _)
      · exact Or.inr (pairUp_head fit)
      · exact carried.candidate h
    · rw [pairUp, if_neg apart, if_neg large]
      exact Or.inr later.cons

end Rounds

/-- The scan of `find_best` leaves `pairUp` behind and finds a candidate exactly when it sees one. -/
theorem findBestLoop_spec (request fuel : Nat) (best : Option Nat) {tail : Nat} {blocks : List Blk} {m : Mem}
    {a buddy : Nat} (tiles : Tiles m a blocks tail) (ok : AllOk blocks) (room : extent blocks ≤ 2 ^ 63)
    (fuelled : blocks.length ≤ fuel) (second : a < tail → buddy = Block.next m a)
    (carried : Carried request a blocks best) :
    Swept a tail blocks (pairUp blocks) m (findBestLoop tail request fuel m a buddy best).1 ∧
      Found request a blocks best (findBestLoop tail request fuel m a buddy best).2 := by
  induction blocks using pairUp.induct generalizing fuel m a buddy best with
  | case1 b d rest merge ih =>
    obtain ⟨rfl, -, -⟩ := tiles.pair ok second
    obtain ⟨best', go, round⟩ := findBestLoop_merge request (fuel - 1) best tiles ok room merge
    obtain ⟨okB, okD, okRest⟩ : b.Ok ∧ d.Ok ∧ AllOk rest := by simpa only [allOk_cons] using ok
    have restTiles := tiles_mergeStore tiles okB (allOk_cons.mpr ⟨okD, okRest⟩)
    obtain ⟨-, wide⟩ := merged_spec merge okB room
    have roomRest : extent rest ≤ 2 ^ 63 := by
      simp only [extent_cons] at room
      omega
    simp only [List.length_cons] at fuelled
    rw [show fuel = fuel - 1 + 1 by omega, go]
    obtain ⟨swept, found⟩ := ih (fuel - 1) best' restTiles.2.2 okRest roomRest (by omega) (fun lt => if_pos lt)
      (round.carried carried okB)
    refine ⟨?_, round.found carried merge wide found⟩
    rw [pairUp, if_pos merge]
    exact swept.merge tiles ok room merge
  | case2 b d rest apart small ih =>
    obtain ⟨rfl, -, -⟩ := tiles.pair ok second
    obtain ⟨best', go, round⟩ := findBestLoop_round request (fuel - 1) best tiles ok apart
    simp only [allOk_cons] at ok
    simp only [extent_cons] at room
    simp only [List.length_cons] at fuelled
    rw [show fuel = fuel - 1 + 1 by omega, go, if_pos small]
    obtain ⟨swept, found⟩ := ih (fuel - 1) best' tiles.2.2.2.2 ok.2.2 (by omega) (by omega)
      (fun lt => if_pos lt) (round.carried_both carried ok.1 ok.2.1)
    refine ⟨?_, round.found_both carried apart small found⟩
    rw [pairUp, if_neg apart, if_pos small]
    exact (swept.keep tiles.2.2 ok.2.1).keep tiles ok.1
  | case3 b d rest apart large ih =>
    obtain ⟨rfl, -, -⟩ := tiles.pair ok second
    obtain ⟨best', go, round⟩ := findBestLoop_round request (fuel - 1) best tiles ok apart
    rw [allOk_cons] at ok
    rw [extent_cons] at room
    rw [List.length_cons] at fuelled
    rw [show fuel = fuel - 1 + 1 by omega, go, if_neg large]
    obtain ⟨swept, found⟩ := ih (fuel - 1) best' tiles.2.2 ok.2 (by omega) (by omega)
      (fun _ => (tiles_cons_next tiles.2.2).symm) (round.carried_one carried ok.1)
    refine ⟨?_, round.found_one carried apart large found⟩
    rw [pairUp, if_neg apart, if_neg large]
    exact swept.keep tiles ok.1
  | case4 blocks short =>
    have stop := pair_stop tiles second short
    have exit : findBestLoop tail request fuel m a buddy best = (m, best) := by
      cases fuel with
      | zero => rfl
      | succ fuel => rw [findBestLoop, if_neg stop]
    have same : pairUp blocks = blocks := by
      rw [pairUp]
      exact short
    have blind : sees request blocks = false := by
      rw [sees]
      exact short
    rw [exit, same]
    refine ⟨⟨tiles, fun _ _ => rfl⟩, ?_, ?_⟩
    · rw [blind, Bool.or_false]
    · intro x h
      rcases carried x h with below | ⟨rfl, b, rest, rfl, fit⟩
      · exact Or.inl ⟨h, below⟩
      · rw [same]
        exact Or.inr (Candidate.head fit)

/-! ### The passes of `coalescence` -/

theorem coalescencePass_spec (fuel : Nat) (no_coalescence : Bool) {tail : Nat} {blocks : List Blk} {m : Mem}
    {a buddy : Nat} (tiles : Tiles m a blocks tail) (ok : AllOk blocks) (room : extent blocks ≤ 2 ^ 63)
    (fuelled : blocks.length ≤ fuel) (second : a < tail → buddy = Block.next m a) :
    Swept a tail blocks (mergePass blocks).1 m (coalescencePass tail fuel m a buddy no_coalescence).1 ∧
      (coalescencePass tail fuel m a buddy no_coalescence).2 = (no_coalescence && (mergePass blocks).2) := by
  induction blocks using mergePass.induct generalizing fuel m a buddy no_coalescence with
  | case1 b d rest merge ih =>
    obtain ⟨rfl, left, right⟩ := tiles.pair ok second
    obtain ⟨okB, okD, okRest⟩ : b.Ok ∧ d.Ok ∧ AllOk rest := by simpa only [allOk_cons] using ok
    have restTiles := tiles_mergeStore tiles okB (allOk_cons.mpr ⟨okD, okRest⟩)
    obtain ⟨okMerged, wide⟩ := merged_spec merge okB room
    have roomRest : extent rest ≤ 2 ^ 63 := by
      simp only [extent_cons] at room
      omega
    simp only [List.length_cons] at fuelled
    have after : Block.next (mergeStore m a) a = a + b.actual + d.actual := by
      rw [Block.next, size_mergeStore tiles okMerged, Nat.add_assoc, ← wide]
      rfl
    have more := restTiles.2.2.lt_iff okRest
    rw [show fuel = fuel - 1 + 1 by omega, coalescencePass, if_pos ⟨left, right⟩,
      if_pos (tiles.mergeable_iff.mpr merge), mergePass, if_pos merge]
    simp only [after]
    cases empty : rest.isEmpty with
    | false =>
      obtain ⟨swept, last⟩ := ih (fuel - 1) false restTiles.2.2 okRest roomRest (by omega) (fun _ => rfl)
      rw [if_pos (more.mpr empty)]
      refine ⟨swept.merge tiles ok room merge, ?_⟩
      rw [last]
      simp
    | true =>
      have done : ¬a + b.actual + d.actual < tail := by rw [more, empty]; decide
      obtain ⟨swept, last⟩ := ih (fuel - 1) no_coalescence restTiles.2.2 okRest roomRest (by omega)
        (fun lt => absurd lt done)
      rw [if_neg done]
      refine ⟨swept.merge tiles ok room merge, ?_⟩
      rw [last, Bool.true_and]
  | case2 b d rest apart small ih =>
    obtain ⟨rfl, left, right⟩ := tiles.pair ok second
    rw [allOk_cons] at ok
    rw [extent_cons] at room
    rw [List.length_cons] at fuelled
    have less : sizeRequired (Block.size m a) < sizeRequired (Block.size m (a + b.actual)) := by
      rw [tiles.1, tiles.2.2.1]
      exact small
    rw [show fuel = fuel - 1 + 1 by omega, coalescencePass, if_pos ⟨left, right⟩,
      if_neg (mt tiles.mergeable_iff.mp apart), if_pos less, mergePass, if_neg apart, if_pos small]
    obtain ⟨swept, last⟩ := ih (fuel - 1) no_coalescence tiles.2.2 ok.2 (by omega) (by omega) (fun _ => rfl)
    exact ⟨swept.keep tiles ok.1, last⟩
  | case3 b d rest apart large ih =>
    obtain ⟨rfl, left, right⟩ := tiles.pair ok second
    simp only [allOk_cons] at ok
    simp only [extent_cons] at room
    simp only [List.length_cons] at fuelled
    have notLess : ¬sizeRequired (Block.size m a) < sizeRequired (Block.size m (a + b.actual)) := by
      rw [tiles.1, tiles.2.2.1]
      exact large
    rw [show fuel = fuel - 1 + 1 by omega, coalescencePass, if_pos ⟨left, right⟩,
      if_neg (mt tiles.mergeable_iff.mp apart), if_neg notLess, mergePass, if_neg apart, if_neg large]
    simp only [tiles_cons_next tiles.2.2]
    obtain ⟨swept, last⟩ := ih (fuel - 1) no_coalescence tiles.2.2.2.2 ok.2.2 (by omega) (by omega)
      (fun lt => if_pos lt)
    exact ⟨(swept.keep tiles.2.2 ok.2.1).keep tiles ok.1, last⟩
  | case4 blocks short =>
    have stop := pair_stop tiles second short
    have exit : coalescencePass tail fuel m a buddy no_coalescence = (m, no_coalescence) := by
      cases fuel with
      | zero => rfl
      | succ fuel => rw [coalescencePass, if_neg stop]
    have same : mergePass blocks = (blocks, true) := by
      rw [mergePass]
      exact short
    rw [exit, same, Bool.and_true]
    exact ⟨⟨tiles, fun _ _ => rfl⟩, rfl⟩

theorem coalescenceLoop_spec {alloc : BuddyAlloc} {blocks : List Blk} {fuel : Nat} {m : Mem}
    (tiles : Tiles m alloc.head blocks alloc.tail) (ok : AllOk blocks) (room : extent blocks ≤ 2 ^ 63) :
    Swept alloc.head alloc.tail blocks (mergeAll fuel blocks) m (coalescenceLoop alloc fuel m) := by
  induction fuel generalizing blocks m with
  | zero => exact ⟨tiles, fun _ _ => rfl⟩
  | succ fuel ih =>
    have landed := tiles.end_eq
    have enough := length_le_extent ok
    obtain ⟨swept, last⟩ :=
      coalescencePass_spec (alloc.tail - alloc.head) true tiles ok room (by omega) (fun _ => rfl)
    rw [Bool.true_and] at last
    have same := (mergePass_coarsens blocks).sameUse alloc.head ok room
    rw [coalescenceLoop, mergeAll, ← last]
    generalize coalescencePass alloc.tail (alloc.tail - alloc.head) m alloc.head
      (Block.next m alloc.head) true = pass at swept last ⊢
    obtain ⟨m', done⟩ := pass
    cases done with
    | true => exact swept
    | false => exact swept.trans same (ih swept.tiles same.ok (same.extent_eq ▸ room))

/-- `coalescence` leaves the layout of as many passes as it needs. -/
theorem coalescence_spec {alloc : BuddyAlloc} {blocks : List Blk} {m : Mem}
    (tiles : Tiles m alloc.head blocks alloc.tail) (ok : AllOk blocks) (room : extent blocks ≤ 2 ^ 63) :
    Swept alloc.head alloc.tail blocks (mergeAll blocks.length blocks) m (coalescence alloc m) := by
  have landed := tiles.end_eq
  have enough := length_le_extent ok
  rw [mergeAll_fuel (Nat.le_refl _) (show blocks.length ≤ alloc.tail - alloc.head by omega)]
  exact coalescenceLoop_spec tiles ok room

end BuddyAlloc

end FishOS.Heap
