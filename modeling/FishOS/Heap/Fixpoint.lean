import FishOS.Heap.Buddies
import FishOS.Heap.Halting
import Mathlib.Algebra.Order.Ring.Nat
import Mathlib.Data.Nat.Prime.Basic

/-!
# What coalescence leaves

`coalescence` returns after a pass that keeps `no_coalescence`. That pass may have gone past the left
one of two free buddies, and its merge of the last two blocks does not count.
-/

namespace FishOS.Heap

/-- No two free neighbours are buddies, in a layout that begins at an offset. -/
def BuddyFree : Nat → List Blk → Prop
  | o, b :: d :: rest => ¬(Mergeable b d ∧ Pair.TrueBuddies ⟨o, b, d⟩) ∧ BuddyFree (o + b.actual) (d :: rest)
  | _, _ => True

/-- A round of a pass: the two blocks that it looks at, and the layout in front of and behind them. -/
structure Round where
  front : List Blk
  block : Blk
  buddy : Blk
  rest : List Blk
  deriving DecidableEq

def rounds : List Blk → List Blk → List Round
  | front, b :: d :: rest =>
    ⟨front, b, d, rest⟩ ::
      if Mergeable b d then rounds (front ++ [merged b]) rest
      else if b.actual < d.actual then rounds (front ++ [b]) (d :: rest)
      else rounds (front ++ [b, d]) rest
  | _, _ => []

namespace Round

/-- The round goes past both blocks, and the right one is a free block in front of its free buddy. -/
def StepsInto (r : Round) : Prop :=
  ¬Mergeable r.block r.buddy ∧ r.buddy.actual ≤ r.block.actual ∧ ∃ e behind, r.rest = e :: behind ∧
    Mergeable r.buddy e ∧ Pair.TrueBuddies ⟨extent r.front + r.block.actual, r.buddy, e⟩

/-- The round merges the last two blocks of the heap into the buddy of the free block in front of them. -/
def EndsEarly (r : Round) : Prop :=
  Mergeable r.block r.buddy ∧ r.rest = [] ∧ ∃ front p, r.front = front ++ [p] ∧
    Mergeable p (merged r.block) ∧ Pair.TrueBuddies ⟨extent front, p, merged r.block⟩

end Round

/-- The layout that the last pass starts from. -/
def lastPass : Nat → List Blk → List Blk
  | 0, blocks => blocks
  | fuel + 1, blocks => if (mergePass blocks).2 then blocks else lastPass fuel (mergePass blocks).1

variable {o fuel : Nat} {b d e : Blk} {front blocks rest behind : List Blk}

theorem lastPass_spec (enough : blocks.length ≤ fuel) :
    (mergePass (lastPass fuel blocks)).2 = true ∧ mergeAll fuel blocks = (mergePass (lastPass fuel blocks)).1 ∧
      Coarsens blocks (lastPass fuel blocks) := by
  induction fuel generalizing blocks with
  | zero =>
    obtain rfl : blocks = [] := List.length_eq_zero_iff.mp (by omega)
    exact ⟨rfl, rfl, .nil⟩
  | succ fuel ih =>
    rw [lastPass, mergeAll]
    by_cases last : (mergePass blocks).2 = true
    · rw [if_pos last, if_pos last]
      exact ⟨last, rfl, .refl blocks⟩
    · have shorter := (mergePass_length blocks).2 (by simpa using last)
      obtain ⟨ended, left, coarse⟩ := ih (show (mergePass blocks).1.length ≤ fuel by omega)
      rw [if_neg last, if_neg last]
      exact ⟨ended, left, .trans (mergePass_coarsens blocks) coarse⟩

theorem mergePass_head (last : (mergePass (e :: rest)).2 = true) :
    (∃ f, rest = [f] ∧ Mergeable e f ∧ (mergePass (e :: rest)).1 = [merged e]) ∨
      (∀ f, rest = [f] → ¬Mergeable e f) ∧ ∃ behind, (mergePass (e :: rest)).1 = e :: behind := by
  cases rest with
  | nil => exact .inr ⟨fun _ same => (nomatch same), [], rfl⟩
  | cons f rest =>
    rw [mergePass] at last ⊢
    by_cases merge : Mergeable e f
    · rw [if_pos merge, Bool.and_eq_true] at last
      obtain rfl := List.isEmpty_iff.mp last.1
      rw [if_pos merge]
      exact .inl ⟨f, rfl, merge, rfl⟩
    · refine .inr ⟨fun f' same => ?_, ?_⟩
      · obtain ⟨rfl, -⟩ := List.cons.inj same
        exact merge
      · rw [if_neg merge]
        split
        · exact ⟨_, rfl⟩
        · exact ⟨_, rfl⟩

/-- Three blocks of one size at a multiple of two of them are not the end of a heap whose size is a
power of two. -/
theorem not_three (ok : b.Ok) {k : Nat} (place : 2 * b.actual ∣ o) (power : o + (b.actual + (b.actual + b.actual)) = 2 ^ k) :
    False := by
  obtain ⟨j, -, -, class'⟩ := ok.actual_class
  obtain ⟨q, rfl⟩ := place
  have odd : 2 ^ j * (2 * q + 3) = 2 ^ k := by
    rw [← power, class']
    ring
  obtain ⟨i, -, same⟩ := (Nat.dvd_prime_pow Nat.prime_two).mp (Dvd.intro_left _ odd)
  cases i with
  | zero => omega
  | succ i =>
    rw [Nat.pow_succ] at same
    omega

/-- The block that the last two become is not the buddy of the one in front. -/
def LandsApart (front blocks : List Blk) : Prop :=
  ∀ b d front' p, blocks = [b, d] → Mergeable b d → front = front' ++ [p] →
    ¬(Mergeable p (merged b) ∧ Pair.TrueBuddies ⟨extent front', p, merged b⟩)

theorem landsApart_of_apart (apart : ¬Mergeable b d) : LandsApart front (b :: d :: rest) := by
  rintro b' d' front' p same merge -
  simp only [List.cons.injEq] at same
  obtain ⟨rfl, rfl, -⟩ := same
  exact absurd merge apart

theorem buddyFree_cons : BuddyFree o (b :: blocks) ↔
    (∀ d rest, blocks = d :: rest → ¬(Mergeable b d ∧ Pair.TrueBuddies ⟨o, b, d⟩)) ∧
      BuddyFree (o + b.actual) blocks := by
  cases blocks with
  | nil => simp [BuddyFree]
  | cons d rest => simp [BuddyFree]

/-- A block in front of a larger one is not the buddy of what that becomes. -/
theorem small_apart (okB : b.Ok) (small : b.actual < d.actual) : ¬Mergeable b (merged d) := by
  intro merge
  have same : b.size = d.size * 2 := merge.2.2
  have le : d.actual ≤ b.actual := sizeRequired_mono (by omega) okB.2
  omega

theorem landsApart_behind : LandsApart (front ++ [d]) blocks ↔ ∀ e f, blocks = [e, f] → Mergeable e f →
    ¬(Mergeable d (merged e) ∧ Pair.TrueBuddies ⟨extent front, d, merged e⟩) := by
  constructor
  · intro lands e f same merge
    exact lands e f front d same merge rfl
  · rintro lands e f front' p same merge shape
    obtain ⟨rfl, last⟩ := List.append_inj' shape rfl
    obtain rfl := List.singleton_inj.mp last
    exact lands e f same merge

/-- The block in front of a larger one is not the buddy of what a last pass leaves there. -/
theorem mergePass_apart (okB : b.Ok) (small : b.actual < d.actual) (apart : ¬Mergeable b d)
    (last : (mergePass (d :: rest)).2 = true) (left : (mergePass (d :: rest)).1 = e :: behind) : ¬Mergeable b e := by
  intro merge
  rcases mergePass_head last with ⟨f, -, -, left'⟩ | ⟨-, behind', left'⟩
  · obtain ⟨rfl, -⟩ := List.cons.inj (left'.symm.trans left)
    exact small_apart okB small merge
  · obtain ⟨rfl, -⟩ := List.cons.inj (left'.symm.trans left)
    exact apart merge

/-- The right one of two blocks that a round goes past, and what a last pass leaves behind it. -/
theorem stepsInto_iff (okD : d.Ok) {k : Nat} (whole : extent front + b.actual + d.actual + extent rest = 2 ^ k)
    (last : (mergePass rest).2 = true) (apart : ¬Mergeable b d) (large : ¬b.actual < d.actual) :
    ¬Round.StepsInto ⟨front, b, d, rest⟩ ∧ LandsApart (front ++ [b] ++ [d]) rest ↔
      ∀ e behind, (mergePass rest).1 = e :: behind →
        ¬(Mergeable d e ∧ Pair.TrueBuddies ⟨extent front + b.actual, d, e⟩) := by
  have place : extent (front ++ [b]) = extent front + b.actual := by simp
  rw [landsApart_behind, place]
  cases rest with
  | nil => simp [Round.StepsInto, mergePass]
  | cons e rest =>
    have steps : Round.StepsInto ⟨front, b, d, e :: rest⟩ ↔
        Mergeable d e ∧ Pair.TrueBuddies ⟨extent front + b.actual, d, e⟩ := by
      constructor
      · rintro ⟨-, -, e', behind, same, buddies⟩
        obtain ⟨rfl, -⟩ := List.cons.inj same
        exact buddies
      · exact fun buddies => ⟨apart, Nat.not_lt.mp large, e, rest, rfl, buddies⟩
    rcases mergePass_head last with ⟨f, rfl, merge, left⟩ | ⟨single, behind, left⟩
    · -- with its buddy in front of the last merge, the heap would end behind three blocks of one size
      have into : ¬(Mergeable d e ∧ Pair.TrueBuddies ⟨extent front + b.actual, d, e⟩) := by
        rintro ⟨buddies, offset⟩
        rw [extent_cons, extent_cons, extent_nil, merge.actual_eq, buddies.actual_eq] at whole
        exact not_three (o := extent front + b.actual) okD offset (k := k) (by omega)
      rw [steps, left, and_iff_right into]
      constructor
      · intro lands d' rest' same
        obtain ⟨rfl, -⟩ := List.cons.inj same
        exact lands e f rfl merge
      · intro lands e' f' same _
        obtain ⟨rfl, -⟩ := List.cons.inj same
        exact lands _ _ rfl
    · have lands : ∀ e' f', e :: rest = [e', f'] → Mergeable e' f' →
          ¬(Mergeable d (merged e') ∧ Pair.TrueBuddies ⟨extent front + b.actual, d, merged e'⟩) := by
        intro e' f' same merge
        obtain ⟨rfl, tail⟩ := List.cons.inj same
        exact absurd merge (single f' tail)
      rw [steps, left, and_iff_left lands]
      constructor
      · intro into d' rest' same
        obtain ⟨rfl, -⟩ := List.cons.inj same
        exact into
      · exact fun into => into e behind rfl

/-- The rounds of a last pass against the layout that it leaves. -/
theorem rounds_iff (ok : AllOk blocks) {k : Nat} (power : extent front + extent blocks = 2 ^ k)
    (last : (mergePass blocks).2 = true) :
    (∀ r ∈ rounds front blocks, ¬r.StepsInto ∧ ¬r.EndsEarly) ↔
      BuddyFree (extent front) (mergePass blocks).1 ∧ LandsApart front blocks := by
  induction blocks using mergePass.induct generalizing front with
  | case1 b d rest merge ih =>
    rw [mergePass, if_pos merge, Bool.and_eq_true] at last
    obtain rfl := List.isEmpty_iff.mp last.1
    rw [rounds, if_pos merge, mergePass, if_pos merge]
    simp only [rounds, List.mem_singleton, forall_eq]
    have apart : ¬Round.StepsInto ⟨front, b, d, []⟩ := fun steps => steps.1 merge
    rw [and_iff_right apart]
    constructor
    · intro lands
      refine ⟨trivial, ?_⟩
      rintro b' d' front' p same - shape buddies
      obtain ⟨rfl, -⟩ := List.cons.inj same
      exact lands ⟨merge, rfl, front', p, shape, buddies⟩
    · rintro ⟨-, lands⟩ ⟨-, -, front', p, shape, buddies⟩
      exact lands b d front' p rfl merge shape buddies
  | case2 b d rest apart small ih =>
    obtain ⟨okB, okRest⟩ := allOk_cons.mp ok
    rw [mergePass, if_neg apart, if_pos small] at last
    rw [rounds, if_neg apart, if_pos small, mergePass, if_neg apart, if_pos small, List.forall_mem_cons]
    have steps : ¬Round.StepsInto ⟨front, b, d, rest⟩ := fun steps => Nat.not_le.mpr small steps.2.1
    have ends : ¬Round.EndsEarly ⟨front, b, d, rest⟩ := fun ends => apart ends.1
    have place : extent (front ++ [b]) = extent front + b.actual := by simp
    have lands : LandsApart (front ++ [b]) (d :: rest) := by
      refine landsApart_behind.mpr fun e f same _ buddies => ?_
      obtain ⟨rfl, -⟩ := List.cons.inj same
      exact small_apart okB small buddies.1
    have first : ∀ e behind, (mergePass (d :: rest)).1 = e :: behind →
        ¬(Mergeable b e ∧ Pair.TrueBuddies ⟨extent front, b, e⟩) :=
      fun e behind left buddies => mergePass_apart okB small apart last left buddies.1
    rw [extent_cons, ← Nat.add_assoc, ← place] at power
    rw [and_iff_right ⟨steps, ends⟩, ih okRest power last, and_iff_left lands,
      and_iff_left (landsApart_of_apart apart), buddyFree_cons, and_iff_right first, place]
  | case3 b d rest apart large ih =>
    obtain ⟨-, okBehind⟩ := allOk_cons.mp ok
    obtain ⟨okD, okRest⟩ := allOk_cons.mp okBehind
    rw [mergePass, if_neg apart, if_neg large] at last
    rw [rounds, if_neg apart, if_neg large, mergePass, if_neg apart, if_neg large, List.forall_mem_cons]
    have ends : ¬Round.EndsEarly ⟨front, b, d, rest⟩ := fun ends => apart ends.1
    have place : extent (front ++ [b, d]) = extent front + b.actual + d.actual := by simp [Nat.add_assoc]
    have first : ∀ e behind, d :: (mergePass rest).1 = e :: behind →
        ¬(Mergeable b e ∧ Pair.TrueBuddies ⟨extent front, b, e⟩) := by
      rintro e behind shape ⟨merge, -⟩
      obtain ⟨rfl, -⟩ := List.cons.inj shape
      exact apart merge
    have whole : extent front + b.actual + d.actual + extent rest = 2 ^ k := by
      rw [extent_cons, extent_cons] at power
      omega
    have shape : front ++ [b, d] = front ++ [b] ++ [d] := by simp
    rw [and_iff_left ends, ih okRest (place ▸ whole) last, and_iff_left (landsApart_of_apart apart), buddyFree_cons,
      and_iff_right first, buddyFree_cons, place, shape, and_left_comm, stepsInto_iff okD whole last apart large, and_comm]
  | case4 blocks short =>
    have same : mergePass blocks = (blocks, true) := by
      rw [mergePass]
      exact short
    have none : rounds front blocks = [] := by
      rw [rounds]
      exact short
    have alone : BuddyFree (extent front) blocks := by
      rw [BuddyFree]
      · trivial
      · exact short
    rw [none, same]
    exact iff_of_true (by simp) ⟨alone, fun b d _ _ same => absurd same (short b d [])⟩

/-- A memory with the headers of a layout. -/
def laid : Nat → List Blk → Mem
  | _, [] => fun _ => 0
  | a, b :: rest => Block.setFree (Block.setSize (laid (a + b.actual) rest) a b.size) a b.free

theorem tiles_laid (a : Nat) (ok : AllOk blocks) : Tiles (laid a blocks) a blocks (a + extent blocks) := by
  induction blocks generalizing a with
  | nil => rfl
  | cons b rest ih =>
    obtain ⟨okB, okRest⟩ := allOk_cons.mp ok
    have wide := okB.actual_ge
    have small := okB.2
    rw [extent_cons, ← Nat.add_assoc]
    refine ⟨?_, isFree_setFree _ _ _, (ih (a + b.actual) okRest).frame okRest fun x lower _ => ?_⟩
    · rw [laid, size_setFree, size_setSize _ _ _ (by omega)]
    · rw [laid, setFree_other _ (by omega), setSize_other _ (by omega)]

end FishOS.Heap
