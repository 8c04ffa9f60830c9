import FishOS.Heap.SizeClass
import Mathlib.Data.List.Basic
import Mathlib.Data.List.Perm.Basic

/-!
# Layouts

A layout is what a walk over `next()` reads: the size field and the flag of every block,
from the head to the tail. `Tiles m a blocks e` says that the walk from `a` reads
`blocks` and lands on `e`.
-/

namespace FishOS.Heap

structure Blk where
  size : Nat
  free : Bool
  deriving DecidableEq

namespace Blk

def actual (b : Blk) : Nat := sizeRequired b.size

/-- A header together with at least one byte, and a size whose class exists. -/
def Ok (b : Blk) : Prop := 17 ≤ b.size ∧ b.size ≤ 2 ^ 63

theorem Ok.actual_class {b : Blk} (ok : b.Ok) : ∃ k, 5 ≤ k ∧ k ≤ 63 ∧ b.actual = 2 ^ k :=
  sizeRequired_class ok.1 ok.2

theorem Ok.size_le {b : Blk} (ok : b.Ok) : b.size ≤ b.actual := le_sizeRequired ok.2

theorem Ok.actual_ge {b : Blk} (ok : b.Ok) : 32 ≤ b.actual := by
  obtain ⟨k, floor, _, same⟩ := ok.actual_class
  rw [same]
  exact Nat.pow_le_pow_right (show 0 < 2 by decide) floor

theorem Ok.actual_le {b : Blk} (ok : b.Ok) : b.actual ≤ 2 ^ 63 := sizeRequired_le_max ok.2

theorem Ok.double {b : Blk} (ok : b.Ok) (room : 2 * b.actual ≤ 2 ^ 63) (free : Bool) :
    Ok ⟨b.size * 2, free⟩ ∧ actual ⟨b.size * 2, free⟩ = b.actual + b.actual := by
  have size := ok.size_le
  have above := ok.1
  refine ⟨⟨by simp only; omega, by simp only; omega⟩, ?_⟩
  have twice := sizeRequired_double (n := b.size) (by omega) (by omega)
  simp only [actual, Nat.mul_comm b.size 2, twice]
  omega

end Blk

def AllOk (blocks : List Blk) : Prop := ∀ b ∈ blocks, b.Ok

theorem allOk_cons {b : Blk} {blocks : List Blk} : AllOk (b :: blocks) ↔ b.Ok ∧ AllOk blocks :=
  List.forall_mem_cons

theorem allOk_append {front back : List Blk} : AllOk (front ++ back) ↔ AllOk front ∧ AllOk back :=
  List.forall_mem_append

def Exact (blocks : List Blk) : Prop := ∀ b ∈ blocks, b.free = true → b.actual = b.size

theorem exact_cons {b : Blk} {blocks : List Blk} :
    Exact (b :: blocks) ↔ (b.free = true → b.actual = b.size) ∧ Exact blocks :=
  List.forall_mem_cons

theorem exact_append {front back : List Blk} : Exact (front ++ back) ↔ Exact front ∧ Exact back :=
  List.forall_mem_append

/-- Two layouts with the same block boundaries. -/
def SameClasses (blocks blocks' : List Blk) : Prop := blocks'.map Blk.actual = blocks.map Blk.actual

def extent : List Blk → Nat
  | [] => 0
  | b :: rest => b.actual + extent rest

@[simp] theorem extent_nil : extent [] = 0 := rfl

@[simp] theorem extent_cons (b : Blk) (rest : List Blk) : extent (b :: rest) = b.actual + extent rest := rfl

@[simp] theorem extent_append (front back : List Blk) :
    extent (front ++ back) = extent front + extent back := by
  induction front with
  | nil => simp
  | cons b rest ih => simp only [List.cons_append, extent_cons, ih]; omega

theorem length_le_extent {blocks : List Blk} (ok : AllOk blocks) : blocks.length ≤ extent blocks := by
  induction blocks with
  | nil => simp
  | cons b rest ih =>
    rw [allOk_cons] at ok
    have := ok.1.actual_ge
    have := ih ok.2
    simp only [List.length_cons, extent_cons]
    omega

def Tiles (m : Mem) : Nat → List Blk → Nat → Prop
  | a, [], e => a = e
  | a, b :: rest, e =>
    Block.size m a = b.size ∧ Block.isFree m a = b.free ∧ Tiles m (a + b.actual) rest e

theorem Tiles.end_eq {m : Mem} {a e : Nat} {blocks : List Blk} (tiles : Tiles m a blocks e) :
    a + extent blocks = e := by
  induction blocks generalizing a with
  | nil => exact tiles
  | cons b rest ih =>
    have := ih tiles.2.2
    simp only [extent_cons]
    omega

def walk (m : Mem) (tail : Nat) : Nat → Nat → List Blk
  | 0, _ => []
  | fuel + 1, a =>
    if a < tail then ⟨Block.size m a, Block.isFree m a⟩ :: walk m tail fuel (Block.next m a) else []

theorem Tiles.walk_eq {m : Mem} {a e fuel : Nat} {blocks : List Blk} (tiles : Tiles m a blocks e)
    (ok : AllOk blocks) (enough : e - a ≤ fuel) : walk m e fuel a = blocks := by
  induction blocks generalizing a fuel with
  | nil =>
    obtain rfl : a = e := tiles
    cases fuel with
    | zero => rfl
    | succ fuel => rw [walk, if_neg (Nat.lt_irrefl a)]
  | cons b rest ih =>
    rw [allOk_cons] at ok
    have landed := tiles.end_eq
    have wide := ok.1.actual_ge
    rw [extent_cons] at landed
    obtain ⟨size, free, back⟩ := tiles
    cases fuel with
    | zero => omega
    | succ fuel =>
      have next : Block.next m a = a + b.actual := by rw [Block.next, size]; rfl
      rw [walk, if_pos (by omega), size, free, next, ih back ok.2 (by omega)]

theorem tiles_append {m : Mem} {a e : Nat} {front back : List Blk} :
    Tiles m a (front ++ back) e ↔ Tiles m a front (a + extent front) ∧ Tiles m (a + extent front) back e := by
  induction front generalizing a with
  | nil => simp [Tiles]
  | cons b rest ih =>
    simp only [List.cons_append, Tiles, extent_cons, ih, ← Nat.add_assoc, and_assoc]

theorem tiles_cons_next {m : Mem} {a e : Nat} {b : Blk} {rest : List Blk} (tiles : Tiles m a (b :: rest) e) :
    Block.next m a = a + b.actual := by
  rw [Block.next, tiles.1]
  rfl

theorem Tiles.unique {m : Mem} {a e : Nat} {blocks other : List Blk} (ok : AllOk blocks) (ok' : AllOk other)
    (tiles : Tiles m a blocks e) (tiles' : Tiles m a other e) : blocks = other := by
  induction blocks generalizing a other with
  | nil =>
    cases other with
    | nil => rfl
    | cons d rest =>
      have here := tiles'.end_eq
      have := (allOk_cons.mp ok').1.actual_ge
      change a = e at tiles
      simp only [extent_cons] at here
      omega
  | cons b rest ih =>
    cases other with
    | nil =>
      have here := tiles.end_eq
      have := (allOk_cons.mp ok).1.actual_ge
      change a = e at tiles'
      simp only [extent_cons] at here
      omega
    | cons d rest' =>
      obtain ⟨size, free, tail⟩ := tiles
      obtain ⟨size', free', tail'⟩ := tiles'
      have same : b = d := by
        cases b
        cases d
        simp_all
      subst same
      rw [ih (allOk_cons.mp ok).2 (allOk_cons.mp ok').2 tail tail']

def SameHeader (m m' : Mem) (block : Nat) : Prop := ∀ x, block ≤ x → x < block + 16 → m' x = m x

theorem SameHeader.size {m m' : Mem} {block : Nat} (same : SameHeader m m' block) :
    Block.size m' block = Block.size m block :=
  Mem.read64_congr fun x lower upper => same x lower (by omega)

theorem SameHeader.isFree {m m' : Mem} {block : Nat} (same : SameHeader m m' block) :
    Block.isFree m' block = Block.isFree m block := by
  unfold Block.isFree
  rw [same (block + 8) (by omega) (by omega)]

theorem Tiles.frame {m m' : Mem} {a e : Nat} {blocks : List Blk} (ok : AllOk blocks)
    (tiles : Tiles m a blocks e) (same : ∀ x, a ≤ x → x < e → m' x = m x) : Tiles m' a blocks e := by
  induction blocks generalizing a with
  | nil => exact tiles
  | cons b rest ih =>
    rw [allOk_cons] at ok
    have wide := ok.1.actual_ge
    have stop := tiles.2.2.end_eq
    have header : SameHeader m m' a := fun x lower upper => same x lower (by omega)
    exact ⟨header.size.trans tiles.1, header.isFree.trans tiles.2.1,
      ih ok.2 tiles.2.2 fun x lower upper => same x (by omega) upper⟩

def InFree : Nat → List Blk → Nat → Prop
  | _, [], _ => False
  | a, b :: rest, x => (b.free = true ∧ a ≤ x ∧ x < a + b.actual) ∨ InFree (a + b.actual) rest x

theorem inFree_bounds {a x : Nat} {blocks : List Blk} (inside : InFree a blocks x) :
    a ≤ x ∧ x < a + extent blocks := by
  induction blocks generalizing a with
  | nil => exact inside.elim
  | cons b rest ih =>
    simp only [extent_cons]
    rcases inside with ⟨_, lower, upper⟩ | deeper
    · omega
    · have := ih deeper
      omega

theorem inFree_append {a x : Nat} {front back : List Blk} :
    InFree a (front ++ back) x ↔ InFree a front x ∨ InFree (a + extent front) back x := by
  induction front generalizing a with
  | nil => simp [InFree]
  | cons b rest ih => simp only [List.cons_append, InFree, extent_cons, ih, ← Nat.add_assoc, or_assoc]

def usedAt : Nat → List Blk → List (Nat × Blk)
  | _, [] => []
  | a, b :: rest => if b.free then usedAt (a + b.actual) rest else (a, b) :: usedAt (a + b.actual) rest

theorem usedAt_append (a : Nat) (front back : List Blk) :
    usedAt a (front ++ back) = usedAt a front ++ usedAt (a + extent front) back := by
  induction front generalizing a with
  | nil => simp [usedAt]
  | cons b rest ih =>
    simp only [List.cons_append, usedAt, extent_cons, ih, ← Nat.add_assoc]
    split <;> rfl

theorem usedAt_of_free {a : Nat} {blocks : List Blk} (free : ∀ b ∈ blocks, b.free = true) :
    usedAt a blocks = [] := by
  induction blocks generalizing a with
  | nil => rfl
  | cons b rest ih =>
    rw [List.forall_mem_cons] at free
    rw [usedAt, if_pos free.1, ih free.2]

theorem usedAt_split {a x : Nat} {b : Blk} {blocks : List Blk} (member : (x, b) ∈ usedAt a blocks) :
    ∃ front back, blocks = front ++ b :: back ∧ x = a + extent front ∧ b.free = false := by
  induction blocks generalizing a with
  | nil => simp [usedAt] at member
  | cons d rest ih =>
    by_cases free : d.free = true
    · rw [usedAt, if_pos free] at member
      obtain ⟨front, back, rfl, rfl, used⟩ := ih member
      exact ⟨d :: front, back, rfl, by simp only [extent_cons]; omega, used⟩
    · rw [usedAt, if_neg free, List.mem_cons] at member
      rcases member with here | deeper
      · obtain ⟨rfl, rfl⟩ := Prod.mk.inj here
        exact ⟨[], rest, rfl, rfl, by simpa using free⟩
      · obtain ⟨front, back, rfl, rfl, used⟩ := ih deeper
        exact ⟨d :: front, back, rfl, by simp only [extent_cons]; omega, used⟩

theorem usedAt_bounds {a x : Nat} {b : Blk} {blocks : List Blk} (member : (x, b) ∈ usedAt a blocks) :
    a ≤ x ∧ x + b.actual ≤ a + extent blocks := by
  obtain ⟨front, back, rfl, rfl, _⟩ := usedAt_split member
  simp only [extent_append, extent_cons]
  omega

theorem usedAt_not_inFree {a x y : Nat} {b : Blk} {blocks : List Blk} (member : (x, b) ∈ usedAt a blocks)
    (lower : x ≤ y) (upper : y < x + b.actual) : ¬InFree a blocks y := by
  obtain ⟨front, back, rfl, rfl, used⟩ := usedAt_split member
  intro inside
  rcases inFree_append.mp inside with below | ⟨free, _⟩ | above
  · have := inFree_bounds below
    omega
  · simp [used] at free
  · have := inFree_bounds above
    omega

theorem usedAt_inj {a x : Nat} {b d : Blk} {blocks : List Blk} (ok : AllOk blocks)
    (member : (x, b) ∈ usedAt a blocks) (member' : (x, d) ∈ usedAt a blocks) : b = d := by
  obtain ⟨front, back, rfl, rfl, used⟩ := usedAt_split member
  have positive := (ok b (by simp)).actual_ge
  rw [usedAt_append, usedAt, if_neg (by simp [used]), List.mem_append, List.mem_cons] at member'
  rcases member' with below | here | above
  · obtain ⟨front', back', rfl, _, _⟩ := usedAt_split below
    have := (usedAt_bounds below).2
    have := (ok d (by simp)).actual_ge
    omega
  · exact (Prod.mk.inj here).2.symm
  · have := (usedAt_bounds above).1
    omega

theorem usedAt_pairwise {a : Nat} (blocks : List Blk) :
    (usedAt a blocks).Pairwise fun u v => u.1 + u.2.actual ≤ v.1 ∨ v.1 + v.2.actual ≤ u.1 := by
  induction blocks generalizing a with
  | nil => exact List.Pairwise.nil
  | cons b rest ih =>
    rw [usedAt]
    split
    · exact ih
    · exact List.pairwise_cons.mpr ⟨fun v member => Or.inl (usedAt_bounds (b := v.2) member).1, ih⟩

end FishOS.Heap
