import FishOS.Mem.Handout

/-!
# Giving frames back

`free_pages` compares its index with a bound that moves along with the index, so the loop runs
until their sum wraps at 2^64.
-/

namespace FishOS.Mem.Pmm

open Klib

/-- The `for` of `free_pages`. What it does to an index is a parameter, so that the indices can be listed. -/
def freePagesLoop {B : Type} (num_pages : Nat) (set : B → Nat → B) : Nat → B → Nat → Option B
  | 0, _, _ => none
  | fuel + 1, b, i =>
    if i < (num_pages + i) % 2 ^ 64 then freePagesLoop num_pages set fuel (set b i) ((i + 1) % 2 ^ 64)
    else some b

/-- `none` when the loop is still running after `fuel` rounds. -/
def freePages (fuel : Nat) (s : Pmm) (phy num_pages : Nat) : Option Pmm := do
  let i := phy / 0x1000
  let page_bitmap_index := if i < s.pageBitmapIndex then i else s.pageBitmapIndex
  let bitmap ← freePagesLoop num_pages (fun b i => b.set i false) fuel s.bitmap i
  some { bitmap := bitmap, pageBitmapIndex := page_bitmap_index,
         totalAllocated := (s.totalAllocated + (2 ^ 64 - num_pages * 0x1000 % 2 ^ 64)) % 2 ^ 64 }

/-- The indices that the loop of `free_pages` clears, in its order. -/
def clearedIndices (fuel phy num_pages : Nat) : Option (List Nat) :=
  freePagesLoop num_pages (fun indices i => indices ++ [i]) fuel [] (phy / 0x1000)

section Loop

variable {num_pages i rounds : Nat}

theorem freePagesLoop_eq {B : Type} (set : B → Nat → B) (positive : 1 ≤ num_pages)
    (span : i + rounds + num_pages = 2 ^ 64) (fuel : Nat) (b : B) :
    freePagesLoop num_pages set fuel b i =
      if rounds < fuel then some ((List.range' i rounds).foldl set b) else none := by
  induction fuel generalizing i rounds b with
  | zero => simp [freePagesLoop]
  | succ fuel ih =>
    unfold freePagesLoop
    cases rounds with
    | zero =>
      have wrapped : (num_pages + i) % 2 ^ 64 = 0 := by
        rw [Nat.add_comm, ← Nat.add_zero i, span, Nat.mod_self]
      rw [wrapped, if_neg (Nat.not_lt_zero i), if_pos (Nat.succ_pos fuel)]
      rfl
    | succ rounds =>
      have below : num_pages + i < 2 ^ 64 := by omega
      have next : i + 1 < 2 ^ 64 := by omega
      have rest : i + 1 + rounds + num_pages = 2 ^ 64 := by omega
      rw [Nat.mod_eq_of_lt below, if_pos (by omega), Nat.mod_eq_of_lt next, ih rest]
      simp [List.range'_succ]

theorem foldl_snoc (l front : List Nat) : l.foldl (fun indices i => indices ++ [i]) front = front ++ l := by
  induction l generalizing front with
  | nil => simp
  | cons i l ih => simp [ih]

theorem get_foldl_clear (l : List Nat) (b : Bitmap) (j : Nat) :
    (l.foldl (fun b i => b.set i false) b).get j = (b.get j && decide (j ∉ l)) := by
  induction l generalizing b with
  | nil => simp
  | cons i l ih =>
    rw [List.foldl_cons, ih, Bitmap.get_set]
    by_cases here : j = i
    · simp [here]
    · simp [here]

end Loop

def InRun (phy num_pages j : Nat) : Prop := phy / 0x1000 ≤ j ∧ j < phy / 0x1000 + num_pages

instance (phy num_pages j : Nat) : Decidable (InRun phy num_pages j) := inferInstanceAs (Decidable (_ ∧ _))

/-- Frames that some call of `alloc_pages` returned and that are all still marked. -/
structure Outstanding (t : Pmm) (phy num_pages : Nat) : Prop where
  positive : 1 ≤ num_pages
  returned : ∃ s s' : Pmm, s.pageBitmapIndex ≤ s.bitmap.mSize ∧ s.allocPages num_pages = some (s', phy) ∧
    t.bitmap.mSize = s'.bitmap.mSize
  marked : ∀ j, InRun phy num_pages j → t.bitmap.get j = true
  size : t.bitmap.mSize < 2 ^ 52

/-- What gives back a run of frames, and only that. -/
structure Undoes (fuel : Nat) (t : Pmm) (phy num_pages : Nat) (t' : Pmm) : Prop where
  returns : freePages fuel t phy num_pages = some t'
  cleared : ∃ indices, clearedIndices fuel phy num_pages = some indices ∧ ∀ j, j ∈ indices ↔ InRun phy num_pages j
  counted : t'.totalAllocated + num_pages * 0x1000 = t.totalAllocated
  cursor : t'.pageBitmapIndex ≤ phy / 0x1000

section Freed

variable {t t' : Pmm} {phy num_pages fuel : Nat}

theorem Outstanding.inside (outstanding : Outstanding t phy num_pages) :
    phy / 0x1000 + num_pages ≤ t.bitmap.mSize := by
  obtain ⟨s, s', cursor, found, size⟩ := outstanding.returned
  have positive := outstanding.positive
  obtain ⟨-, -, allocated⟩ := allocPages_spec positive cursor found
  have last := allocated.free (phy / 0x1000 + num_pages - 1) (by omega) (by omega)
  have below : phy / 0x1000 + num_pages - 1 < s.bitmap.mSize := by
    apply Nat.lt_of_not_le
    exact fun beyond => last (Or.inr beyond)
  rw [size, allocated.grows.size]
  omega

/-- The rounds that the loop takes: from the first frame of the run to where the sum wraps. -/
def roundsFrom (phy num_pages : Nat) : Nat := 2 ^ 64 - num_pages - phy / 0x1000

theorem Outstanding.span (outstanding : Outstanding t phy num_pages) :
    phy / 0x1000 + roundsFrom phy num_pages + num_pages = 2 ^ 64 := by
  have inside := outstanding.inside
  have size := outstanding.size
  unfold roundsFrom
  omega

theorem Outstanding.clearedIndices_eq (outstanding : Outstanding t phy num_pages) (fuel : Nat) :
    clearedIndices fuel phy num_pages =
      if roundsFrom phy num_pages < fuel then some (List.range' (phy / 0x1000) (roundsFrom phy num_pages)) else none := by
  unfold clearedIndices
  rw [freePagesLoop_eq _ outstanding.positive outstanding.span, foldl_snoc, List.nil_append]

/-- The call returns, but not before every index up to the wrap is cleared. -/
theorem Outstanding.freePages_returns (outstanding : Outstanding t phy num_pages)
    (enough : roundsFrom phy num_pages < fuel) :
    ∃ t', freePages fuel t phy num_pages = some t' ∧
      ∀ j, t'.bitmap.get j = (t.bitmap.get j && decide ¬(phy / 0x1000 ≤ j ∧ j + num_pages < 2 ^ 64)) := by
  have span := outstanding.span
  unfold freePages
  simp only [freePagesLoop_eq _ outstanding.positive span, if_pos enough, Option.bind_eq_bind, Option.bind_some]
  refine ⟨_, rfl, ?_⟩
  intro j
  dsimp only
  rw [get_foldl_clear]
  have range : j ∉ List.range' (phy / 0x1000) (roundsFrom phy num_pages) ↔
      ¬(phy / 0x1000 ≤ j ∧ j + num_pages < 2 ^ 64) := by
    rw [List.mem_range'_1]
    omega
  simp only [range]

/-- Only when nothing above the run is marked, in the bitmap and in all memory behind it, do the
bits come out as they should. -/
theorem Outstanding.bits_iff (outstanding : Outstanding t phy num_pages)
    (freed : freePages fuel t phy num_pages = some t') :
    (∀ j, t'.bitmap.get j = true ↔ t.bitmap.get j = true ∧ ¬InRun phy num_pages j) ↔
      ∀ j, phy / 0x1000 + num_pages ≤ j → j + num_pages < 2 ^ 64 → t.bitmap.get j = false := by
  have inside := outstanding.inside
  have size := outstanding.size
  have enough : roundsFrom phy num_pages < fuel := by
    by_contra short
    unfold freePages at freed
    simp [freePagesLoop_eq _ outstanding.positive outstanding.span, short] at freed
  obtain ⟨t'', returned, bits⟩ := outstanding.freePages_returns enough
  obtain rfl := Option.some.inj (freed.symm.trans returned)
  unfold InRun
  constructor
  · intro exact' j above below
    have lost : t'.bitmap.get j = false := by
      rw [bits, decide_eq_false (by omega), Bool.and_false]
    rw [← Bool.not_eq_true] at lost ⊢
    rw [exact' j] at lost
    exact fun marked => lost ⟨marked, by omega⟩
  · intro clear j
    rw [bits, Bool.and_eq_true, decide_eq_true_eq]
    refine and_congr_right fun marked => not_congr ⟨?_, fun run => ⟨run.1, by omega⟩⟩
    rintro ⟨lower, upper⟩
    refine ⟨lower, ?_⟩
    by_contra beyond
    rw [clear j (by omega) upper] at marked
    cases marked

/-- No run is ever given back alone: the index right behind it is cleared as well. -/
theorem free_pages_never_undoes (outstanding : Outstanding t phy num_pages) : ¬Undoes fuel t phy num_pages t' := by
  intro undoes
  have inside := outstanding.inside
  have size := outstanding.size
  have positive := outstanding.positive
  obtain ⟨indices, listed, exact'⟩ := undoes.cleared
  rw [outstanding.clearedIndices_eq] at listed
  split at listed
  · obtain rfl := Option.some.inj listed
    have behind : phy / 0x1000 + num_pages ∈ List.range' (phy / 0x1000) (roundsFrom phy num_pages) := by
      rw [List.mem_range'_1]
      unfold roundsFrom
      omega
    have run := (exact' _).mp behind
    unfold InRun at run
    omega
  · cases listed

end Freed

/-- Frames 3 and 4 of `halfway`, taken. -/
def halfwayTaken : Pmm := { halfway.setRange 3 2 with pageBitmapIndex := 5, totalAllocated := 0x6000 }

theorem halfwayTaken_outstanding : Outstanding halfwayTaken 0x3000 2 where
  positive := by decide
  returned := by
    have found : (halfway.allocPages 2).map Prod.snd = some 0x3000 := by decide
    obtain ⟨⟨s', phy⟩, found, rfl⟩ := Option.map_eq_some_iff.mp found
    have size := (allocPages_spec (by decide) (by decide) found).2.2.grows.size
    exact ⟨halfway, s', by decide, found, size.symm⟩
  marked j run := by
    have upper : j < 0x3000 / 0x1000 + 2 := run.2
    have lower : 0x3000 / 0x1000 ≤ j := run.1
    obtain rfl | rfl : j = 3 ∨ j = 4 := by omega
    · decide
    · decide
  size := by decide

theorem free_pages_never_undoes_halfway :
    Outstanding halfwayTaken 0x3000 2 ∧ ¬∃ fuel t', Undoes fuel halfwayTaken 0x3000 2 t' := by
  refine ⟨halfwayTaken_outstanding, ?_⟩
  rintro ⟨fuel, t', undoes⟩
  exact free_pages_never_undoes halfwayTaken_outstanding undoes

/-- Frame 5, which is not of the run, is marked before the call and free after it. -/
theorem free_pages_clears_frame_5 : Outstanding halfwayTaken 0x3000 2 ∧ ¬InRun 0x3000 2 5 ∧
    halfwayTaken.bitmap.get 5 = true ∧
    ∃ fuel t', freePages fuel halfwayTaken 0x3000 2 = some t' ∧ t'.bitmap.get 5 = false := by
  refine ⟨halfwayTaken_outstanding, by decide, by decide, ?_⟩
  obtain ⟨t', returned, bits⟩ := halfwayTaken_outstanding.freePages_returns (Nat.lt_succ_self _)
  refine ⟨_, t', returned, ?_⟩
  rw [bits, decide_eq_false (by decide), Bool.and_false]

end FishOS.Mem.Pmm
