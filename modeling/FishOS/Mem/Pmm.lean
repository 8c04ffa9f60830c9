import FishOS.Klib.Bitmap

/-!
# Physical frames

`mem::pmm`: a bitmap of frames, set where a frame is in use, and a cursor that the search
for free frames moves along. The buffer of the bitmap lies in frames that the bitmap itself
marks, so no frame that is handed out holds it. Addresses have 64 bits, so `m_size` is below
2^52 and the products stay in range.
-/

namespace FishOS.Mem

open Klib

structure Pmm where
  bitmap : Bitmap
  pageBitmapIndex : Nat
  totalAllocated : Nat

namespace Pmm

def setRange (s : Pmm) (i : Nat) : Nat → Pmm
  | 0 => s
  | n + 1 => setRange { s with bitmap := s.bitmap.set i true } (i + 1) n

/-- The `while` of `inner_alloc`. Every round advances the cursor. -/
def innerAllocLoop (num_pages limit : Nat) : Nat → Pmm → Nat → Pmm × Nat
  | 0, s, _ => (s, 0)
  | fuel + 1, s, pages =>
    if s.pageBitmapIndex < limit then
      if !s.bitmap.get s.pageBitmapIndex then
        let s := { s with pageBitmapIndex := s.pageBitmapIndex + 1 }
        let pages := pages + 1
        if pages = num_pages then
          let beginning := s.pageBitmapIndex - num_pages
          (s.setRange beginning num_pages, beginning * 0x1000)
        else innerAllocLoop num_pages limit fuel s pages
      else innerAllocLoop num_pages limit fuel { s with pageBitmapIndex := s.pageBitmapIndex + 1 } 0
    else (s, 0)

def innerAlloc (s : Pmm) (num_pages limit : Nat) : Pmm × Nat :=
  innerAllocLoop num_pages limit (limit - s.pageBitmapIndex) s 0

/-- The panic on exhausted memory is `none`. -/
def allocPages (s : Pmm) (num_pages : Nat) : Option (Pmm × Nat) :=
  let last := s.pageBitmapIndex
  match s.innerAlloc num_pages s.bitmap.mSize with
  | (s, 0) =>
    match innerAlloc { s with pageBitmapIndex := 0 } num_pages last with
    | (_, 0) => none
    | (s, result) => some ({ s with totalAllocated := s.totalAllocated + num_pages * 0x1000 }, result)
  | (s, result) => some ({ s with totalAllocated := s.totalAllocated + num_pages * 0x1000 }, result)

def Taken (b : Bitmap) (i : Nat) : Prop := b.get i = true ∨ b.mSize ≤ i

structure Grows (b b' : Bitmap) : Prop where
  size : b'.mSize = b.mSize
  taken : ∀ i, Taken b i → Taken b' i

theorem Grows.refl (b : Bitmap) : Grows b b := ⟨rfl, fun _ => id⟩

theorem Grows.trans {b b' b'' : Bitmap} (first : Grows b b') (second : Grows b' b'') : Grows b b'' :=
  ⟨second.size.trans first.size, fun i taken => second.taken i (first.taken i taken)⟩

theorem mSize_setRange (s : Pmm) (i n : Nat) : (s.setRange i n).bitmap.mSize = s.bitmap.mSize := by
  induction n generalizing s i with
  | zero => rfl
  | succ n ih =>
    unfold setRange
    rw [ih]
    rfl

theorem pageBitmapIndex_setRange (s : Pmm) (i n : Nat) :
    (s.setRange i n).pageBitmapIndex = s.pageBitmapIndex := by
  induction n generalizing s i with
  | zero => rfl
  | succ n ih =>
    unfold setRange
    rw [ih]

theorem totalAllocated_setRange (s : Pmm) (i n : Nat) : (s.setRange i n).totalAllocated = s.totalAllocated := by
  induction n generalizing s i with
  | zero => rfl
  | succ n ih =>
    unfold setRange
    rw [ih]

theorem get_setRange (s : Pmm) (i n j : Nat) :
    (s.setRange i n).bitmap.get j = (decide (i ≤ j ∧ j < i + n) || s.bitmap.get j) := by
  induction n generalizing s i with
  | zero =>
    unfold setRange
    rw [decide_eq_false (by omega), Bool.false_or]
  | succ n ih =>
    unfold setRange
    rw [ih, Bitmap.get_set]
    by_cases here : j = i
    · simp [here]
    · have range : (i + 1 ≤ j ∧ j < i + 1 + n) ↔ (i ≤ j ∧ j < i + (n + 1)) := by omega
      simp only [if_neg here, range]

theorem grows_setRange (s : Pmm) (i n : Nat) : Grows s.bitmap (s.setRange i n).bitmap := by
  refine ⟨mSize_setRange s i n, ?_⟩
  intro j taken
  unfold Taken at *
  rw [get_setRange, mSize_setRange, Bool.or_eq_true]
  exact taken.imp Or.inr id

structure Allocated (b : Bitmap) (num_pages : Nat) (b' : Bitmap) (result : Nat) : Prop where
  grows : Grows b b'
  aligned : result % 0x1000 = 0
  free : ∀ i, result / 0x1000 ≤ i → i < result / 0x1000 + num_pages → ¬Taken b i
  marked : ∀ i, result / 0x1000 ≤ i → i < result / 0x1000 + num_pages → Taken b' i

theorem Allocated.after {b b₁ b' : Bitmap} {num_pages result : Nat}
    (allocated : Allocated b₁ num_pages b' result) (grows : Grows b b₁) : Allocated b num_pages b' result :=
  ⟨grows.trans allocated.grows, allocated.aligned, fun i lower upper taken =>
    allocated.free i lower upper (grows.taken i taken), allocated.marked⟩

/-- The outcome of `inner_alloc`: a run of free frames, now marked, unless it returns zero. -/
structure Searched (b : Bitmap) (num_pages : Nat) (outcome : Pmm × Nat) : Prop where
  cursor : outcome.1.pageBitmapIndex ≤ b.mSize
  grows : Grows b outcome.1.bitmap
  found : outcome.2 ≠ 0 → Allocated b num_pages outcome.1.bitmap outcome.2

/-- The loop keeps the last `pages` frames before the cursor free. -/
theorem innerAllocLoop_spec {num_pages limit fuel : Nat} {s : Pmm} {pages : Nat}
    (bounded : limit ≤ s.bitmap.mSize) (cursor : s.pageBitmapIndex ≤ s.bitmap.mSize)
    (short : pages < num_pages) (behind : pages ≤ s.pageBitmapIndex)
    (free : ∀ i, s.pageBitmapIndex - pages ≤ i → i < s.pageBitmapIndex → ¬Taken s.bitmap i) :
    Searched s.bitmap num_pages (innerAllocLoop num_pages limit fuel s pages) := by
  induction fuel generalizing s pages with
  | zero => exact ⟨cursor, .refl s.bitmap, fun found => absurd rfl found⟩
  | succ fuel ih =>
    unfold innerAllocLoop
    split
    · rename_i inside
      have advanced : s.pageBitmapIndex + 1 ≤ s.bitmap.mSize := by omega
      split
      · rename_i clear
        have here : ¬Taken s.bitmap s.pageBitmapIndex := by
          rintro (used | beyond)
          · simp [used] at clear
          · omega
        have free' : ∀ i, s.pageBitmapIndex + 1 - (pages + 1) ≤ i → i < s.pageBitmapIndex + 1 →
            ¬Taken s.bitmap i := by
          intro i lower upper
          by_cases last : i = s.pageBitmapIndex
          · exact last ▸ here
          · exact free i (by omega) (by omega)
        dsimp only
        split
        · rename_i full
          have start : (s.pageBitmapIndex + 1 - num_pages) * 0x1000 / 0x1000 = s.pageBitmapIndex + 1 - num_pages :=
            Nat.mul_div_cancel _ (by decide)
          have grows := grows_setRange { s with pageBitmapIndex := s.pageBitmapIndex + 1 }
            (s.pageBitmapIndex + 1 - num_pages) num_pages
          refine ⟨Nat.le_trans (Nat.le_of_eq (pageBitmapIndex_setRange _ _ _)) advanced, grows,
            fun _ => ⟨grows, Nat.mul_mod_left _ _, ?_, ?_⟩⟩
          · intro i lower upper
            rw [start] at lower upper
            exact free' i (by omega) (by omega)
          · intro i lower upper
            rw [start] at lower upper
            apply Or.inl
            rw [get_setRange, decide_eq_true ⟨lower, upper⟩, Bool.true_or]
        · exact ih (s := { s with pageBitmapIndex := s.pageBitmapIndex + 1 }) bounded advanced (by omega)
            (Nat.succ_le_succ behind) free'
      · refine ih (s := { s with pageBitmapIndex := s.pageBitmapIndex + 1 }) bounded advanced (by omega)
          (Nat.zero_le _) ?_
        intro i lower upper
        exact absurd upper (Nat.not_lt.mpr lower)
    · exact ⟨cursor, .refl s.bitmap, fun found => absurd rfl found⟩

theorem innerAlloc_spec {s : Pmm} {num_pages limit : Nat} (positive : 1 ≤ num_pages)
    (bounded : limit ≤ s.bitmap.mSize) (cursor : s.pageBitmapIndex ≤ s.bitmap.mSize) :
    Searched s.bitmap num_pages (s.innerAlloc num_pages limit) :=
  innerAllocLoop_spec bounded cursor positive (Nat.zero_le _) fun _ lower upper => absurd upper (Nat.not_lt.mpr lower)

theorem allocPages_spec {s s' : Pmm} {num_pages result : Nat} (positive : 1 ≤ num_pages)
    (cursor : s.pageBitmapIndex ≤ s.bitmap.mSize) (found : s.allocPages num_pages = some (s', result)) :
    result ≠ 0 ∧ s'.pageBitmapIndex ≤ s'.bitmap.mSize ∧ Allocated s.bitmap num_pages s'.bitmap result := by
  have first := innerAlloc_spec positive (Nat.le_refl _) cursor
  unfold allocPages at found
  dsimp only at found
  generalize s.innerAlloc num_pages s.bitmap.mSize = outcome at first found
  obtain ⟨s₁, r₁⟩ := outcome
  have grows : Grows s.bitmap s₁.bitmap := first.grows
  split at found
  · rename_i missed
    obtain ⟨rfl, rfl⟩ := Prod.mk.inj missed
    have bounded : s.pageBitmapIndex ≤ s₁.bitmap.mSize := grows.size.symm ▸ cursor
    have second := innerAlloc_spec (s := { s₁ with pageBitmapIndex := 0 }) positive bounded (Nat.zero_le _)
    generalize innerAlloc { s₁ with pageBitmapIndex := 0 } num_pages s.pageBitmapIndex = outcome at second found
    obtain ⟨s₂, r₂⟩ := outcome
    split at found
    · cases found
    · rename_i nonzero hit
      obtain ⟨rfl, rfl⟩ := Prod.mk.inj hit
      obtain ⟨rfl, rfl⟩ := Prod.mk.inj (Option.some.inj found)
      have cursor := Nat.le_trans second.cursor (Nat.le_of_eq second.grows.size.symm)
      exact ⟨nonzero, cursor, (second.found nonzero).after grows⟩
  · rename_i nonzero hit
    obtain ⟨rfl, rfl⟩ := Prod.mk.inj hit
    obtain ⟨rfl, rfl⟩ := Prod.mk.inj (Option.some.inj found)
    exact ⟨nonzero, Nat.le_trans first.cursor (Nat.le_of_eq grows.size.symm), first.found nonzero⟩

end Pmm

end FishOS.Mem
