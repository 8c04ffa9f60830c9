import FishOS.Heap.Layout

/-!
# The two scans

`find_best` and `coalescence` walk the heap in pairs. On layouts the walk of `find_best`
is `pairUp`, and `sees` says whether it meets a block that fits; a pass of `coalescence`
is `mergePass`. Both change size fields of free blocks only.
-/

namespace FishOS.Heap

def Mergeable (b d : Blk) : Prop := b.free = true ∧ d.free = true ∧ b.size = d.size

instance (b d : Blk) : Decidable (Mergeable b d) := by unfold Mergeable; infer_instance

def merged (b : Blk) : Blk := ⟨b.size * 2, true⟩

/-- The layout after the scan of `find_best`: past both blocks when the left one is not the
larger, past the left one only otherwise. -/
def pairUp : List Blk → List Blk
  | b :: d :: rest =>
    if Mergeable b d then merged b :: pairUp rest
    else if b.actual ≤ d.actual then b :: d :: pairUp rest
    else b :: pairUp (d :: rest)
  | blocks => blocks

def Blk.fits (request : Nat) (b : Blk) : Bool := b.free && decide (request ≤ b.size)

/-- The scan of `find_best` meets a free block of at least `request` bytes. It never looks at
a last block that it reaches as the left one of a pair. -/
def sees (request : Nat) : List Blk → Bool
  | b :: d :: rest =>
    if Mergeable b d then (merged b).fits request || sees request rest
    else if b.actual ≤ d.actual then b.fits request || d.fits request || sees request rest
    else b.fits request || d.fits request || sees request (d :: rest)
  | _ => false

/-- The layout after one pass of `coalescence`, and whether that pass was the last. A merge at
the very end of the heap does not ask for another pass. -/
def mergePass : List Blk → List Blk × Bool
  | b :: d :: rest =>
    if Mergeable b d then (merged b :: (mergePass rest).1, rest.isEmpty && (mergePass rest).2)
    else if b.actual < d.actual then (b :: (mergePass (d :: rest)).1, (mergePass (d :: rest)).2)
    else (b :: d :: (mergePass rest).1, (mergePass rest).2)
  | blocks => (blocks, true)

def Candidate (request a : Nat) (blocks : List Blk) (x : Nat) : Prop :=
  ∃ front b back, blocks = front ++ b :: back ∧ x = a + extent front ∧ b.fits request = true

theorem Candidate.cons {request a x : Nat} {b : Blk} {rest : List Blk}
    (found : Candidate request (a + b.actual) rest x) : Candidate request a (b :: rest) x := by
  obtain ⟨front, c, back, rfl, rfl, fit⟩ := found
  exact ⟨b :: front, c, back, rfl, by simp only [extent_cons]; omega, fit⟩

theorem Candidate.head {request a : Nat} {b : Blk} {rest : List Blk} (fit : b.fits request = true) :
    Candidate request a (b :: rest) a := ⟨[], b, rest, rfl, rfl, fit⟩

theorem Blk.fits_iff {request : Nat} {b : Blk} : b.fits request = true ↔ b.free = true ∧ request ≤ b.size := by
  simp [Blk.fits]

theorem merged_fits {request : Nat} {b : Blk} (fit : b.fits request = true) :
    (merged b).fits request = true := by
  rw [Blk.fits_iff] at fit ⊢
  exact ⟨rfl, fit.2.trans (Nat.le_mul_of_pos_right b.size Nat.two_pos)⟩

theorem pairUp_head {request a : Nat} {b : Blk} {rest : List Blk} (fit : b.fits request = true) :
    Candidate request a (pairUp (b :: rest)) a := by
  cases rest with
  | nil => exact Candidate.head fit
  | cons d rest =>
    rw [pairUp]
    split
    · exact Candidate.head (merged_fits fit)
    · split
      · exact Candidate.head fit
      · exact Candidate.head fit

/-- Merges of equal free neighbours, anywhere in a layout. -/
inductive Coarsens : List Blk → List Blk → Prop
  | nil : Coarsens [] []
  | keep (b : Blk) {rest rest' : List Blk} : Coarsens rest rest' → Coarsens (b :: rest) (b :: rest')
  | merge {b d : Blk} {rest rest' : List Blk} :
      Mergeable b d → Coarsens rest rest' → Coarsens (b :: d :: rest) (merged b :: rest')
  | trans {blocks blocks' blocks'' : List Blk} :
      Coarsens blocks blocks' → Coarsens blocks' blocks'' → Coarsens blocks blocks''

theorem Coarsens.refl (blocks : List Blk) : Coarsens blocks blocks := by
  induction blocks with
  | nil => exact .nil
  | cons b rest ih => exact .keep b ih

theorem pairUp_coarsens (blocks : List Blk) : Coarsens blocks (pairUp blocks) := by
  induction blocks using pairUp.induct with
  | case1 b d rest merge ih =>
    rw [pairUp, if_pos merge]
    exact .merge merge ih
  | case2 b d rest apart small ih =>
    rw [pairUp, if_neg apart, if_pos small]
    exact .keep b (.keep d ih)
  | case3 b d rest apart large ih =>
    rw [pairUp, if_neg apart, if_neg large]
    exact .keep b ih
  | case4 blocks short =>
    rw [pairUp]
    · exact .refl blocks
    · exact short

theorem mergePass_coarsens (blocks : List Blk) : Coarsens blocks (mergePass blocks).1 := by
  induction blocks using mergePass.induct with
  | case1 b d rest merge ih =>
    rw [mergePass, if_pos merge]
    exact .merge merge ih
  | case2 b d rest apart small ih =>
    rw [mergePass, if_neg apart, if_pos small]
    exact .keep b ih
  | case3 b d rest apart large ih =>
    rw [mergePass, if_neg apart, if_neg large]
    exact .keep b (.keep d ih)
  | case4 blocks short =>
    rw [mergePass]
    · exact .refl blocks
    · exact short

theorem Mergeable.actual_eq {b d : Blk} (merge : Mergeable b d) : d.actual = b.actual := by
  rw [Blk.actual, Blk.actual, merge.2.2]

theorem merged_spec {b d : Blk} {rest : List Blk} (merge : Mergeable b d) (ok : b.Ok)
    (room : extent (b :: d :: rest) ≤ 2 ^ 63) :
    (merged b).Ok ∧ (merged b).actual = b.actual + d.actual := by
  have same := merge.actual_eq
  simp only [extent_cons] at room
  rw [same]
  exact ok.double (by omega) true

/-- Two layouts of the same bytes with the same used blocks. -/
structure SameUse (a : Nat) (blocks blocks' : List Blk) : Prop where
  ok : AllOk blocks'
  extent_eq : extent blocks' = extent blocks
  used_eq : usedAt a blocks' = usedAt a blocks
  free_iff : ∀ x, InFree a blocks' x ↔ InFree a blocks x
  exact : Exact blocks → Exact blocks'

theorem SameUse.refl {a : Nat} {blocks : List Blk} (ok : AllOk blocks) : SameUse a blocks blocks :=
  ⟨ok, rfl, rfl, fun _ => Iff.rfl, id⟩

theorem SameUse.trans {a : Nat} {blocks blocks' blocks'' : List Blk} (first : SameUse a blocks blocks')
    (second : SameUse a blocks' blocks'') : SameUse a blocks blocks'' :=
  ⟨second.ok, second.extent_eq.trans first.extent_eq, second.used_eq.trans first.used_eq,
    fun x => (second.free_iff x).trans (first.free_iff x), second.exact ∘ first.exact⟩

theorem Coarsens.sameUse {blocks blocks' : List Blk} (coarse : Coarsens blocks blocks') (a : Nat)
    (ok : AllOk blocks) (room : extent blocks ≤ 2 ^ 63) : SameUse a blocks blocks' := by
  induction coarse generalizing a with
  | nil => exact .refl ok
  | keep b _ ih =>
    rw [extent_cons] at room
    rw [allOk_cons] at ok
    have same := ih (a + b.actual) ok.2 (by omega)
    refine ⟨allOk_cons.mpr ⟨ok.1, same.ok⟩, ?_, ?_, ?_, ?_⟩
    · rw [extent_cons, extent_cons, same.extent_eq]
    · rw [usedAt, usedAt, same.used_eq]
    · intro x
      rw [InFree, InFree, same.free_iff]
    · simp only [exact_cons]
      exact fun exact => ⟨exact.1, same.exact exact.2⟩
  | @merge b d rest rest' merge _ ih =>
    simp only [allOk_cons] at ok
    obtain ⟨okMerged, wide⟩ := merged_spec merge ok.1 room
    simp only [extent_cons] at room
    have same := ih (a + b.actual + d.actual) ok.2.2 (by omega)
    have free : (merged b).free = true := rfl
    refine ⟨allOk_cons.mpr ⟨okMerged, same.ok⟩, ?_, ?_, ?_, ?_⟩
    · rw [extent_cons, extent_cons, extent_cons, wide, same.extent_eq]
      omega
    · rw [usedAt, usedAt, usedAt, if_pos free, if_pos merge.1, if_pos merge.2.1, wide, ← Nat.add_assoc, same.used_eq]
    · intro x
      simp only [InFree, free, wide, merge.1, merge.2.1, true_and, ← Nat.add_assoc, same.free_iff]
      exact (or_congr (by omega) Iff.rfl).trans or_assoc
    · simp only [exact_cons]
      intro exact
      refine ⟨?_, same.exact exact.2.2⟩
      intro _
      have size := exact.1 merge.1
      rw [wide, merge.actual_eq, size, merged, Nat.mul_two]
  | trans _ _ ih ih' =>
    have first := ih a ok room
    exact first.trans (ih' a first.ok (first.extent_eq ▸ room))

theorem mergePass_length (blocks : List Blk) :
    (mergePass blocks).1.length ≤ blocks.length ∧
      ((mergePass blocks).2 = false → (mergePass blocks).1.length < blocks.length) := by
  induction blocks using mergePass.induct with
  | case1 b d rest merge ih =>
    rw [mergePass, if_pos merge]
    simp only [List.length_cons]
    exact ⟨by omega, fun _ => by omega⟩
  | case2 b d rest apart small ih =>
    rw [mergePass, if_neg apart, if_pos small]
    simp only [List.length_cons] at ih ⊢
    exact ⟨by omega, fun again => by have := ih.2 again; omega⟩
  | case3 b d rest apart large ih =>
    rw [mergePass, if_neg apart, if_neg large]
    simp only [List.length_cons]
    exact ⟨by omega, fun again => by have := ih.2 again; omega⟩
  | case4 blocks short =>
    rw [mergePass]
    · exact ⟨Nat.le_refl _, fun again => Bool.noConfusion again⟩
    · exact short

def mergeAll : Nat → List Blk → List Blk
  | 0, blocks => blocks
  | fuel + 1, blocks => if (mergePass blocks).2 then (mergePass blocks).1 else mergeAll fuel (mergePass blocks).1

theorem mergeAll_coarsens (fuel : Nat) (blocks : List Blk) : Coarsens blocks (mergeAll fuel blocks) := by
  induction fuel generalizing blocks with
  | zero => exact .refl blocks
  | succ fuel ih =>
    rw [mergeAll]
    split
    · exact mergePass_coarsens blocks
    · exact .trans (mergePass_coarsens blocks) (ih _)

theorem mergeAll_nil (fuel : Nat) : mergeAll fuel [] = [] := by
  cases fuel <;> rfl

theorem mergeAll_fuel {fuel fuel' : Nat} {blocks : List Blk} (enough : blocks.length ≤ fuel)
    (enough' : blocks.length ≤ fuel') : mergeAll fuel blocks = mergeAll fuel' blocks := by
  induction fuel generalizing fuel' blocks with
  | zero =>
    obtain rfl : blocks = [] := List.length_eq_zero_iff.mp (by omega)
    rw [mergeAll_nil, mergeAll_nil]
  | succ fuel ih =>
    cases fuel' with
    | zero =>
      obtain rfl : blocks = [] := List.length_eq_zero_iff.mp (by omega)
      rw [mergeAll_nil, mergeAll_nil]
    | succ fuel' =>
      rw [mergeAll, mergeAll]
      split
      · rfl
      · rename_i again
        have shorter := (mergePass_length blocks).2 (by simpa using again)
        exact ih (by omega) (by omega)

end FishOS.Heap
