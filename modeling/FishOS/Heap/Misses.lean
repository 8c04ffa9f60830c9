import FishOS.Heap.FreeSizes

/-!
# Requests that fail

The scan of `find_best` walks in pairs, and stops without a look at the last block when no
buddy is left for it. `examined` is the layout after the scan without that block. A request
fails exactly when nothing examined fits, on the first scan and on the scan after
`coalescence`; a free block that does fit is then the last one of the heap.
-/

namespace FishOS.Heap

/-- The last block, when the scan arrives at it as the left one of a pair and has not seen
it as the right one. -/
def leftover : List Blk → Option Blk
  | [] => none
  | [b] => some b
  | b :: d :: rest =>
    if Mergeable b d ∨ b.actual ≤ d.actual then leftover rest
    else if rest = [] then none
    else leftover (d :: rest)

def scanned (blocks : List Blk) : List Blk :=
  if (leftover blocks).isSome then (pairUp blocks).dropLast else pairUp blocks

/-- The blocks that a search looks at, with its merges done. It does look at a single block. -/
def examined : List Blk → List Blk
  | [b] => [b]
  | blocks => scanned blocks

/-- The scan leaves out a block that fits and looks at none that does. -/
def Overlooked (request : Nat) (blocks : List Blk) : Prop :=
  (leftover blocks).any (Blk.fits request) = true ∧ ∀ c ∈ examined blocks, c.fits request = false

instance (request : Nat) (blocks : List Blk) : Decidable (Overlooked request blocks) := instDecidableAnd

/-- The block that is left out is the last one, as it was. -/
theorem leftover_last {blocks : List Blk} {b : Blk} (left : leftover blocks = some b) :
    (∃ front, blocks = front ++ [b]) ∧ ∃ front, pairUp blocks = front ++ [b] := by
  induction blocks using leftover.induct with
  | case1 => simp [leftover] at left
  | case2 c =>
    obtain rfl : c = b := by simpa [leftover] using left
    exact ⟨⟨[], rfl⟩, ⟨[], rfl⟩⟩
  | case3 c d rest step ih =>
    rw [leftover, if_pos step] at left
    obtain ⟨⟨front, same⟩, ⟨front', same'⟩⟩ := ih left
    refine ⟨⟨c :: d :: front, by rw [same]; rfl⟩, ?_⟩
    by_cases merge : Mergeable c d
    · exact ⟨merged c :: front', by rw [pairUp, if_pos merge, same']; rfl⟩
    · exact ⟨c :: d :: front', by rw [pairUp, if_neg merge, if_pos (step.resolve_left merge), same']; rfl⟩
  | case4 c d step =>
    rw [leftover, if_neg step, if_pos rfl] at left
    cases left
  | case5 c d rest step more ih =>
    rw [leftover, if_neg step, if_neg more] at left
    obtain ⟨⟨front, same⟩, ⟨front', same'⟩⟩ := ih left
    rw [not_or] at step
    exact ⟨⟨c :: front, by rw [same]; rfl⟩, c :: front', by rw [pairUp, if_neg step.1, if_neg step.2, same']; rfl⟩

theorem scanned_append {front blocks rest : List Blk} (left : leftover blocks = leftover rest)
    (pairs : pairUp blocks = front ++ pairUp rest) : scanned blocks = front ++ scanned rest := by
  rw [scanned, scanned, left, pairs]
  split
  · rename_i some
    obtain ⟨c, here⟩ := Option.isSome_iff_exists.mp some
    obtain ⟨_, _, shape⟩ := leftover_last here
    rw [List.dropLast_append_of_ne_nil (by simp [shape])]
  · rfl

theorem sees_head {request : Nat} {d e : Blk} {rest : List Blk} (fit : d.fits request = true) :
    sees request (d :: e :: rest) = true := by
  rw [sees]
  split
  · rw [merged_fits fit, Bool.true_or]
  · split <;> rw [fit, Bool.true_or, Bool.true_or]

/-- The scan sees a block that fits exactly when one of those it looks at does. -/
theorem sees_iff {request : Nat} (blocks : List Blk) :
    sees request blocks = true ↔ ∃ c ∈ scanned blocks, c.fits request = true := by
  induction blocks using leftover.induct with
  | case1 => simp [sees, scanned, leftover, pairUp]
  | case2 b => simp [sees, scanned, leftover, pairUp]
  | case3 b d rest step ih =>
    have left : leftover (b :: d :: rest) = leftover rest := by rw [leftover, if_pos step]
    by_cases merge : Mergeable b d
    · have shape : pairUp (b :: d :: rest) = [merged b] ++ pairUp rest := by rw [pairUp, if_pos merge]; rfl
      rw [scanned_append left shape, sees, if_pos merge, Bool.or_eq_true, ih]
      simp
    · have small := step.resolve_left merge
      have shape : pairUp (b :: d :: rest) = [b, d] ++ pairUp rest := by
        rw [pairUp, if_neg merge, if_pos small]; rfl
      rw [scanned_append left shape, sees, if_neg merge, if_pos small, Bool.or_eq_true, Bool.or_eq_true, ih]
      simp [or_assoc]
  | case4 b d step =>
    have left : leftover [b, d] = none := by rw [leftover, if_neg step, if_pos rfl]
    rw [not_or] at step
    rw [scanned, left, sees, pairUp, if_neg step.1, if_neg step.2, if_neg step.1, if_neg step.2]
    simp [sees, pairUp]
  | case5 b d rest step more ih =>
    have left : leftover (b :: d :: rest) = leftover (d :: rest) := by rw [leftover, if_neg step, if_neg more]
    rw [not_or] at step
    have shape : pairUp (b :: d :: rest) = [b] ++ pairUp (d :: rest) := by
      rw [pairUp, if_neg step.1, if_neg step.2]; rfl
    obtain ⟨e, rest, rfl⟩ := List.exists_cons_of_ne_nil more
    have again : d.fits request = true → sees request (d :: e :: rest) = true := sees_head
    rw [scanned_append left shape, sees, if_neg step.1, if_neg step.2, Bool.or_eq_true, Bool.or_eq_true, or_assoc,
      or_iff_right_of_imp again, ih]
    simp

theorem scanned_subset {blocks : List Blk} {c : Blk} (member : c ∈ scanned blocks) : c ∈ pairUp blocks := by
  rw [scanned] at member
  split at member
  · exact (List.dropLast_sublist _).subset member
  · exact member

theorem mem_pairUp {blocks : List Blk} {c : Blk} (member : c ∈ pairUp blocks) :
    c ∈ scanned blocks ∨ leftover blocks = some c := by
  cases left : leftover blocks with
  | none =>
    rw [scanned, left]
    exact Or.inl member
  | some b =>
    obtain ⟨_, front, shape⟩ := leftover_last left
    rw [scanned, left, Option.isSome_some, if_pos rfl, shape, List.dropLast_concat]
    rw [shape, List.mem_append, List.mem_singleton] at member
    exact member.imp id fun same => by rw [same]

theorem Coarsens.exists_fits {request : Nat} {blocks blocks' : List Blk} (coarse : Coarsens blocks blocks')
    (fit : ∃ b ∈ blocks, b.fits request = true) : ∃ b ∈ blocks', b.fits request = true := by
  induction coarse with
  | nil => exact fit
  | keep b _ ih =>
    rw [List.exists_mem_cons_iff] at fit ⊢
    exact fit.imp id ih
  | @merge b d rest rest' merge _ ih =>
    simp only [List.exists_mem_cons_iff] at fit ⊢
    rcases fit with fit | fit | fit
    · exact Or.inl (merged_fits fit)
    · refine Or.inl (merged_fits ?_)
      rw [Blk.fits_iff] at fit ⊢
      exact ⟨merge.1, merge.2.2 ▸ fit.2⟩
    · exact Or.inr (ih fit)
  | trans _ _ ih ih' => exact ih' (ih fit)

theorem Coarsens.all_free {blocks blocks' : List Blk} (coarse : Coarsens blocks blocks')
    (free : ∀ b ∈ blocks, b.free = true) : ∀ b ∈ blocks', b.free = true := by
  induction coarse with
  | nil => exact free
  | keep b _ ih =>
    rw [List.forall_mem_cons] at free ⊢
    exact ⟨free.1, ih free.2⟩
  | merge _ _ ih =>
    simp only [List.forall_mem_cons] at free
    exact List.forall_mem_cons.mpr ⟨rfl, ih free.2.2⟩
  | trans _ _ ih ih' => exact ih' (ih free)

theorem examined_free {blocks : List Blk} (free : ∀ b ∈ blocks, b.free = true) :
    ∀ c ∈ examined blocks, c.free = true := by
  match blocks with
  | [b] => exact free
  | [] => exact fun c member => (pairUp_coarsens []).all_free free c (scanned_subset member)
  | b :: d :: rest => exact fun c member => (pairUp_coarsens _).all_free free c (scanned_subset member)

/-- On whole free blocks a search succeeds exactly when it looks at one that fits. -/
theorem hits_iff {request : Nat} {blocks : List Blk} (exact : Exact blocks) :
    hits request blocks = true ↔ ∃ c ∈ examined blocks, c.fits request = true := by
  match blocks with
  | [] => exact sees_iff []
  | [b] =>
    simp only [hits, examined, List.mem_singleton, exists_eq_left, Blk.fits, Bool.and_eq_true, decide_eq_true_eq]
    exact and_congr_right fun free => by rw [exact b (by simp) free]
  | b :: d :: rest => exact sees_iff (b :: d :: rest)

theorem hits_eq_false_iff {request : Nat} {blocks : List Blk} (exact : Exact blocks)
    (fit : ∃ b ∈ blocks, b.fits request = true) : hits request blocks = false ↔ Overlooked request blocks := by
  rw [← Bool.not_eq_true, hits_iff exact, Overlooked]
  constructor
  · intro none
    have unfit : ∀ c ∈ examined blocks, c.fits request = false := fun c member =>
      Bool.eq_false_iff.mpr fun fits => none ⟨c, member, fits⟩
    refine ⟨?_, unfit⟩
    match blocks with
    | [b] =>
      obtain ⟨c, member, fits⟩ := fit
      exact absurd ⟨c, member, fits⟩ none
    | [] => exact absurd fit (by simp)
    | b :: d :: rest =>
      obtain ⟨c, member, fits⟩ := (pairUp_coarsens _).exists_fits fit
      rcases mem_pairUp member with seen | left
      · exact absurd ⟨c, seen, fits⟩ none
      · rw [left]
        exact fits
  · rintro ⟨_, unfit⟩ ⟨c, member, fits⟩
    exact Bool.noConfusion ((unfit c member).symm.trans fits)

theorem usedAt_eq_nil {a : Nat} {blocks : List Blk} (none : usedAt a blocks = []) :
    ∀ b ∈ blocks, b.free = true := by
  induction blocks generalizing a with
  | nil => simp
  | cons b rest ih =>
    rw [usedAt] at none
    split at none
    · rename_i free
      exact List.forall_mem_cons.mpr ⟨free, ih none⟩
    · cases none

namespace Arena

variable {h : Arena} {m : Mem} {base k n : Nat}

theorem mallocFree_steady (h : Arena) (c : Call) (permitted : MallocFree h c) : SteadyCall h c := by
  cases c with
  | realloc u n => exact permitted.elim
  | _ => exact ⟨trivial, trivial⟩

end Arena

end FishOS.Heap
