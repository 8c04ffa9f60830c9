import FishOS.Heap.Safety

/-!
# Buddies

A block of size `s` belongs at a multiple of `s`, and its buddy is the other half of a block of
twice the size. The scans never look at addresses: they merge equal free neighbours, also a right
buddy with the block behind it.
-/

namespace FishOS.Heap

def Aligned : Nat → List Blk → Prop
  | _, [] => True
  | o, b :: rest => b.actual ∣ o ∧ Aligned (o + b.actual) rest

/-- Two neighbours and the offset of the left one. -/
structure Pair where
  offset : Nat
  block : Blk
  buddy : Blk

/-- The pairs that the scan of `find_best` looks at. -/
def scanPairs : Nat → List Blk → List Pair
  | o, b :: d :: rest =>
    ⟨o, b, d⟩ ::
      if Mergeable b d then scanPairs (o + b.actual + d.actual) rest
      else if b.actual ≤ d.actual then scanPairs (o + b.actual + d.actual) rest
      else scanPairs (o + b.actual) (d :: rest)
  | _, _ => []

/-- The pairs that a pass of `coalescence` looks at. -/
def passPairs : Nat → List Blk → List Pair
  | o, b :: d :: rest =>
    ⟨o, b, d⟩ ::
      if Mergeable b d then passPairs (o + b.actual + d.actual) rest
      else if b.actual < d.actual then passPairs (o + b.actual) (d :: rest)
      else passPairs (o + b.actual + d.actual) rest
  | _, _ => []

def mergeAllPairs : Nat → List Blk → List Pair
  | 0, _ => []
  | fuel + 1, blocks =>
    passPairs 0 blocks ++ if (mergePass blocks).2 then [] else mergeAllPairs fuel (mergePass blocks).1

/-- The pairs that a search looks at. -/
def searchPairs (request : Nat) (blocks : List Blk) : List Pair :=
  scanPairs 0 blocks ++
    if hits request blocks then []
    else mergeAllPairs (pairUp blocks).length (pairUp blocks) ++ scanPairs 0 (coalesced blocks)

namespace Pair

/-- The left block of the pair is the right half of what it was split from. -/
def Straddles (p : Pair) : Prop := p.offset / p.block.actual % 2 = 1

instance (p : Pair) : Decidable p.Straddles := by unfold Straddles; infer_instance

def TrueBuddies (p : Pair) : Prop := 2 * p.block.actual ∣ p.offset

/-- The left block is where a block of its size belongs. -/
def Placed (p : Pair) : Prop := p.block.Ok ∧ p.block.actual ∣ p.offset

/-- No pair of equal free blocks begins with a right half. -/
def NoneStraddle (pairs : List Pair) : Prop := ∀ p ∈ pairs, p.Straddles → ¬Mergeable p.block p.buddy

instance (pairs : List Pair) : Decidable (NoneStraddle pairs) := by unfold NoneStraddle; infer_instance

end Pair

open Pair

variable {o fuel : Nat} {b d : Blk} {blocks blocks' : List Blk}

theorem aligned_append {front back : List Blk} :
    Aligned o (front ++ back) ↔ Aligned o front ∧ Aligned (o + extent front) back := by
  induction front generalizing o with
  | nil => simp [Aligned]
  | cons b rest ih => simp only [List.cons_append, Aligned, extent_cons, ih, ← Nat.add_assoc, and_assoc]

theorem aligned_iff : Aligned 0 blocks ↔ ∀ front b back, blocks = front ++ b :: back → b.actual ∣ extent front := by
  constructor
  · rintro aligned front b back rfl
    simpa using (aligned_append.mp aligned).2.1
  · intro each
    have along : ∀ (rest front : List Blk), blocks = front ++ rest → Aligned (extent front) rest := by
      intro rest
      induction rest with
      | nil => intros; trivial
      | cons b rest ih =>
        intro front shape
        refine ⟨each front b rest shape, ?_⟩
        simpa using ih (front ++ [b]) (by simpa using shape)
    exact along blocks [] rfl

theorem SameClasses.aligned (same : SameClasses blocks blocks') (aligned : Aligned o blocks) :
    Aligned o blocks' := by
  induction blocks generalizing o blocks' with
  | nil =>
    obtain rfl : blocks' = [] := by simpa [SameClasses] using same
    trivial
  | cons b rest ih =>
    obtain ⟨b', rest', rfl, here, others⟩ := List.map_eq_cons_iff.mp same
    refine ⟨here ▸ aligned.1, ?_⟩
    rw [here]
    exact ih others aligned.2

/-- A left half that is followed by a block of its size is followed by its buddy. -/
theorem trueBuddies_of_left {p : Pair} (left : ¬p.Straddles) (placed : p.Placed) : p.TrueBuddies := by
  obtain ⟨ok, q, same⟩ := placed
  have wide := ok.actual_ge
  have even : q % 2 = 0 := by
    have odd : ¬q % 2 = 1 := by
      rwa [Straddles, same, Nat.mul_div_cancel_left q (by omega)] at left
    omega
  obtain ⟨r, rfl⟩ := Nat.dvd_of_mod_eq_zero even
  exact ⟨r, by rw [same]; ring⟩

theorem Aligned.merge {rest rest' : List Blk} (aligned : Aligned o (b :: d :: rest)) (ok : AllOk (b :: d :: rest))
    (room : extent (b :: d :: rest) ≤ 2 ^ 63) (merge : Mergeable b d) (left : ¬Straddles ⟨o, b, d⟩)
    (behind : Aligned (o + b.actual + d.actual) rest → Aligned (o + b.actual + d.actual) rest') :
    Aligned o (merged b :: rest') := by
  have okB := (allOk_cons.mp ok).1
  obtain ⟨_, wide⟩ := merged_spec merge okB room
  have buddies : 2 * b.actual ∣ o := trueBuddies_of_left left ⟨okB, aligned.1⟩
  refine ⟨?_, ?_⟩
  · rwa [wide, merge.actual_eq, ← Nat.two_mul]
  · rw [wide, ← Nat.add_assoc]
    exact behind aligned.2.2

theorem pairUp_aligned (aligned : Aligned o blocks) (ok : AllOk blocks) (room : extent blocks ≤ 2 ^ 63)
    (none : NoneStraddle (scanPairs o blocks)) : Aligned o (pairUp blocks) := by
  induction blocks using pairUp.induct generalizing o with
  | case1 b d rest merge ih =>
    rw [scanPairs, if_pos merge, NoneStraddle, List.forall_mem_cons] at none
    rw [pairUp, if_pos merge]
    apply aligned.merge ok room merge fun right => none.1 right merge
    intro behind
    simp only [allOk_cons, extent_cons] at ok room
    exact ih behind ok.2.2 (by omega) none.2
  | case2 b d rest apart small ih =>
    rw [scanPairs, if_neg apart, if_pos small, NoneStraddle, List.forall_mem_cons] at none
    simp only [allOk_cons, extent_cons] at ok room
    rw [pairUp, if_neg apart, if_pos small]
    exact ⟨aligned.1, aligned.2.1, ih aligned.2.2 ok.2.2 (by omega) none.2⟩
  | case3 b d rest apart large ih =>
    rw [scanPairs, if_neg apart, if_neg large, NoneStraddle, List.forall_mem_cons] at none
    rw [allOk_cons] at ok
    rw [extent_cons] at room
    rw [pairUp, if_neg apart, if_neg large]
    exact ⟨aligned.1, ih aligned.2 ok.2 (by omega) none.2⟩
  | case4 blocks short =>
    rw [pairUp]
    · exact aligned
    · exact short

theorem scanPairs_placed (aligned : Aligned o blocks) (ok : AllOk blocks) :
    ∀ p ∈ scanPairs o blocks, p.Placed := by
  induction blocks using pairUp.induct generalizing o with
  | case1 b d rest merge ih =>
    simp only [allOk_cons] at ok
    rw [scanPairs, if_pos merge, List.forall_mem_cons]
    exact ⟨⟨ok.1, aligned.1⟩, ih aligned.2.2 ok.2.2⟩
  | case2 b d rest apart small ih =>
    simp only [allOk_cons] at ok
    rw [scanPairs, if_neg apart, if_pos small, List.forall_mem_cons]
    exact ⟨⟨ok.1, aligned.1⟩, ih aligned.2.2 ok.2.2⟩
  | case3 b d rest apart large ih =>
    rw [allOk_cons] at ok
    rw [scanPairs, if_neg apart, if_neg large, List.forall_mem_cons]
    exact ⟨⟨ok.1, aligned.1⟩, ih aligned.2 ok.2⟩
  | case4 blocks short =>
    rw [scanPairs]
    · simp
    · exact short

theorem passPairs_placed (aligned : Aligned o blocks) (ok : AllOk blocks) :
    ∀ p ∈ passPairs o blocks, p.Placed := by
  induction blocks using mergePass.induct generalizing o with
  | case1 b d rest merge ih =>
    simp only [allOk_cons] at ok
    rw [passPairs, if_pos merge, List.forall_mem_cons]
    exact ⟨⟨ok.1, aligned.1⟩, ih aligned.2.2 ok.2.2⟩
  | case2 b d rest apart small ih =>
    rw [allOk_cons] at ok
    rw [passPairs, if_neg apart, if_pos small, List.forall_mem_cons]
    exact ⟨⟨ok.1, aligned.1⟩, ih aligned.2 ok.2⟩
  | case3 b d rest apart large ih =>
    simp only [allOk_cons] at ok
    rw [passPairs, if_neg apart, if_neg large, List.forall_mem_cons]
    exact ⟨⟨ok.1, aligned.1⟩, ih aligned.2.2 ok.2.2⟩
  | case4 blocks short =>
    rw [passPairs]
    · simp
    · exact short

theorem mergePass_aligned (aligned : Aligned o blocks) (ok : AllOk blocks) (room : extent blocks ≤ 2 ^ 63)
    (none : NoneStraddle (passPairs o blocks)) : Aligned o (mergePass blocks).1 := by
  induction blocks using mergePass.induct generalizing o with
  | case1 b d rest merge ih =>
    rw [passPairs, if_pos merge, NoneStraddle, List.forall_mem_cons] at none
    rw [mergePass, if_pos merge]
    apply aligned.merge ok room merge fun right => none.1 right merge
    intro behind
    simp only [allOk_cons, extent_cons] at ok room
    exact ih behind ok.2.2 (by omega) none.2
  | case2 b d rest apart small ih =>
    rw [passPairs, if_neg apart, if_pos small, NoneStraddle, List.forall_mem_cons] at none
    rw [allOk_cons] at ok
    rw [extent_cons] at room
    rw [mergePass, if_neg apart, if_pos small]
    exact ⟨aligned.1, ih aligned.2 ok.2 (by omega) none.2⟩
  | case3 b d rest apart large ih =>
    rw [passPairs, if_neg apart, if_neg large, NoneStraddle, List.forall_mem_cons] at none
    simp only [allOk_cons, extent_cons] at ok room
    rw [mergePass, if_neg apart, if_neg large]
    exact ⟨aligned.1, aligned.2.1, ih aligned.2.2 ok.2.2 (by omega) none.2⟩
  | case4 blocks short =>
    rw [mergePass]
    · exact aligned
    · exact short

theorem NoneStraddle.append {front back : List Pair} :
    NoneStraddle (front ++ back) ↔ NoneStraddle front ∧ NoneStraddle back := List.forall_mem_append

theorem mergeAll_aligned (aligned : Aligned 0 blocks) (ok : AllOk blocks) (room : extent blocks ≤ 2 ^ 63)
    (none : NoneStraddle (mergeAllPairs fuel blocks)) :
    Aligned 0 (mergeAll fuel blocks) ∧ ∀ p ∈ mergeAllPairs fuel blocks, p.Placed := by
  induction fuel generalizing blocks with
  | zero => exact ⟨aligned, by simp [mergeAllPairs]⟩
  | succ fuel ih =>
    rw [mergeAllPairs, NoneStraddle.append] at none
    have once := mergePass_aligned aligned ok room none.1
    have placed := passPairs_placed aligned ok
    have same := (mergePass_coarsens blocks).sameUse 0 ok room
    rw [mergeAll, mergeAllPairs]
    split
    · exact ⟨once, by simpa using placed⟩
    · rename_i again
      rw [if_neg again] at none
      obtain ⟨later, placed'⟩ := ih once same.ok (same.extent_eq ▸ room) none.2
      exact ⟨later, List.forall_mem_append.mpr ⟨placed, placed'⟩⟩

theorem settled_aligned {request : Nat} (aligned : Aligned 0 blocks) (ok : AllOk blocks)
    (room : extent blocks ≤ 2 ^ 63) (none : NoneStraddle (searchPairs request blocks)) :
    Aligned 0 (settled request blocks) ∧ ∀ p ∈ searchPairs request blocks, p.Placed := by
  rw [searchPairs, NoneStraddle.append] at none
  have first := pairUp_aligned aligned ok room none.1
  have placed := scanPairs_placed aligned ok
  rw [settled, searchPairs]
  split
  · exact ⟨first, by simpa using placed⟩
  · rename_i missed
    rw [if_neg missed, NoneStraddle.append] at none
    have same := (pairUp_coarsens blocks).sameUse 0 ok room
    obtain ⟨_, same'⟩ := coalesced_spec 0 ok room
    obtain ⟨merged, placed'⟩ := mergeAll_aligned first same.ok (same.extent_eq ▸ room) none.2.1
    refine ⟨pairUp_aligned merged same'.ok (same'.extent_eq ▸ room) none.2.2, ?_⟩
    simp only [List.forall_mem_append]
    exact ⟨placed, placed', scanPairs_placed merged same'.ok⟩

theorem settled_ok {request : Nat} (ok : AllOk blocks) (room : extent blocks ≤ 2 ^ 63) :
    AllOk (settled request blocks) := by
  have same := (coalesced_spec 0 ok room).2
  rw [settled]
  split
  · exact ((pairUp_coarsens _).sameUse 0 ok room).ok
  · exact ((pairUp_coarsens _).sameUse 0 same.ok (same.extent_eq ▸ room)).ok

theorem splitParts_aligned {j k : Nat} (floor : 5 ≤ j) (le : j ≤ k) (ceiling : k ≤ 63) (multiple : 2 ^ k ∣ o) :
    Aligned o (splitParts (2 ^ j) fuel (2 ^ k)) := by
  induction fuel generalizing o k with
  | zero => trivial
  | succ fuel ih =>
    rw [splitParts]
    split
    · rename_i more
      have below : j < k := (Nat.pow_lt_pow_iff_right (by decide)).mp more
      obtain ⟨i, rfl⟩ : ∃ i, k = i + 1 := ⟨k - 1, by omega⟩
      obtain ⟨_, half⟩ := pow_actual (i := i) (by omega) (by omega) true
      have whole : 2 ^ i ∣ o := (Nat.pow_dvd_pow 2 (by omega)).trans multiple
      rw [half_pow]
      refine ⟨half.symm ▸ whole, ?_⟩
      rw [half]
      exact ih (k := i) (by omega) (by omega) ((Nat.dvd_add_right whole).mpr (Nat.dvd_refl _))
    · trivial

theorem Carves.aligned {j : Nat} {front back : List Blk} {c : Blk} (floor : 5 ≤ j) (ok : AllOk blocks)
    (carved : Carves (2 ^ j) blocks front c back) (wide : c.actual = 2 ^ j) (aligned : Aligned o blocks) :
    Aligned o (front ++ c :: back) := by
  obtain ⟨before, b, rfl, _, enough, rfl, _⟩ := carved
  obtain ⟨k, _, ceiling, class_eq⟩ := (allOk_cons.mp (allOk_append.mp ok).2).1.actual_class
  have le : j ≤ k := (Nat.pow_le_pow_iff_right (by decide)).mp (class_eq ▸ enough)
  obtain ⟨_, _, sum⟩ := splitParts_ok 64 floor le ceiling (by omega)
  obtain ⟨here, multiple, behind⟩ := aligned_append.mp aligned
  rw [class_eq] at multiple behind ⊢
  have parts : Aligned _ (splitParts (2 ^ j) 64 (2 ^ k)) := splitParts_aligned floor le ceiling multiple
  rw [List.append_assoc, aligned_append, aligned_append]
  refine ⟨here, parts, ?_, ?_⟩
  · rw [wide]
    -- the last part starts one part before a multiple of the whole block
    have whole : 2 ^ j ∣ o + extent before + 2 ^ k :=
      (Nat.pow_dvd_pow 2 le).trans ((Nat.dvd_add_right multiple).mpr (Nat.dvd_refl _))
    rw [← sum, ← Nat.add_assoc] at whole
    exact (Nat.dvd_add_left (Nat.dvd_refl _)).mp whole
  · rw [wide, Nat.add_assoc, sum]
    exact behind

namespace Arena

variable {h : Arena} {m : Mem} {base k : Nat}

/-- No search of the call merges a right half with the block behind it. -/
def BuddyCall (h : Arena) : Call → Prop
  | .malloc size => NoneStraddle (searchPairs (sizeRequired (size + 16)) h.layout)
  | .realloc _ _ => False
  | _ => True

theorem buddyCall_mallocFree (h : Arena) (c : Call) (permitted : BuddyCall h c) : MallocFree h c := by
  cases c with
  | realloc u n => exact permitted
  | _ => trivial

theorem Mallocs.aligned {size : Nat} {blocks blocks' : List Blk} (positive : 1 ≤ size) (small : size + 16 ≤ 2 ^ 63)
    (mallocs : Mallocs size blocks blocks') (ok : AllOk blocks) (room : extent blocks ≤ 2 ^ 63)
    (none : NoneStraddle (searchPairs (sizeRequired (size + 16)) blocks)) (aligned : Aligned 0 blocks) :
    Aligned 0 blocks' := by
  obtain ⟨_, j, floor, _, class_eq, _⟩ := request_class positive small
  unfold Mallocs at mallocs
  simp only [class_eq] at mallocs none
  have merged := (settled_aligned aligned ok room none).1
  split at mallocs
  · obtain ⟨front, c, back, carved, wide, rfl⟩ := mallocs
    have same : SameClasses (front ++ c :: back) (front ++ ⟨size + 16, false⟩ :: back) := by
      have here : Blk.actual ⟨size + 16, false⟩ = c.actual := class_eq.trans wide.symm
      simp [SameClasses, here]
    exact same.aligned (carved.aligned floor (settled_ok ok room) wide merged)
  · rw [mallocs]
    exact merged

theorem call_aligned {c : Call} {blocks : List Blk} (valid : h.Valid) (lays : h.Lays blocks) (legal : h.Legal c)
    (permitted : h.BuddyCall c) (aligned : Aligned 0 blocks) : Aligned 0 (h.call c).layout := by
  cases c with
  | malloc size =>
    obtain ⟨_, ⟨blocks', lays', _, mallocs⟩, _⟩ := malloc_spec valid lays legal
    obtain rfl := lays.layout_eq
    rw [lays'.layout_eq]
    exact mallocs.aligned legal.1 legal.2 lays.ok (lays.extent_le valid) permitted aligned
  | free u =>
    obtain ⟨⟨blocks', lays', _, same⟩, _⟩ := free_spec lays legal
    rw [lays'.layout_eq]
    exact same.aligned aligned
  | realloc u n => exact permitted.elim
  | store u offset value =>
    rw [(store_spec lays legal).1.layout_eq]
    exact aligned

theorem reachable_aligned (large : 5 ≤ k) (fits : base + 2 ^ k < 2 ^ 64)
    (run : Reachable BuddyCall m base (2 ^ k) h) : h.Valid ∧ h.Lays h.layout ∧ Aligned 0 h.layout := by
  have roomy : ∀ h c, BuddyCall h c → RoomyCall h c := fun h c permitted =>
    mallocFree_roomy h c (buddyCall_mallocFree h c permitted)
  have valid := reachable_valid large fits roomy run
  obtain ⟨blocks, lays⟩ := valid.lays
  refine ⟨valid, lays.layout_eq.symm ▸ lays, ?_⟩
  clear valid lays
  induction run with
  | init =>
    rw [(init_lays m large (exponent_le fits)).2.layout_eq]
    exact ⟨Nat.dvd_zero _, trivial⟩
  | @call h c run legal permitted ih =>
    have valid := reachable_valid large fits roomy run
    obtain ⟨blocks, lays⟩ := valid.lays
    exact call_aligned valid lays legal permitted (lays.layout_eq ▸ ih)

end Arena

end FishOS.Heap
