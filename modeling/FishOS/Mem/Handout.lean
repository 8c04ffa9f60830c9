import FishOS.Mem.Pmm

/-!
# Frames handed out

The next-fit search finds the first run of free frames between the cursor and its limit, and
misses none there. What it means for sequences of `alloc_pages`, and for its panic.
-/

namespace FishOS.Mem.Pmm

open Klib

def FreeRun (b : Bitmap) (i n : Nat) : Prop := ∀ j, i ≤ j → j < i + n → b.get j = false

theorem freeRun_iff {b : Bitmap} {i n : Nat} : (∀ k < n, b.get (i + k) = false) ↔ FreeRun b i n := by
  constructor
  · intro free j lower upper
    have at_j := free (j - i) (by omega)
    rwa [Nat.add_sub_cancel' lower] at at_j
  · exact fun run k inside => run (i + k) (by omega) (by omega)

instance (b : Bitmap) (i n : Nat) : Decidable (FreeRun b i n) := decidable_of_iff _ freeRun_iff

/-- What a search between `start` and `limit` leaves and returns. -/
inductive SearchOutcome (s : Pmm) (num_pages start limit : Nat) (outcome : Pmm × Nat) : Prop where
  | found (beginning : Nat) (lower : start ≤ beginning) (upper : beginning + num_pages ≤ limit)
      (free : FreeRun s.bitmap beginning num_pages) (same : outcome =
        (setRange { s with pageBitmapIndex := beginning + num_pages } beginning num_pages, beginning * 0x1000))
  | missed (cursor : Nat) (none : ∀ i, start ≤ i → i + num_pages ≤ limit → ¬FreeRun s.bitmap i num_pages)
      (same : outcome = ({ s with pageBitmapIndex := cursor }, 0))

theorem SearchOutcome.of_cursor {s : Pmm} {num_pages start limit cursor : Nat} {outcome : Pmm × Nat}
    (searched : SearchOutcome { s with pageBitmapIndex := cursor } num_pages start limit outcome) :
    SearchOutcome s num_pages start limit outcome := by
  cases searched with
  | found beginning lower upper free same => exact .found beginning lower upper free same
  | missed cursor none same => exact .missed cursor none same

/-- Before the cursor lie `pages` free frames, behind a used frame or the start, and no whole run. -/
structure Searching (s : Pmm) (num_pages start pages : Nat) : Prop where
  short : pages < num_pages
  behind : start + pages ≤ s.pageBitmapIndex
  free : FreeRun s.bitmap (s.pageBitmapIndex - pages) pages
  stopped : start + pages = s.pageBitmapIndex ∨ s.bitmap.get (s.pageBitmapIndex - pages - 1) = true
  none : ∀ i, start ≤ i → i + num_pages ≤ s.pageBitmapIndex → ¬FreeRun s.bitmap i num_pages

section Search

variable {s : Pmm} {num_pages start limit pages : Nat}

theorem Searching.free_snoc (searching : Searching s num_pages start pages)
    (clear : s.bitmap.get s.pageBitmapIndex = false) :
    FreeRun s.bitmap (s.pageBitmapIndex - pages) (pages + 1) := by
  intro j lower upper
  have behind := searching.behind
  by_cases last : j = s.pageBitmapIndex
  · exact last ▸ clear
  · exact searching.free j lower (by omega)

theorem Searching.clear (searching : Searching s num_pages start pages)
    (clear : s.bitmap.get s.pageBitmapIndex = false) (open' : pages + 1 ≠ num_pages) :
    Searching { s with pageBitmapIndex := s.pageBitmapIndex + 1 } num_pages start (pages + 1) := by
  have short := searching.short
  have behind := searching.behind
  have back : s.pageBitmapIndex + 1 - (pages + 1) = s.pageBitmapIndex - pages := by omega
  refine ⟨by omega, by dsimp only; omega, ?_, ?_, ?_⟩
  · dsimp only
    rw [back]
    exact searching.free_snoc clear
  · dsimp only
    rw [back]
    exact searching.stopped.imp (by omega) id
  · intro i lower upper run
    dsimp only at upper run
    by_cases last : i + num_pages = s.pageBitmapIndex + 1
    · -- a run that ends here is longer than the frames counted, so it holds the used frame before them
      rcases searching.stopped with first | used
      · omega
      · rw [run (s.pageBitmapIndex - pages - 1) (by omega) (by omega)] at used
        cases used
    · exact searching.none i lower (by omega) run

theorem Searching.used (searching : Searching s num_pages start pages)
    (used : s.bitmap.get s.pageBitmapIndex = true) :
    Searching { s with pageBitmapIndex := s.pageBitmapIndex + 1 } num_pages start 0 := by
  have short := searching.short
  have behind := searching.behind
  refine ⟨by omega, by dsimp only; omega, fun j lower upper => absurd upper (Nat.not_lt.mpr lower), Or.inr used,
    ?_⟩
  intro i lower upper run
  dsimp only at upper run
  by_cases last : i + num_pages = s.pageBitmapIndex + 1
  · rw [run s.pageBitmapIndex (by omega) (by omega)] at used
    cases used
  · exact searching.none i lower (by omega) run

theorem innerAllocLoop_outcome {fuel : Nat} (searching : Searching s num_pages start pages)
    (cursor : s.pageBitmapIndex ≤ limit) (enough : limit - s.pageBitmapIndex ≤ fuel) :
    SearchOutcome s num_pages start limit (innerAllocLoop num_pages limit fuel s pages) := by
  induction fuel generalizing s pages with
  | zero => exact .missed s.pageBitmapIndex (fun i lower upper => searching.none i lower (by omega)) rfl
  | succ fuel ih =>
    unfold innerAllocLoop
    split
    · split
      · rename_i inside bit
        have clear : s.bitmap.get s.pageBitmapIndex = false := by simpa using bit
        dsimp only
        split
        · rename_i full
          have behind := searching.behind
          have beginning : s.pageBitmapIndex + 1 - num_pages = s.pageBitmapIndex - pages := by omega
          have run := searching.free_snoc clear
          rw [full] at run
          have cursor' : s.pageBitmapIndex - pages + num_pages = s.pageBitmapIndex + 1 := by omega
          refine .found (s.pageBitmapIndex - pages) (by omega) (by omega) run ?_
          rw [beginning, cursor']
        · rename_i open'
          exact (ih (searching.clear clear open') (by dsimp only; omega) (by dsimp only; omega)).of_cursor
      · rename_i inside bit
        have used : s.bitmap.get s.pageBitmapIndex = true := by simpa using bit
        exact (ih (searching.used used) (by dsimp only; omega) (by dsimp only; omega)).of_cursor
    · exact .missed s.pageBitmapIndex (fun i lower upper => searching.none i lower (by omega)) rfl

theorem innerAlloc_outcome (positive : 1 ≤ num_pages) :
    SearchOutcome s num_pages s.pageBitmapIndex limit (s.innerAlloc num_pages limit) := by
  by_cases cursor : s.pageBitmapIndex ≤ limit
  · refine innerAllocLoop_outcome ⟨positive, Nat.le_refl _, ?_, Or.inl rfl, ?_⟩ cursor (Nat.le_refl _)
    · exact fun j lower upper => absurd upper (Nat.not_lt.mpr lower)
    · intro i lower upper
      omega
  · have none : limit - s.pageBitmapIndex = 0 := by omega
    unfold innerAlloc
    rw [none]
    refine .missed s.pageBitmapIndex ?_ rfl
    intro i lower upper
    omega

theorem FreeRun.pos {b : Bitmap} {i n : Nat} (run : FreeRun b i n) (zero : b.get 0 = true)
    (positive : 1 ≤ n) : 0 < i := by
  apply Nat.pos_of_ne_zero
  intro start
  rw [run 0 (by omega) (by omega)] at zero
  cases zero

/-- What `alloc_pages` does: it takes a run on one side of the cursor, or there is none on either. -/
inductive AllocOutcome (s : Pmm) (num_pages : Nat) (outcome : Option (Pmm × Nat)) : Prop where
  | found (beginning : Nat) (positive : 0 < beginning)
      (side : s.pageBitmapIndex ≤ beginning ∧ beginning + num_pages ≤ s.bitmap.mSize ∨
        beginning + num_pages ≤ s.pageBitmapIndex)
      (free : FreeRun s.bitmap beginning num_pages) (same : outcome = some
        ({ bitmap := (s.setRange beginning num_pages).bitmap, pageBitmapIndex := beginning + num_pages,
           totalAllocated := s.totalAllocated + num_pages * 0x1000 }, beginning * 0x1000))
  | exhausted (above : ∀ i, s.pageBitmapIndex ≤ i → i + num_pages ≤ s.bitmap.mSize → ¬FreeRun s.bitmap i num_pages)
      (below : ∀ i, i + num_pages ≤ s.pageBitmapIndex → ¬FreeRun s.bitmap i num_pages) (same : outcome = none)

theorem setRange_counters (s : Pmm) (cursor i n : Nat) : setRange { s with pageBitmapIndex := cursor } i n =
    { bitmap := (s.setRange i n).bitmap, pageBitmapIndex := cursor, totalAllocated := s.totalAllocated } := by
  induction n generalizing s i with
  | zero => rfl
  | succ n ih =>
    unfold setRange
    exact ih { s with bitmap := s.bitmap.set i true } (i + 1)

theorem allocPages_eq (s : Pmm) (num_pages : Nat) : s.allocPages num_pages =
    let first := s.innerAlloc num_pages s.bitmap.mSize
    if first.2 ≠ 0 then
      some ({ first.1 with totalAllocated := first.1.totalAllocated + num_pages * 0x1000 }, first.2)
    else
      let second := innerAlloc { first.1 with pageBitmapIndex := 0 } num_pages s.pageBitmapIndex
      if second.2 ≠ 0 then
        some ({ second.1 with totalAllocated := second.1.totalAllocated + num_pages * 0x1000 }, second.2)
      else none := by
  unfold allocPages
  dsimp only
  split
  · rename_i first
    rw [first, if_neg (by simp)]
    dsimp only
    split
    · rename_i second
      rw [second, if_neg (by simp)]
    · rename_i nonzero second
      rw [second, if_pos nonzero]
  · rename_i nonzero first
    rw [first, if_pos nonzero]

theorem allocPages_outcome (zero : s.bitmap.get 0 = true) (positive : 1 ≤ num_pages) :
    AllocOutcome s num_pages (s.allocPages num_pages) := by
  have first : SearchOutcome s num_pages s.pageBitmapIndex s.bitmap.mSize (s.innerAlloc num_pages s.bitmap.mSize) :=
    innerAlloc_outcome positive
  rw [allocPages_eq]
  cases first with
  | found beginning lower upper free same =>
    have pos := free.pos zero positive
    rw [same, if_pos (by dsimp only; omega), setRange_counters]
    exact .found beginning pos (Or.inl ⟨lower, upper⟩) free rfl
  | missed cursor none same =>
    rw [same, if_neg (by simp)]
    have second : SearchOutcome { s with pageBitmapIndex := 0 } num_pages 0 s.pageBitmapIndex
        (innerAlloc { s with pageBitmapIndex := 0 } num_pages s.pageBitmapIndex) := innerAlloc_outcome positive
    cases second with
    | found beginning lower upper free same =>
      have pos := free.pos zero positive
      dsimp only
      rw [same, if_pos (by dsimp only; omega), setRange_counters _ _, setRange_counters s 0]
      exact .found beginning pos (Or.inr upper) free rfl
    | missed cursor' none' same =>
      dsimp only
      rw [same, if_neg (by simp)]
      exact .exhausted none (fun i upper => none' i (Nat.zero_le i) upper) rfl

end Search

structure Call where
  before : Pmm
  numPages : Nat
  after : Pmm
  result : Nat

namespace Call

def Holds (c : Call) (i : Nat) : Prop := c.result / 0x1000 ≤ i ∧ i < c.result / 0x1000 + c.numPages

theorem holds_mul {before after : Pmm} {num_pages beginning i : Nat} :
    Holds { before := before, numPages := num_pages, after := after, result := beginning * 0x1000 } i ↔
      beginning ≤ i ∧ i < beginning + num_pages := by
  unfold Holds
  dsimp only
  rw [Nat.mul_div_cancel _ (by decide)]

/-- A call takes frames that were free, and changes nothing else. -/
structure Fresh (c : Call) : Prop where
  nonzero : c.result ≠ 0
  aligned : c.result % 0x1000 = 0
  inside : ∀ i, c.Holds i → i < c.before.bitmap.mSize
  free : ∀ i, c.Holds i → c.before.bitmap.get i = false
  changed : ∀ i, c.after.bitmap.get i ≠ c.before.bitmap.get i ↔ c.Holds i
  size : c.after.bitmap.mSize = c.before.bitmap.mSize
  cursor : c.after.pageBitmapIndex ≤ c.after.bitmap.mSize
  counted : c.after.totalAllocated = c.before.totalAllocated + c.numPages * 0x1000

end Call

def allocAll (s : Pmm) : List Nat → Option (List Call)
  | [] => some []
  | num_pages :: rest => do
    let (s', result) ← s.allocPages num_pages
    let calls ← allocAll s' rest
    some ({ before := s, numPages := num_pages, after := s', result := result } :: calls)

section Calls

variable {s s' : Pmm} {num_pages result : Nat}

theorem allocPages_fresh (zero : s.bitmap.get 0 = true) (cursor : s.pageBitmapIndex ≤ s.bitmap.mSize)
    (positive : 1 ≤ num_pages) (found : s.allocPages num_pages = some (s', result)) :
    Call.Fresh { before := s, numPages := num_pages, after := s', result := result } := by
  have outcome := allocPages_outcome zero positive
  rw [found] at outcome
  cases outcome with
  | exhausted above below same => cases same
  | found beginning pos side free same =>
    obtain ⟨rfl, rfl⟩ := Prod.mk.inj (Option.some.inj same)
    have upper : beginning + num_pages ≤ s.bitmap.mSize := by omega
    refine ⟨by dsimp only; omega, Nat.mul_mod_left _ _, ?_, ?_, ?_,
      mSize_setRange _ _ _, ?_, rfl⟩
    · intro i holds
      have holds := Call.holds_mul.mp holds
      dsimp only
      omega
    · intro i holds
      exact free i (Call.holds_mul.mp holds).1 (Call.holds_mul.mp holds).2
    · intro i
      rw [Call.holds_mul]
      dsimp only
      rw [get_setRange]
      by_cases here : beginning ≤ i ∧ i < beginning + num_pages
      · rw [decide_eq_true here, free i here.1 here.2]
        simp [here]
      · simp [here]
    · dsimp only
      rw [mSize_setRange]
      exact upper

/-- The calls of a sequence take frames that were free at its start, each only once. -/
theorem frames_handed_out_once {counts : List Nat} {calls : List Call} (zero : s.bitmap.get 0 = true)
    (cursor : s.pageBitmapIndex ≤ s.bitmap.mSize) (positive : ∀ n ∈ counts, 1 ≤ n)
    (ran : s.allocAll counts = some calls) :
    (∀ c ∈ calls, c.Fresh) ∧ (∀ c ∈ calls, ∀ i, c.Holds i → s.bitmap.get i = false) ∧
      calls.Pairwise fun c d => ∀ i, c.Holds i → ¬d.Holds i := by
  induction counts generalizing s calls with
  | nil =>
    obtain rfl := Option.some.inj ran
    exact ⟨fun c member => (nomatch member), fun c member => (nomatch member), .nil⟩
  | cons num_pages rest ih =>
    obtain ⟨⟨s', result⟩, found, ran⟩ := Option.bind_eq_some_iff.mp ran
    obtain ⟨later, followed, returned⟩ := Option.bind_eq_some_iff.mp ran
    obtain rfl := Option.some.inj returned
    have fresh := allocPages_fresh zero cursor (positive num_pages (.head _)) found
    have zero' : s'.bitmap.get 0 = true := by
      by_contra cleared
      have moved := (fresh.changed 0).mp fun same => cleared (same.trans zero)
      rw [fresh.free 0 moved] at zero
      cases zero
    obtain ⟨each, untouched, disjoint⟩ :=
      ih zero' fresh.cursor (fun n member => positive n (.tail _ member)) followed
    -- a later call finds only frames that this one left free
    have apart : ∀ d ∈ later, ∀ i, Call.Holds ⟨s, num_pages, s', result⟩ i → ¬d.Holds i := by
      intro d member i here there
      have changed := (fresh.changed i).mpr here
      rw [untouched d member i there, fresh.free i here] at changed
      exact changed rfl
    refine ⟨List.forall_mem_cons.mpr ⟨fresh, each⟩, List.forall_mem_cons.mpr ⟨fresh.free, ?_⟩,
      List.pairwise_cons.mpr ⟨apart, disjoint⟩⟩
    intro d member i there
    have same : s'.bitmap.get i = s.bitmap.get i := by
      by_contra moved
      exact apart d member i ((fresh.changed i).mp moved) there
    rw [← same]
    exact untouched d member i there

end Calls

/-- Eight frames: 0 and those from 5 on are in use, and the cursor is at 3. -/
def halfway : Pmm :=
  { bitmap := { mBuffer := fun i => if i = 0 then 0xE1 else 0, mSize := 8 }, pageBitmapIndex := 3, totalAllocated := 0x4000 }

theorem frames_handed_out_once_halfway : ∃ calls, halfway.allocAll [2, 1] = some calls ∧ calls.length = 2 ∧
    calls.Pairwise fun c d => ∀ i, c.Holds i → ¬d.Holds i := by
  have evaluated : (halfway.allocAll [2, 1]).map List.length = some 2 := by decide
  obtain ⟨calls, ran, length⟩ := Option.map_eq_some_iff.mp evaluated
  exact ⟨calls, ran, length, (frames_handed_out_once (by decide) (by decide) (by decide) ran).2.2⟩

def HasRun (s : Pmm) (num_pages : Nat) : Prop := ∃ i, i + num_pages ≤ s.bitmap.mSize ∧ FreeRun s.bitmap i num_pages

def HasRunBeside (s : Pmm) (num_pages : Nat) : Prop :=
  ∃ i, FreeRun s.bitmap i num_pages ∧
    (s.pageBitmapIndex ≤ i ∧ i + num_pages ≤ s.bitmap.mSize ∨ i + num_pages ≤ s.pageBitmapIndex)

theorem allocPages_eq_none_iff {s : Pmm} {num_pages : Nat} (zero : s.bitmap.get 0 = true)
    (positive : 1 ≤ num_pages) :
    s.allocPages num_pages = none ↔ ¬HasRunBeside s num_pages := by
  have outcome := allocPages_outcome (s := s) zero positive
  cases outcome with
  | found beginning pos side free same =>
    rw [same]
    exact ⟨fun none => (nomatch none), fun missed => absurd ⟨beginning, free, side⟩ missed⟩
  | exhausted above below same =>
    rw [same]
    refine ⟨?_, fun _ => rfl⟩
    rintro _ ⟨i, free, side⟩
    rcases side with ⟨lower, upper⟩ | upper
    · exact above i lower upper free
    · exact below i upper free

/-- The panic means that memory is exhausted, unless the only runs that are long enough lie
across the cursor. -/
theorem out_of_memory_iff {s : Pmm} {num_pages : Nat} (zero : s.bitmap.get 0 = true)
    (positive : 1 ≤ num_pages) :
    (s.allocPages num_pages = none → ¬HasRun s num_pages) ↔
      (HasRun s num_pages → HasRunBeside s num_pages) := by
  rw [allocPages_eq_none_iff zero positive]
  exact not_imp_not

theorem out_of_memory_iff_halfway :
    HasRunBeside halfway 2 ∧ ¬(halfway.allocPages 2 = none ∧ HasRun halfway 2) := by
  have beside : HasRunBeside halfway 2 := ⟨3, by decide, Or.inl (by decide)⟩
  refine ⟨beside, ?_⟩
  rintro ⟨failed, run⟩
  exact (out_of_memory_iff (by decide) (by decide)).mpr (fun _ => beside) failed run

/-- Frames 1 to 4 are free, but the search from 3 to 8 sees only two of them, and so does the one from 0 to 3. -/
theorem out_of_memory_early : halfway.bitmap.get 0 = true ∧ halfway.allocPages 3 = none ∧ HasRun halfway 3 :=
  ⟨by decide, by decide, 1, by decide, by decide⟩

end FishOS.Mem.Pmm
