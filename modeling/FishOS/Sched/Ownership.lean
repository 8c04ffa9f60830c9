import FishOS.Lib.Forest
import FishOS.Sched.KernelHalf

/-!
# Who owns a table and a frame

Below the kernel half every table hangs below one PML4 only, and a frame that user code
reaches stands in one entry only and holds no table. The walks of `mem::vmm` keep this,
each below its own root.
-/

namespace FishOS.Sched

open RadixTree FishOS.Mem FishOS.Mem.Pmm FishOS.Fs FishOS.Userland

theorem closed_lowerKeys : Closed lowerKeys := by
  rintro q q' ⟨rest, rfl⟩ lower i head
  apply lower
  rw [List.head?_append, Option.mem_def.mp head]
  rfl

/-- The frame that user code reaches through an entry of the last level. -/
def userFrame (w : Nat) : Option Nat :=
  if w &&& pagePresent ≠ 0 ∧ w &&& pageUser ≠ 0 then some (w &&& addressMask) else none

def tableFlags : Nat := pagePresent ||| pageWritable ||| pageUser

def Referenced (s : Phys) (lab : Nat → Option (List (Fin 512))) (frame : Nat) : Prop :=
  ∃ t p i, lab t = some p ∧ p.length = 3 ∧ userFrame (word s.m t i) = some frame

structure Owned (s : Phys) (lab : Nat → Option (List (Fin 512))) : Prop where
  tables : Tables s lab
  trees : Unshared next (word s.m) 4 lab lowerKeys
  flags : ∀ {t p i c}, lab t = some p → p.length < 3 → next (word s.m t i) = some c →
    word s.m t i &&& tableFlags = tableFlags
  frames : ∀ {frame}, Referenced s lab frame → DataFrame s lab frame
  single : ∀ {t p i t' p' i' frame}, lab t = some p → p.length = 3 → lab t' = some p' → p'.length = 3 →
    userFrame (word s.m t i) = some frame → userFrame (word s.m t' i') = some frame → t = t' ∧ i = i'

/-- A step on the tables below one root. -/
structure OwnStep (K : Set (List (Fin 512))) (root : Nat) (s : Phys) (lab : Nat → Option (List (Fin 512)))
    (s' : Phys) (lab' : Nat → Option (List (Fin 512))) : Prop extends Step K s lab s' lab' where
  owned : Owned s' lab'
  below : Below next 4 lowerKeys root (word s.m) lab (word s'.m) lab'

section Steps

variable {s s₁ s' : Phys} {lab lab₁ lab' lab'' : Nat → Option (List (Fin 512))} {K K' : Set (List (Fin 512))}
  {t t' root frame : Nat} {p : List (Fin 512)} {i : Fin 512}

theorem OwnStep.trans (first : OwnStep K root s lab s₁ lab₁) (second : OwnStep K root s₁ lab₁ s' lab')
    (top : lab root = some []) : OwnStep K root s lab s' lab' where
  toStep := first.toStep.trans second.toStep
  owned := second.owned
  below := first.below.trans second.below closed_lowerKeys first.tables.labels (first.keeps top) first.keeps

theorem OwnStep.mono (step : OwnStep K root s lab s' lab') (within : ∀ key ∈ K, ∃ key' ∈ K', key <+: key') :
    OwnStep K' root s lab s' lab' :=
  { step.toStep.mono within with
    owned := step.owned
    below := step.below }

/-- A step that brings no entry for user code. -/
theorem Owned.of_leafs (owned : Owned s lab) (step : Step K s lab s' lab')
    (trees : Unshared next (word s'.m) 4 lab' lowerKeys)
    (flags : ∀ {u q j c}, lab' u = some q → q.length < 3 → next (word s'.m u j) = some c →
      word s'.m u j &&& tableFlags = tableFlags)
    (leafs : ∀ {u q j frame}, lab' u = some q → q.length = 3 → userFrame (word s'.m u j) = some frame →
      lab u = some q ∧ userFrame (word s.m u j) = some frame) : Owned s' lab' where
  tables := step.tables
  trees := trees
  flags := flags
  frames := by
    rintro frame ⟨u, q, j, label, length, found⟩
    obtain ⟨before, found⟩ := leafs label length found
    exact (owned.frames ⟨u, q, j, before, length, found⟩).step step
  single label length label' length' found found' := by
    obtain ⟨before, found⟩ := leafs label length found
    obtain ⟨before', found'⟩ := leafs label' length' found'
    exact owned.single before length before' length' found found'

/-- A step that goes to no entry at all. -/
theorem Owned.quiet (owned : Owned s lab) (step : Step ∅ s lab s' lab) : OwnStep K root s lab s' lab := by
  have same : ∀ {u q j}, lab u = some q → word s'.m u j = word s.m u j := fun label =>
    step.only label fun _ absurd => absurd.elim
  have anywhere : Step K s lab s' lab := step.mono fun _ absurd => absurd.elim
  refine { anywhere with owned := ?_, below := .of_same same id }
  apply owned.of_leafs step (owned.trees.congr fun label _ => same label)
  · intro u q j c label short below
    rw [same label] at below ⊢
    exact owned.flags label short below
  · intro u q j frame label _ found
    rw [same label] at found
    exact ⟨label, found⟩

theorem Referenced.quiet (step : Step ∅ s lab s' lab) (referenced : Referenced s' lab frame) : Referenced s lab frame := by
  obtain ⟨u, q, j, label, length, found⟩ := referenced
  rw [step.only label fun _ absurd => absurd.elim] at found
  exact ⟨u, q, j, label, length, found⟩

/-- Labels that a step added may be left out again. -/
theorem step_restrict (step : Step K s lab s' lab') (labels : Labelling next (word s'.m) 4 lab'')
    (fewer : ∀ {t p}, lab'' t = some p → lab' t = some p) (keeps : ∀ {t p}, lab t = some p → lab'' t = some p) :
    Step K s lab s' lab'' :=
  { step with
    tables :=
      { step.tables with
        labels := labels
        aligned := fun label => step.tables.aligned (fewer label)
        taken := fun label => step.tables.taken (fewer label) }
    keeps := keeps
    fresh := fun label => step.fresh (fewer label) }

theorem table_flags (table : Nat) :
    (table ||| pagePresent ||| pageWritable ||| pageUser) &&& tableFlags = tableFlags := by
  have shape : table ||| pagePresent ||| pageWritable ||| pageUser = table ||| tableFlags := by
    rw [Nat.or_assoc, Nat.or_assoc]
    rfl
  rw [shape]
  apply Nat.eq_of_testBit_eq
  intro j
  rw [Nat.testBit_and, Nat.testBit_or]
  cases table.testBit j <;> simp

/-- The words after a new table was hung into an entry. -/
theorem hang_words (tables : Tables s lab) (here : lab t = some p) (allocated : s.allocZeroed = some (s₁, t'))
    (same : s' = { s₁ with m := setEntry s₁.m t i (t' ||| pagePresent ||| pageWritable ||| pageUser) }) :
    word s'.m t i = t' ||| pagePresent ||| pageWritable ||| pageUser ∧ (∀ j, word s'.m t' j = 0) ∧
      ∀ {u q j}, lab u = some q → ¬(u = t ∧ j = i) → word s'.m u j = word s.m u j := by
  obtain ⟨handed, step, cleared⟩ := allocZeroed_step (K := ∅) tables allocated
  have words : ∀ {u} j, u % 0x1000 = 0 → word s'.m u j =
      if u = t ∧ j = i then t' ||| pagePresent ||| pageWritable ||| pageUser else word s₁.m u j := by
    intro u j aligned
    rw [same, word_setEntry s₁.m _ i j (tables.aligned here) aligned, Nat.mod_eq_of_lt (table_lt handed.bounded)]
  refine ⟨?_, ?_, ?_⟩
  · rw [words i (tables.aligned here), if_pos ⟨rfl, rfl⟩]
  · intro j
    rw [words j handed.aligned, if_neg, cleared, word_memset_self]
    rintro ⟨rfl, -⟩
    rw [handed.unlabelled tables] at here
    cases here
  · intro u q j label place
    rw [words j (tables.aligned label), if_neg place, step.only label fun _ absurd => absurd.elim]

theorem Owned.hang (owned : Owned s lab) (top : lab root = some []) (way : follow next (word s.m) root p = some t)
    (short : p.length < 3) (free : next (word s.m t i) = none) (allocated : s.allocZeroed = some (s₁, t'))
    (same : s' = { s₁ with m := setEntry s₁.m t i (t' ||| pagePresent ||| pageWritable ||| pageUser) }) :
    ∃ lab', OwnStep {p ++ [i]} root s lab s' lab' ∧ (∀ {frame}, Referenced s' lab' frame → Referenced s lab frame) ∧
      next (word s'.m t i) = some t' := by
  have tables := owned.tables
  have here : lab t = some p := tables.labels.follow_label top (by rw [List.length_nil]; omega) way
  obtain ⟨handed, -, -⟩ := allocZeroed_step (K := ∅) tables allocated
  have unlabelled := handed.unlabelled tables
  obtain ⟨lab₁, step, label, hung⟩ := tables.hang here short free allocated same
  obtain ⟨value, blank, off⟩ := hang_words tables here allocated same
  have none : ∀ j, next (word s'.m t' j) = .none := fun j => by rw [blank j, next_zero]
  have split : ∀ {u q}, Function.update lab t' (some (p ++ [i])) u = some q →
      (u = t' ∧ q = p ++ [i]) ∨ (u ≠ t' ∧ lab u = some q) := fun {u q} label => by
    by_cases new : u = t'
    · rw [new, Function.update_self, Option.some.injEq] at label
      exact Or.inl ⟨new, label.symm⟩
    · exact Or.inr ⟨new, by rwa [Function.update_of_ne new] at label⟩
  have exact := step_restrict step (tables.labels.grow here (by omega) unlabelled hung none fun _ _ _ => off)
    (fun label' => (split label').elim (fun new => new.1 ▸ new.2 ▸ label) fun old => step.keeps old.2)
    fun {u q} label' => by
      rw [Function.update_of_ne]
      · exact label'
      · rintro rfl
        rw [unlabelled] at label'
        cases label'
  have leafs : ∀ {u q j frame}, Function.update lab t' (some (p ++ [i])) u = some q → q.length = 3 →
      userFrame (word s'.m u j) = some frame → lab u = some q ∧ userFrame (word s.m u j) = some frame := by
    intro u q j frame label' length found
    rcases split label' with ⟨rfl, -⟩ | ⟨-, old⟩
    · rw [blank j] at found
      cases found
    · refine ⟨old, ?_⟩
      rwa [off old] at found
      rintro ⟨rfl, -⟩
      obtain rfl := Option.some.inj (old.symm.trans here)
      omega
  refine ⟨_, { exact with owned := ?_, below := .hang way here unlabelled hung none off }, ?_, hung⟩
  · apply owned.of_leafs exact (owned.trees.hang tables.labels unlabelled hung none off) ?_ leafs
    intro u q j c label' inner below
    rcases split label' with ⟨rfl, -⟩ | ⟨-, old⟩
    · rw [none] at below
      cases below
    · by_cases place : u = t ∧ j = i
      · rw [place.1, place.2, value, table_flags]
      · rw [off old place] at below ⊢
        exact owned.flags old inner below
  · rintro frame ⟨u, q, j, label', length, found⟩
    obtain ⟨old, found⟩ := leafs label' length found
    exact ⟨u, q, j, old, length, found⟩

theorem pageTableNextLevel_own (owned : Owned s lab) (top : lab root = some [])
    (way : follow next (word s.m) root p = some t) (short : p.length < 3)
    (found : pageTableNextLevel s t i = some (s', t')) :
    ∃ lab', OwnStep {p ++ [i]} root s lab s' lab' ∧ (∀ {frame}, Referenced s' lab' frame → Referenced s lab frame) ∧
      follow next (word s'.m) root (p ++ [i]) = some t' := by
  cases below : next (word s.m t i) with
  | none =>
    obtain ⟨s₁, allocated, same⟩ := pageTableNextLevel_absent below found
    obtain ⟨lab', step, old, hung⟩ := owned.hang top way short below allocated same
    have way' := step.follow owned.tables top (by omega) way
    exact ⟨lab', step, old, by rw [follow_snoc, way', Option.bind_some, hung]⟩
  | some u =>
    rw [pageTableNextLevel_present below] at found
    obtain ⟨rfl, rfl⟩ := Prod.mk.inj (Option.some.inj found)
    exact ⟨lab, owned.quiet (.refl owned.tables), id, by rw [follow_snoc, way, Option.bind_some, below]⟩

theorem lastTable_own {virt : Nat} (owned : Owned s lab) (top : lab root = some [])
    (found : lastTable s root virt = some (s', t)) :
    ∃ lab', OwnStep {tablePath virt} root s lab s' lab' ∧
      (∀ {frame}, Referenced s' lab' frame → Referenced s lab frame) ∧
      follow next (word s'.m) root (tablePath virt) = some t := by
  unfold lastTable at found
  obtain ⟨⟨s₁, t₁⟩, found₁, found⟩ := Option.bind_eq_some_iff.mp found
  obtain ⟨⟨s₂, t₂⟩, found₂, found₃⟩ := Option.bind_eq_some_iff.mp found
  obtain ⟨lab₁, step₁, old₁, way₁⟩ :=
    pageTableNextLevel_own (p := []) (i := level virt 39) owned top rfl (by decide) found₁
  have top₁ := step₁.keeps top
  obtain ⟨lab₂, step₂, old₂, way₂⟩ :=
    pageTableNextLevel_own (i := level virt 30) step₁.owned top₁ way₁ (by simp) found₂
  have top₂ := step₂.keeps top₁
  obtain ⟨lab₃, step₃, old₃, way₃⟩ :=
    pageTableNextLevel_own (i := level virt 21) step₂.owned top₂ way₂ (by simp) found₃
  have within : ∀ front, front <+: tablePath virt → ∀ key ∈ ({front} : Set (List (Fin 512))),
      ∃ key' ∈ ({tablePath virt} : Set (List (Fin 512))), key <+: key' :=
    fun front prefixed key member => ⟨_, rfl, member ▸ prefixed⟩
  have step₁₂ := (step₁.mono (within _ ⟨[_, _], rfl⟩)).trans (step₂.mono (within _ ⟨[_], rfl⟩)) top
  exact ⟨lab₃, step₁₂.trans step₃ top, fun referenced => old₁ (old₂ (old₃ referenced)), way₃⟩

/-- What an entry of the last level may be set to: nothing for user code, or a frame of its own. -/
def Settable (s : Phys) (lab : Nat → Option (List (Fin 512))) (w : Nat) : Prop :=
  ∀ frame, userFrame w = some frame → DataFrame s lab frame ∧ ¬Referenced s lab frame

theorem Settable.step {w : Nat} (settable : Settable s lab w) (step : Step K s lab s' lab')
    (old : ∀ {frame}, Referenced s' lab' frame → Referenced s lab frame) : Settable s' lab' w := by
  intro frame found
  obtain ⟨data, unreferenced⟩ := settable frame found
  exact ⟨data.step step, fun referenced => unreferenced (old referenced)⟩

theorem Settable.of_none {w : Nat} (none : userFrame w = .none) : Settable s lab w := by
  intro frame found
  rw [none] at found
  cases found

theorem Owned.setLeaf {virt v : Nat} (owned : Owned s lab) (top : lab root = some [])
    (way : follow next (word s.m) root (tablePath virt) = some t) (settable : Settable s lab (v % 2 ^ 64)) :
    OwnStep {path virt} root s lab { s with m := setEntry s.m t (level virt 12) v } lab ∧
      reach next (word (setEntry s.m t (level virt 12) v)) root (path virt) = some (v % 2 ^ 64) := by
  obtain ⟨step, stored⟩ := owned.tables.setLeaf (v := v) top way
  have here : lab t = some (tablePath virt) := owned.tables.labels.follow_label top (by simp) way
  have words : ∀ {u q} j, lab u = some q → word (setEntry s.m t (level virt 12) v) u j =
      if u = t ∧ j = level virt 12 then v % 2 ^ 64 else word s.m u j := fun j label =>
    word_setEntry s.m v _ j (owned.tables.aligned here) (owned.tables.aligned label)
  have other : ∀ {u q j}, lab u = some q → u ≠ t → word (setEntry s.m t (level virt 12) v) u j = word s.m u j :=
    fun {u q j} label apart => by rw [words j label, if_neg fun place => apart place.1]
  have inner : ∀ {u q j}, lab u = some q → q.length + 1 < 4 →
      word (setEntry s.m t (level virt 12) v) u j = word s.m u j := by
    intro u q j label short
    apply other label
    rintro rfl
    obtain rfl := Option.some.inj (label.symm.trans here)
    exact absurd short (by simp [tablePath])
  -- the new entry, or an old one
  have split : ∀ {u q j frame}, lab u = some q → q.length = 3 →
      userFrame (word (setEntry s.m t (level virt 12) v) u j) = some frame →
      (u = t ∧ j = level virt 12 ∧ userFrame (v % 2 ^ 64) = some frame) ∨ userFrame (word s.m u j) = some frame := by
    intro u q j frame label _ found
    rw [words j label] at found
    split at found
    · rename_i place
      exact Or.inl ⟨place.1, place.2, found⟩
    · exact Or.inr found
  refine ⟨{ step with owned := ?_, below := .set way here (by simp [tablePath]) other }, stored⟩
  refine ⟨step.tables, owned.trees.congr inner, ?_, ?_, ?_⟩
  · intro u q j c label short below
    rw [inner label (by omega)] at below ⊢
    exact owned.flags label short below
  · rintro frame ⟨u, q, j, label, length, found⟩
    rcases split label length found with ⟨-, -, new⟩ | old
    · exact (settable frame new).1.step step
    · exact (owned.frames ⟨u, q, j, label, length, old⟩).step step
  · intro u q j u' q' j' frame label length label' length' found found'
    rcases split label length found with ⟨rfl, rfl, new⟩ | old
    · rcases split label' length' found' with ⟨rfl, rfl, -⟩ | old'
      · exact ⟨rfl, rfl⟩
      · exact absurd ⟨u', q', j', label', length', old'⟩ (settable frame new).2
    · rcases split label' length' found' with ⟨rfl, rfl, new'⟩ | old'
      · exact absurd ⟨u, q, j, label, length, old⟩ (settable frame new').2
      · exact owned.single label length label' length' old old'

theorem mapPage_own {phy virt flags : Nat} (owned : Owned s lab) (top : lab root = some [])
    (settable : Settable s lab (leafWord phy flags % 2 ^ 64)) (mapped : mapPage s root phy virt flags = some s') :
    ∃ lab', OwnStep {path virt} root s lab s' lab' ∧
      reach next (word s'.m) root (path virt) = some (leafWord phy flags % 2 ^ 64) := by
  unfold mapPage at mapped
  obtain ⟨⟨s₁, t⟩, found, same⟩ := Option.bind_eq_some_iff.mp mapped
  obtain rfl := Option.some.inj same
  obtain ⟨lab₁, step, old, way⟩ := lastTable_own owned top found
  obtain ⟨set, stored⟩ := step.owned.setLeaf (v := leafWord phy flags) (step.keeps top) way
    (settable.step step.toStep old)
  exact ⟨lab₁, (step.mono (tablePath_begins virt)).trans set top, stored⟩

/-- A frame that was free before and is in use now is no table and stands in no entry. -/
theorem Owned.settable_handed {w : Nat} (owned : Owned s lab) (step : Step ∅ s lab s₁ lab) (handed : Handed s s₁ frame)
    (address : w &&& addressMask = frame) : Settable s₁ lab w := by
  intro f found
  unfold userFrame at found
  split at found
  · obtain rfl := Option.some.inj found
    rw [address]
    refine ⟨⟨handed.aligned, handed.taken, handed.unlabelled owned.tables⟩, ?_⟩
    intro referenced
    exact handed.free (owned.frames (referenced.quiet step)).taken
  · cases found

theorem mod_and {x mask : Nat} (bounded : mask < 2 ^ 64) : x % 2 ^ 64 &&& mask = x &&& mask := by
  apply Nat.eq_of_testBit_eq
  intro j
  rw [Nat.testBit_and, Nat.testBit_and, Nat.testBit_mod_two_pow]
  by_cases low : j < 64
  · rw [decide_eq_true low, Bool.true_and]
  · have high : mask.testBit j = false :=
      Nat.testBit_lt_two_pow (Nat.lt_of_lt_of_le bounded (Nat.pow_le_pow_right (by decide) (Nat.le_of_not_lt low)))
    rw [high, Bool.and_false, Bool.and_false]

theorem leafWord_and {phy flags mask : Nat} (apart : addressMask &&& mask = 0) :
    leafWord phy flags &&& mask = flags &&& mask := by
  unfold leafWord
  rw [Nat.and_or_distrib_right, Nat.and_assoc, apart, Nat.and_zero, Nat.zero_or]

theorem userFrame_leafWord (phy : Nat) {flags : Nat} (clear : flags &&& addressMask = 0) :
    userFrame (leafWord phy flags % 2 ^ 64) =
      if flags &&& pagePresent ≠ 0 ∧ flags &&& pageUser ≠ 0 then some (phy &&& addressMask) else none := by
  unfold userFrame
  rw [mod_and (by decide), mod_and (by decide), mod_and (by decide), leafWord_address clear,
    leafWord_and (by decide), leafWord_and (by decide)]

theorem userFrame_kernel (phy : Nat) {flags : Nat} (kernel : flags &&& pageUser = 0) :
    userFrame (leafWord phy flags % 2 ^ 64) = none := by
  unfold userFrame
  rw [mod_and (by decide), mod_and (by decide), leafWord_and (show addressMask &&& pageUser = 0 by decide), if_neg]
  exact fun user => user.2 kernel

/-- A range of the kernel, or one that gets frames of its own. -/
def Harmless (range : MappedRange) : Prop :=
  range.pageFlags &&& pageUser = 0 ∨ range.type = .anonymous ∧ range.pageFlags &&& addressMask = 0

theorem handlePageFault_own {hhdm virt : Nat} {pagemap : Pagemap} {unhandled : Bool} (owned : Owned s lab)
    (top : lab pagemap.pml4 = some []) (harmless : ∀ range ∈ pagemap.ranges, Harmless range)
    (faulted : handlePageFault hhdm s pagemap virt = some (s', unhandled)) :
    ∃ lab', OwnStep {path virt} pagemap.pml4 s lab s' lab' := by
  unfold handlePageFault at faulted
  obtain ⟨⟨s₁, t⟩, walked, faulted⟩ := Option.bind_eq_some_iff.mp faulted
  obtain ⟨lab₁, walk, -, way⟩ := lastTable_own owned top walked
  have down := walk.mono (tablePath_begins virt)
  have top₁ := walk.keeps top
  dsimp only at faulted
  split at faulted
  · split at faulted
    · obtain ⟨rfl, -⟩ := Prod.mk.inj (Option.some.inj faulted)
      exact ⟨lab₁, down⟩
    · rename_i range found
      have fine := harmless range (List.mem_of_find?_eq_some found)
      split at faulted
      · obtain ⟨⟨s₂, frame⟩, allocated, same⟩ := Option.bind_eq_some_iff.mp faulted
        obtain ⟨rfl, -⟩ := Prod.mk.inj (Option.some.inj same)
        obtain ⟨handed, cleared, -⟩ := allocZeroed_step (K := ∅) walk.tables allocated
        have way₂ := cleared.follow walk.tables top₁ (by simp [tablePath]) way
        have quiet : OwnStep {path virt} pagemap.pml4 _ _ _ _ := walk.owned.quiet cleared
        have whole : frame ||| range.pageFlags = leafWord frame range.pageFlags := by
          unfold leafWord
          rw [aligned_and_addressMask handed.aligned handed.bounded]
        have settable : Settable s₂ lab₁ ((frame ||| range.pageFlags) % 2 ^ 64) := by
          rw [whole]
          rcases fine with kernel | ⟨-, clear⟩
          · exact .of_none (userFrame_kernel frame kernel)
          · apply walk.owned.settable_handed cleared handed
            rw [mod_and (by decide), leafWord_address clear, aligned_and_addressMask handed.aligned handed.bounded]
        obtain ⟨set, -⟩ :=
          quiet.owned.setLeaf (v := frame ||| range.pageFlags) (quiet.keeps top₁) way₂ settable
        exact ⟨lab₁, (down.trans quiet top).trans set top⟩
      · rename_i type
        obtain ⟨rfl, -⟩ := Prod.mk.inj (Option.some.inj faulted)
        have kernel : range.pageFlags &&& pageUser = 0 := by
          apply fine.resolve_right
          rintro ⟨anonymous, -⟩
          rw [type] at anonymous
          cases anonymous
        have settable : Settable s₁ lab₁ (((directPhy hhdm virt &&& addressMask) ||| range.pageFlags) % 2 ^ 64) := by
          rw [← leafWord]
          exact .of_none (userFrame_kernel _ kernel)
        obtain ⟨set, -⟩ := walk.owned.setLeaf
          (v := (directPhy hhdm virt &&& addressMask) ||| range.pageFlags) top₁ way settable
        exact ⟨lab₁, down.trans set top⟩
  · obtain ⟨rfl, -⟩ := Prod.mk.inj (Option.some.inj faulted)
    exact ⟨lab₁, down⟩

/-- Memory outside the tables may change. -/
theorem Owned.congr (owned : Owned s lab) {m : Mem} (words : ∀ {u q j}, lab u = some q → word m u j = word s.m u j) :
    Owned { s with m := m } lab := by
  refine ⟨?_, owned.trees.congr fun label _ => words label, ?_, ?_, ?_⟩
  · exact { owned.tables with labels := owned.tables.labels.congr fun u q j label _ => words label }
  · intro u q j c label short below
    rw [words label] at below ⊢
    exact owned.flags label short below
  · rintro frame ⟨u, q, j, label, length, found⟩
    rw [words label] at found
    have data := owned.frames ⟨u, q, j, label, length, found⟩
    exact ⟨data.aligned, data.taken, data.unlabelled⟩
  · intro u q j u' q' j' frame label length label' length' found found'
    rw [words label] at found
    rw [words label'] at found'
    exact owned.single label length label' length' found found'

/-- A fresh frame may be given other contents, as nothing refers to it. -/
theorem OwnStep.fill (step : OwnStep K root s lab s₁ lab₁) {m : Mem} (aligned : frame % 0x1000 = 0)
    (free : ¬Taken s.pmm.bitmap (frame / 0x1000)) (unlabelled : lab₁ frame = none)
    (outside : ∀ x, x < frame ∨ frame + 0x1000 ≤ x → m x = s₁.m x) :
    OwnStep K root s lab { s₁ with m := m } lab₁ := by
  have words : ∀ {u q j}, lab₁ u = some q → word m u j = word s₁.m u j := fun label =>
    step.tables.word_outside aligned unlabelled outside label
  refine { step.toStep.fill aligned free unlabelled outside with owned := step.owned.congr words, below := ?_ }
  constructor
  · intro u q j label place apart
    rw [words (step.keeps label)]
    exact step.below.word label place apart
  · intro u q j c label short place below old
    rw [words label] at below
    exact step.below.link label short place below old

theorem loadPage_own {file : NodeData} {x : ImagePage} {first_free_virt end_virt : Nat} (owned : Owned s lab)
    (top : lab root = some []) (loaded : loadPage file x.ph root x.i s first_free_virt = some (s', end_virt)) :
    ∃ lab', OwnStep {path x.virt} root s lab s' lab' := by
  unfold loadPage at loaded
  obtain ⟨⟨pmm, frame⟩, allocated, loaded⟩ := Option.bind_eq_some_iff.mp loaded
  obtain ⟨s₁, mapped, returned⟩ := Option.bind_eq_some_iff.mp loaded
  obtain ⟨rfl, -⟩ := Prod.mk.inj (Option.some.inj returned)
  obtain ⟨handed, alloc⟩ := allocPages_step (K := ∅) owned.tables (Nat.le_refl _) allocated
  have quiet : OwnStep {path x.virt} root _ _ _ _ := owned.quiet alloc
  have settable : Settable { s with pmm := pmm } lab (leafWord frame x.ph.pageFlags % 2 ^ 64) := by
    apply owned.settable_handed alloc handed
    rw [mod_and (by decide), leafWord_address x.ph.pageFlags_clear,
      aligned_and_addressMask handed.aligned handed.bounded]
  obtain ⟨lab₁, map, -⟩ := mapPage_own quiet.owned top settable mapped
  have unlabelled := map.unlabelled handed.taken (handed.unlabelled owned.tables)
  have outside : ∀ y, y < frame ∨ frame + 0x1000 ≤ y → fillPage file x.ph frame x.i s₁.m y = s₁.m y :=
    fun y apart => fillPage_other file x.ph frame x.i s₁.m apart
  exact ⟨lab₁, (quiet.trans map top).fill handed.aligned handed.free unlabelled outside⟩

theorem stackFlags_clear : stackFlags &&& addressMask = 0 := rfl

/-- One round of the loop that maps the stack of a new task. -/
theorem mapStackPage_own {virt : Nat} (owned : Owned s lab) (top : lab root = some [])
    (allocated : s.allocZeroed = some (s₁, frame)) (mapped : mapPage s₁ root frame virt stackFlags = some s') :
    ∃ lab', OwnStep {path virt} root s lab s' lab' := by
  obtain ⟨handed, alloc, -⟩ := allocZeroed_step (K := ∅) owned.tables allocated
  have quiet : OwnStep {path virt} root _ _ _ _ := owned.quiet alloc
  have settable : Settable s₁ lab (leafWord frame stackFlags % 2 ^ 64) := by
    apply owned.settable_handed alloc handed
    rw [mod_and (by decide), leafWord_address stackFlags_clear,
      aligned_and_addressMask handed.aligned handed.bounded]
  obtain ⟨lab', map, -⟩ := mapPage_own quiet.owned top settable mapped
  exact ⟨lab', quiet.trans map top⟩

end Steps

end FishOS.Sched
