import FishOS.Sched.PrivateMemory

/-!
# What user code does to memory

Page faults, loads and stores of a task, and its start, in its own view of memory.
-/

namespace FishOS.Sched

open RadixTree FishOS.Mem FishOS.Mem.Pmm FishOS.Fs FishOS.Userland

def taskMemory (m : Mem) (task : UserTask) : Private where
  pages := view m task.pagemap.pml4
  ranges := task.pagemap.ranges
  mmapAnonBase := task.mmapAnonBase

/-- The ranges of a user pagemap are those that `mmap` makes. -/
def MmapRanges (pagemap : Pagemap) : Prop :=
  ∀ range ∈ pagemap.ranges, range.type = .anonymous ∧ ∃ prot, range.pageFlags = mmapPageFlags prot

section Task

variable {s s₁ s' : Phys} {lab lab' : Nat → Option (List (Fin 512))} {K : Set (List (Fin 512))}
  {root other virt frame n : Nat} {byte : UInt8} {task : UserTask}

theorem MmapRanges.harmless {pagemap : Pagemap} (ranges : MmapRanges pagemap) :
    ∀ range ∈ pagemap.ranges, Harmless range := by
  intro range member
  obtain ⟨anonymous, prot, flags⟩ := ranges range member
  exact Or.inr ⟨anonymous, flags ▸ mmapPageFlags_clear prot⟩

theorem Pages.put_upper {pages : Pages} {new : Page} (upper : ¬page virt < 2 ^ 35) : pages.put virt new = pages := by
  funext n
  unfold Pages.put
  rw [if_neg]
  rintro ⟨rfl, lower⟩
  exact upper lower

theorem view_page (lower : page virt < 2 ^ 35) (m : Mem) :
    view m root (page virt) = pageOf m (leaf m root (path virt)) := by
  unfold view
  rw [if_pos lower, path_page]

theorem view_upper (upper : ¬n < 2 ^ 35) (m : Mem) : view m root n = none := if_neg upper

theorem pageOf_absent {m : Mem} (absent : ¬Present m root virt) : pageOf m (leaf m root (path virt)) = none := by
  unfold pageOf userFrame
  rw [if_neg fun user => absent user.1]
  rfl

theorem anonymous_word {pagemap : Pagemap} {range : MappedRange} (ranges : MmapRanges pagemap)
    (found : addrToRange pagemap virt = some range) (handed : Handed s s' frame) :
    (frame ||| range.pageFlags) % 2 ^ 64 = leafWord frame range.pageFlags := by
  obtain ⟨-, prot, flags⟩ := ranges range (List.mem_of_find?_eq_some found)
  unfold leafWord
  rw [aligned_and_addressMask handed.aligned handed.bounded, flags]
  exact Nat.mod_eq_of_lt (Nat.or_lt_two_pow (Nat.lt_trans handed.bounded (by decide)) (mmapPageFlags_lt prot))

/-- The three ways through a fault of a user task, in its own view. -/
theorem handlePageFault_view {hhdm : Nat} {unhandled : Bool} (owned : Owned s lab)
    (top : lab task.pagemap.pml4 = some []) (ranges : MmapRanges task.pagemap)
    (user : UserPages s.m task.pagemap.pml4)
    (faulted : handlePageFault hhdm s task.pagemap virt = some (s', unhandled)) :
    taskMemory s'.m task = (taskMemory s.m task).fault virt ∧ UserPages s'.m task.pagemap.pml4 := by
  obtain ⟨⟨lab', step⟩, outcome⟩ := handlePageFault_step owned.tables top faulted
  -- an entry that stays as it is leaves all entries as they are
  have unchanged : leaf s'.m task.pagemap.pml4 (path virt) = leaf s.m task.pagemap.pml4 (path virt) →
      ∀ v, leaf s'.m task.pagemap.pml4 (path v) = leaf s.m task.pagemap.pml4 (path v) := by
    intro same v
    by_cases here : page v = page virt
    · rw [path_eq_iff.mpr here, same]
    · apply step.leaf top rfl
      intro key member front
      obtain rfl : key = path virt := member
      exact here (path_prefix_path.mp front)
  have kept : leaf s'.m task.pagemap.pml4 (path virt) = leaf s.m task.pagemap.pml4 (path virt) →
      taskMemory s'.m task = taskMemory s.m task := by
    intro same
    unfold taskMemory
    rw [owned.view_step top step fun n => unchanged same _]
  unfold Private.fault
  dsimp only [taskMemory] at kept ⊢
  cases outcome with
  | present found same =>
    refine ⟨?_, user.of_same fun v _ => unchanged same v⟩
    rw [kept same]
    split
    · rename_i absent covered
      by_cases lower : page virt < 2 ^ 35
      · rw [view_page lower] at absent
        have there := user virt lower found
        rw [absent] at there
        cases there
      · rw [Pages.put_upper lower]
    · rfl
  | unmapped absent none same =>
    refine ⟨?_, user.of_same fun v _ => unchanged same v⟩
    rw [kept same]
    split
    · rename_i range _ covered
      exact nomatch none.symm.trans covered
    · rfl
  | anonymous range frame absent found type handed zero entry =>
    obtain ⟨-, prot, flags⟩ := ranges range (List.mem_of_find?_eq_some found)
    have shown : pageOf s'.m (leaf s'.m task.pagemap.pml4 (path virt)) = some (.zero range.pageFlags) := by
      rw [entry, anonymous_word ranges found handed, flags, pageOf_leafWord handed.aligned handed.bounded (mmapPageFlags_lt prot)
        (mmapPageFlags_clear prot) (mmapPageFlags_user prot)]
      unfold Page.zero
      congr 2
      funext o
      split
      · exact zero _ (Nat.le_add_right _ _) (by omega)
      · rfl
    have before : view s.m task.pagemap.pml4 (page virt) = none := by
      by_cases lower : page virt < 2 ^ 35
      · rw [view_page lower, pageOf_absent absent]
      · exact view_upper lower s.m
    refine ⟨?_, user.put top step shown⟩
    have hit : task.pagemap.ranges.find? (·.matches virt) = some range := found
    rw [before, hit, owned.view_put top step shown]
  | direct range absent found type entry =>
    have anonymous := (ranges range (List.mem_of_find?_eq_some found)).1
    rw [type] at anonymous
    cases anonymous

theorem pageOf_of_read {m : Mem} {w : Nat} (user : w &&& userRead = userRead) :
    pageOf m w = some ⟨w &&& flagsMask, fun o => if o < 0x1000 then m ((w &&& addressMask) + o) else 0⟩ := by
  unfold pageOf userFrame
  rw [if_pos (and_userRead.mp user)]
  rfl

theorem pageOf_of_not_read {m : Mem} {w : Nat} (other : ¬w &&& userRead = userRead) : pageOf m w = none := by
  unfold pageOf userFrame
  rw [if_neg fun user => other (and_userRead.mpr user)]
  rfl

/-- A load of user code reads the byte that the view has, and faults where it has none. -/
theorem Owned.userLoad_eq (owned : Owned s lab) (top : lab task.pagemap.pml4 = some []) (lower : page virt < 2 ^ 35) :
    userLoad s.m task.pagemap.pml4 virt = (taskMemory s.m task).read virt := by
  have path := owned.permits_read top virt
  unfold userLoad Private.read taskMemory
  dsimp only
  rw [view_page lower]
  by_cases user : leaf s.m task.pagemap.pml4 (Mem.path virt) &&& userRead = userRead
  · rw [if_pos (path.mpr user), pageOf_of_read user, Option.map_some]
    dsimp only
    rw [if_pos (Nat.mod_lt virt (show 0 < 0x1000 by decide))]
    rfl
  · rw [if_neg fun allowed => user (path.mp allowed), pageOf_of_not_read user]
    rfl

/-- A store of user code goes through exactly where the view has a writable page. -/
theorem Owned.userStore_isSome (owned : Owned s lab) (top : lab task.pagemap.pml4 = some [])
    (lower : page virt < 2 ^ 35) (byte : UInt8) :
    (userStore s task.pagemap.pml4 virt byte).isSome = (taskMemory s.m task).writable virt := by
  have path := owned.permits_write top virt
  unfold userStore Private.writable taskMemory
  dsimp only
  rw [view_page lower]
  by_cases user : leaf s.m task.pagemap.pml4 (Mem.path virt) &&& userRead = userRead
  · rw [pageOf_of_read user]
    dsimp only
    rw [Nat.and_assoc, show flagsMask &&& pageWritable = pageWritable from rfl]
    by_cases writable : leaf s.m task.pagemap.pml4 (Mem.path virt) &&& pageWritable = 0
    · rw [if_neg fun allowed => (and_userWrite.mp (path.mp allowed)).2 writable, writable]
      rfl
    · rw [if_pos (path.mpr (and_userWrite.mpr ⟨user, writable⟩))]
      exact (bne_iff_ne.mpr writable).symm
  · rw [if_neg fun allowed => user (and_userWrite.mp (path.mp allowed)).1, pageOf_of_not_read user]
    rfl

/-- A store of user code goes into a frame that user code reaches. -/
theorem Owned.userStore_cases (owned : Owned s lab) (top : lab root = some [])
    (stored : userStore s root virt byte = some s') :
    ∃ frame, userFrame (leaf s.m root (path virt)) = some frame ∧
      s' = { s with m := s.m.write8 (frame + virt % 0x1000) byte } := by
  unfold userStore at stored
  split at stored
  · rename_i allowed
    have bits := (owned.permits_write top virt).mp allowed
    refine ⟨_, ?_, (Option.some.inj stored).symm⟩
    unfold userFrame
    rw [if_pos (and_userRead.mp (and_userWrite.mp bits).1)]
  · cases stored

section Store

variable (owned : Owned s lab) (top : lab root = some [])
  (found : userFrame (leaf s.m root (path virt)) = some frame)

include owned top found

theorem write8_word (byte : UInt8) {t : Nat} {p : List (Fin 512)} {i : Fin 512} (label : lab t = some p) :
    word (s.m.write8 (frame + virt % 0x1000) byte) t i = word s.m t i := by
  have data := owned.frames (owned.referenced top found)
  apply owned.tables.word_outside data.aligned data.unlabelled _ label
  intro x outside
  exact if_neg (by omega)

theorem write8_leaf (byte : UInt8) {v : Nat} (topOther : lab other = some []) :
    leaf (s.m.write8 (frame + virt % 0x1000) byte) other (path v) = leaf s.m other (path v) := by
  unfold leaf
  rw [owned.tables.labels.reach_congr topOther (by simp [path]) fun u p j label _ => write8_word owned top found byte label]

/-- A store changes one byte of one page of one task. -/
theorem write8_view (byte : UInt8) (topOther : lab other = some []) : view (s.m.write8 (frame + virt % 0x1000) byte) other n =
    if other = root ∧ n = page virt then (view s.m other n).map fun old => old.set (virt % 0x1000) byte
    else view s.m other n := by
  by_cases lower : n < 2 ^ 35
  · unfold view
    rw [if_pos lower, if_pos lower, write8_leaf owned top found byte topOther]
    split
    · rename_i here
      obtain ⟨rfl, rfl⟩ := here
      rw [path_page]
      unfold pageOf
      rw [found]
      simp only [Option.map_some, Option.some.injEq, Page.set, Page.mk.injEq, true_and]
      funext o
      unfold Mem.write8
      have offset := Nat.mod_lt virt (show 0 < 0x1000 by decide)
      by_cases hit : o = virt % 0x1000
      · rw [hit, if_pos offset, if_pos rfl, if_pos rfl]
      · rw [if_neg hit]
        by_cases inside : o < 0x1000
        · rw [if_pos inside, if_pos inside, if_neg (by omega)]
        · rw [if_neg inside, if_neg inside]
    · rename_i away
      apply pageOf_congr
      intro f foundOther o inside
      have data := owned.frames (owned.referenced top found)
      have dataOther := owned.frames (owned.referenced topOther foundOther)
      have aligned := data.aligned
      have alignedOther := dataOther.aligned
      have apart : f ≠ frame := by
        rintro rfl
        have inner : page (n * 0x1000) < 2 ^ 35 := by rwa [page_mul lower]
        obtain ⟨rfl, same⟩ := owned.frame_eq top topOther inner found foundOther
        exact away ⟨rfl, by rw [same, page_mul lower]⟩
      exact if_neg (by omega)
  · rw [view_upper lower, view_upper lower, Option.map_none, ite_self]

end Store

section Spawn

variable {hhdm : Nat} {pagemap : Pagemap} {file : NodeData}

/-- The new PML4 is labelled, and its lower half is empty. -/
theorem newUserPagemap_own (owned : Owned s lab) (top : lab root = some [])
    (made : newUserPagemap s root = some (s', pagemap)) :
    ∃ lab', Step ∅ s lab s' lab' ∧ Owned s' lab' ∧ lab' pagemap.pml4 = some [] ∧ lab pagemap.pml4 = none ∧
      pagemap.ranges = [] ∧ ∀ v, page v < 2 ^ 35 → leaf s'.m pagemap.pml4 (path v) = 0 := by
  have unlabelled : lab pagemap.pml4 = none := by
    obtain ⟨⟨s₁, pml4⟩, allocated, returned⟩ := Option.bind_eq_some_iff.mp made
    obtain ⟨-, rfl⟩ := Prod.mk.inj (Option.some.inj returned)
    exact (allocZeroed_step (K := ∅) owned.tables allocated).1.unlabelled owned.tables
  obtain ⟨lab₁, step, label, fresh⟩ := newUserPagemap_step (K := ∅) owned.tables top made
  have same : ∀ {u q j}, lab u = some q → word s'.m u j = word s.m u j := fun label =>
    step.only label fun _ absurd => absurd.elim
  have split : ∀ {u q}, Function.update lab pagemap.pml4 (some []) u = some q →
      (u = pagemap.pml4 ∧ q = []) ∨ lab u = some q := fun {u q} label => by
    by_cases new : u = pagemap.pml4
    · rw [new, Function.update_self, Option.some.injEq] at label
      exact Or.inl ⟨new, label.symm⟩
    · exact Or.inr (by rwa [Function.update_of_ne new] at label)
  have keeps : ∀ {u q}, lab u = some q → Function.update lab pagemap.pml4 (some []) u = some q := by
    intro u q label
    rw [Function.update_of_ne]
    · exact label
    · rintro rfl
      rw [unlabelled] at label
      cases label
  -- a table below the new PML4 hangs there because it hangs below the kernel's
  have upper : ∀ {i c}, next (word s'.m pagemap.pml4 i) = some c →
      256 ≤ i.val ∧ word s'.m pagemap.pml4 i = word s.m root i := by
    intro i c below
    by_cases lower : i.val < 256
    · rw [fresh.lower i lower, next_zero] at below
      cases below
    · exact ⟨by omega, by rw [fresh.upper i (by omega), same top]⟩
  have labels : Labelling next (word s'.m) 4 (Function.update lab pagemap.pml4 (some [])) := by
    constructor
    · intro u q label
      rcases split label with ⟨-, rfl⟩ | old
      · decide
      · exact owned.tables.labels.short old
    · intro u q i c label deep below
      rcases split label with ⟨rfl, rfl⟩ | old
      · rw [(upper below).2] at below
        exact keeps (owned.tables.labels.child top deep below)
      · rw [same old] at below
        exact keeps (owned.tables.labels.child old deep below)
  have exact := step_restrict step labels
    (fun label' => (split label').elim (fun new => new.1 ▸ new.2 ▸ label) step.keeps) keeps
  refine ⟨_, exact, ?_, Function.update_self _ _ _, unlabelled, fresh.ranges, ?_⟩
  · apply owned.of_leafs exact
    · constructor
      intro u u' q i c label label' short place below below'
      have away : ∀ {u}, Function.update lab pagemap.pml4 (some []) u = some q → next (word s'.m u i) = some c →
          lab u = some q := by
        intro u label below
        rcases split label with ⟨rfl, rfl⟩ | old
        · have bound := (upper below).1
          have lower := place i rfl
          omega
        · exact old
      have old := away label below
      have old' := away label' below'
      rw [same old] at below
      rw [same old'] at below'
      exact owned.trees.parent old old' short place below below'
    · intro u q i c label short below
      rcases split label with ⟨rfl, rfl⟩ | old
      · have copied := (upper below).2
        rw [copied] at below ⊢
        exact owned.flags top short below
      · rw [same old] at below ⊢
        exact owned.flags old short below
    · intro u q i frame label length found
      rcases split label with ⟨-, rfl⟩ | old
      · cases length
      · rw [same old] at found
        exact ⟨old, found⟩
  · intro v lower
    have zero := fresh.lower (level v 39) (level_lower.mpr lower)
    unfold leaf path
    rw [reach, zero, next_zero]
    rfl

theorem fillUserPagemap_own (owned : Owned s lab) (top : lab pagemap.pml4 = some []) (ranges : pagemap.ranges = [])
    (empty : ∀ v, page v < 2 ^ 35 → leaf s.m pagemap.pml4 (path v) = 0)
    (filled : fillUserPagemap s hhdm pagemap file = some (s', task)) :
    ∃ lab', OwnStep Set.univ pagemap.pml4 s lab s' lab' ∧ task.pagemap = pagemap ∧
      taskMemory s'.m task = .load file ∧ UserPages s'.m pagemap.pml4 := by
  unfold fillUserPagemap at filled
  obtain ⟨⟨pmm, kernelStack⟩, allocated, filled⟩ := Option.bind_eq_some_iff.mp filled
  obtain ⟨⟨s₁, ip, free⟩, loaded, filled⟩ := Option.bind_eq_some_iff.mp filled
  obtain ⟨⟨s₂, base⟩, mapped, returned⟩ := Option.bind_eq_some_iff.mp filled
  obtain ⟨rfl, rfl⟩ := Prod.mk.inj (Option.some.inj returned)
  obtain ⟨-, alloc⟩ := allocPages_step (K := ∅) owned.tables (by decide) allocated
  have quiet : OwnStep Set.univ pagemap.pml4 _ _ _ _ := owned.quiet alloc
  obtain ⟨end_virt, pages, rfl⟩ := load_eq_some loaded
  obtain ⟨last, -⟩ := loadAll_step (K := Set.univ) alloc.tables top (fun _ _ => trivial) pages
  obtain ⟨lab₁, load, image, kept⟩ := loadAll_view quiet.owned top pages
  obtain ⟨lab', stack, shown, kept'⟩ := mapStack_view load.owned (load.keeps top) mapped
  refine ⟨lab', (quiet.trans load top).trans stack top, rfl, ?_, ?_⟩
  · have blank : view s.m pagemap.pml4 = fun _ => none := by
      funext n
      unfold view
      split
      · rename_i lower
        rw [empty _ (by rwa [page_mul lower])]
        rfl
      · rfl
    have finish : base = (stackBase file + stackSize) % 2 ^ 64 := by
      have pages : stackSize / 0x1000 = 15 + 1 := rfl
      rw [pages] at mapped
      rw [mapStack_end mapped, last]
      rfl
    unfold taskMemory Private.load
    dsimp only at shown image ⊢
    rw [shown, image, blank, ranges, finish, last]
    rfl
  · apply kept'
    apply kept
    intro v lower present
    unfold Present at present
    dsimp only at present
    rw [empty v lower] at present
    exact absurd rfl present

end Spawn

end Task

end FishOS.Sched
