import FishOS.Sched.DemandPaging
import FishOS.Sched.Ownership
import Mathlib.Data.Nat.Bitwise

/-!
# Private memory

What a user task may take its memory to be: pages below the kernel half that its own program,
`mmap` calls, page faults and stores make and change. No frame, table or other task appears.
-/

namespace FishOS.Sched

open RadixTree FishOS.Mem FishOS.Mem.Pmm FishOS.Fs FishOS.Userland

structure Page where
  flags : Nat
  bytes : Nat → UInt8

/-- The pages by their numbers, of which those of the lower half are used. -/
abbrev Pages := Nat → Option Page

def Page.zero (flags : Nat) : Page := { flags := flags, bytes := fun _ => 0 }

def Page.set (old : Page) (offset : Nat) (byte : UInt8) : Page :=
  { old with bytes := fun o => if o = offset then byte else old.bytes o }

def imagePage (file : NodeData) (x : ImagePage) : Page :=
  { flags := x.ph.pageFlags, bytes := fun o => if o < 0x1000 then x.byte file o else 0 }

namespace Pages

def put (pages : Pages) (virt : Nat) (new : Page) : Pages := fun n =>
  if n = page virt ∧ n < 2 ^ 35 then some new else pages n

def withImage (pages : Pages) (file : NodeData) (xs : List ImagePage) : Pages :=
  xs.foldl (fun pages x => pages.put x.virt (imagePage file x)) pages

def withStack (pages : Pages) (virts : List Nat) : Pages :=
  virts.foldl (fun pages virt => pages.put virt (.zero stackFlags)) pages

end Pages

structure Private where
  pages : Pages
  ranges : List MappedRange
  mmapAnonBase : Nat

/-- What a user task does to its memory. -/
inductive Own where
  | event (event : UserTask.Event)
  | store (virt : Nat) (byte : UInt8)

def stackBase (file : NodeData) : Nat := alignUp (((imagePages file).map ImagePage.virt).foldl nextFree 0)

namespace Private

/-- The pages of the program, where the last one counts, and the stack behind them. -/
def load (file : NodeData) : Private where
  pages := (Pages.withImage (fun _ => none) file (imagePages file)).withStack
    (stackPages (stackBase file) (stackSize / 0x1000))
  ranges := []
  mmapAnonBase := (stackBase file + stackSize) % 2 ^ 64

def mmap (p : Private) (length prot flags : Nat) : Private :=
  if flags &&& mapPrivate = 0 ∨ flags &&& mapShared ≠ 0 ∨ flags &&& mapAnonymous = 0 then p
  else
    { p with
      ranges := ⟨p.mmapAnonBase, alignUp length, mmapPageFlags prot, .anonymous⟩ :: p.ranges
      mmapAnonBase := (p.mmapAnonBase + alignUp length) % 2 ^ 64 }

def fault (p : Private) (virt : Nat) : Private :=
  match p.pages (page virt), p.ranges.find? (·.matches virt) with
  | none, some range => { p with pages := p.pages.put virt (.zero range.pageFlags) }
  | _, _ => p

def read (p : Private) (virt : Nat) : Option UInt8 := (p.pages (page virt)).map fun here => here.bytes (virt % 0x1000)

def writable (p : Private) (virt : Nat) : Bool :=
  match p.pages (page virt) with
  | none => false
  | some here => here.flags &&& pageWritable != 0

/-- A store to the kernel half, if the processor lets it through, goes to no page of this memory. -/
def store (p : Private) (virt : Nat) (byte : UInt8) : Private :=
  match p.pages (page virt) with
  | none => p
  | some here => { p with pages := p.pages.put virt (here.set (virt % 0x1000) byte) }

def own (p : Private) : Own → Option Private
  | .event (.mmap length prot flags) => some (p.mmap length prot flags)
  | .event (.fault virt) => some (p.fault virt)
  | .store virt byte => if page virt < 2 ^ 35 ∧ p.writable virt = false then none else some (p.store virt byte)

/-- The memory of a task that was made from a file and then did this. -/
def replay (file : NodeData) (done : List Own) : Option Private := done.foldlM own (load file)

end Private

/-! The processor's side. -/

def userRead : Nat := pagePresent ||| pageUser

def userWrite : Nat := pagePresent ||| pageUser ||| pageWritable

/-- Whether all entries on the way have the bits that an access needs. -/
def permits (m : Mem) (need : Nat) : Nat → List (Fin 512) → Bool
  | _, [] => true
  | table, i :: rest => word m table i &&& need == need && permits m need (word m table i &&& addressMask) rest

def physical (m : Mem) (root virt : Nat) : Nat := (leaf m root (path virt) &&& addressMask) + virt % 0x1000

def userLoad (m : Mem) (root virt : Nat) : Option UInt8 :=
  if permits m userRead root (path virt) then some (m (physical m root virt)) else none

def userStore (s : Phys) (root virt : Nat) (byte : UInt8) : Option Phys :=
  if permits s.m userWrite root (path virt) then some { s with m := s.m.write8 (physical s.m root virt) byte }
  else none

/-- The page of user code that an entry stands for. -/
def pageOf (m : Mem) (w : Nat) : Option Page :=
  (userFrame w).map fun frame =>
    { flags := w &&& flagsMask, bytes := fun o => if o < 0x1000 then m (frame + o) else 0 }

def view (m : Mem) (root : Nat) : Pages := fun n =>
  if n < 2 ^ 35 then pageOf m (leaf m root (path (n * 0x1000))) else none

section View

variable {s s₁ s' : Phys} {lab lab₁ lab' : Nat → Option (List (Fin 512))} {K : Set (List (Fin 512))}
  {root other virt frame flags n : Nat} {m m' : Mem}

theorem path_page (virt : Nat) : path (page virt * 0x1000) = path virt := by
  rw [path_eq_iff]
  unfold page
  omega

theorem page_mul (inside : n < 2 ^ 35) : page (n * 0x1000) = n := by
  unfold page
  omega

theorem level_lower : (level virt 39).val < 256 ↔ page virt < 2 ^ 35 := by
  rw [level_eq]
  unfold page
  omega

theorem userFrame_zero : userFrame 0 = none := rfl

theorem leaf_slot (found : userFrame (leaf m root (path virt)) = some frame) :
    ∃ t, follow next (word m) root (tablePath virt) = some t ∧ userFrame (word m t (level virt 12)) = some frame := by
  have shape : path virt = tablePath virt ++ [level virt 12] := rfl
  unfold leaf at found
  rw [shape, reach_snoc] at found
  cases way : follow next (word m) root (tablePath virt) with
  | none =>
    rw [way, Option.map_none, Option.getD_none, userFrame_zero] at found
    cases found
  | some t =>
    rw [way] at found
    exact ⟨t, rfl, found⟩

theorem Owned.referenced (owned : Owned s lab) (top : lab root = some [])
    (found : userFrame (leaf s.m root (path virt)) = some frame) : Referenced s lab frame := by
  obtain ⟨t, way, found⟩ := leaf_slot found
  exact ⟨t, tablePath virt, level virt 12, owned.tables.labels.follow_label top (by simp) way, rfl, found⟩

/-- A frame that user code reaches through a page of the lower half is reached there only. -/
theorem Owned.frame_eq {w : Nat} (owned : Owned s lab) (top : lab root = some []) (topOther : lab other = some [])
    (lower : page w < 2 ^ 35) (found : userFrame (leaf s.m root (path virt)) = some frame)
    (foundOther : userFrame (leaf s.m other (path w)) = some frame) : root = other ∧ page virt = page w := by
  obtain ⟨t, way, found⟩ := leaf_slot found
  obtain ⟨t', way', found'⟩ := leaf_slot foundOther
  have label : lab t = some (tablePath virt) := owned.tables.labels.follow_label top (by simp) way
  have label' : lab t' = some (tablePath w) := owned.tables.labels.follow_label topOther (by simp) way'
  obtain ⟨rfl, last⟩ := owned.single label rfl label' rfl found found'
  have front : tablePath virt = tablePath w := Option.some.inj (label.symm.trans label')
  have whole : path virt = path w := by
    have shape : path virt = tablePath virt ++ [level virt 12] := rfl
    rw [shape, front, last]
    rfl
  have place : tablePath w ∈ lowerKeys := by
    apply closed_lowerKeys (show tablePath w <+: path w from ⟨[level w 12], rfl⟩)
    rw [path_mem_lowerKeys, level_lower]
    exact lower
  rw [front] at way
  exact ⟨owned.trees.root_eq closed_lowerKeys owned.tables.labels top topOther (by simp [tablePath]) place way way',
    path_eq_iff.mp whole⟩

theorem pageOf_congr {w : Nat} (same : ∀ frame, userFrame w = some frame → ∀ o < 0x1000, m' (frame + o) = m (frame + o)) :
    pageOf m' w = pageOf m w := by
  unfold pageOf
  apply Option.map_congr
  intro frame found
  congr 1
  funext o
  by_cases inside : o < 0x1000
  · rw [if_pos inside, if_pos inside, same frame (Option.mem_def.mp found) o inside]
  · rw [if_neg inside, if_neg inside]

/-- A page whose entry stays is the same after a step. -/
theorem Owned.pageOf_step (owned : Owned s lab) (top : lab root = some []) (step : Step K s lab s' lab')
    (same : leaf s'.m root (path virt) = leaf s.m root (path virt)) :
    pageOf s'.m (leaf s'.m root (path virt)) = pageOf s.m (leaf s.m root (path virt)) := by
  rw [same]
  apply pageOf_congr
  intro frame found o inside
  exact step.data (owned.frames (owned.referenced top found)) (Nat.le_add_right _ _) (by omega)

theorem pageOf_leafWord (aligned : frame % 0x1000 = 0) (bounded : frame < 2 ^ 52) (small : flags < 2 ^ 64)
    (clear : flags &&& addressMask = 0) (user : flags &&& userRead = userRead) :
    pageOf m (leafWord frame flags) =
      some { flags := flags, bytes := fun o => if o < 0x1000 then m (frame + o) else 0 } := by
  have bit : ∀ mask, userRead &&& mask = mask → mask ≠ 0 → flags &&& mask ≠ 0 := by
    intro mask inside nonzero zero
    apply nonzero
    rw [← inside, ← user, Nat.and_assoc, inside, zero]
  have found := userFrame_leafWord frame clear
  rw [Nat.mod_eq_of_lt (leafWord_lt small), if_pos ⟨bit pagePresent rfl (by decide), bit pageUser rfl (by decide)⟩,
    aligned_and_addressMask aligned bounded] at found
  unfold pageOf
  rw [found, leafWord_flags small clear]
  rfl

theorem OwnStep.leaf_other (step : OwnStep K root s lab s' lab') (owned : Owned s lab) (top : lab root = some [])
    (topOther : lab other = some []) (apart : root ≠ other) (lower : page virt < 2 ^ 35) :
    leaf s'.m other (path virt) = leaf s.m other (path virt) := by
  have place : path virt ∈ lowerKeys := by
    rw [path_mem_lowerKeys, level_lower]
    exact lower
  unfold leaf
  rw [step.below.reach closed_lowerKeys owned.trees owned.tables.labels top topOther apart place (by simp [path])]

theorem OwnStep.view_other (step : OwnStep K root s lab s' lab') (owned : Owned s lab) (top : lab root = some [])
    (topOther : lab other = some []) (apart : root ≠ other) : view s'.m other = view s.m other := by
  funext n
  unfold view
  split
  · rename_i inside
    apply owned.pageOf_step topOther step.toStep
    apply step.leaf_other owned top topOther apart
    rwa [page_mul inside]
  · rfl

theorem Owned.view_step (owned : Owned s lab) (top : lab root = some []) (step : Step K s lab s' lab')
    (same : ∀ n, leaf s'.m root (path (n * 0x1000)) = leaf s.m root (path (n * 0x1000))) :
    view s'.m root = view s.m root := by
  funext n
  unfold view
  rw [owned.pageOf_step top step (same n)]

/-- A step to one page of the root itself. -/
theorem Owned.view_put {new : Page} (owned : Owned s lab) (top : lab root = some [])
    (step : Step {path virt} s lab s' lab') (found : pageOf s'.m (leaf s'.m root (path virt)) = some new) :
    view s'.m root = (view s.m root).put virt new := by
  funext n
  unfold Pages.put view
  by_cases inside : n < 2 ^ 35
  · by_cases here : n = page virt
    · rw [if_pos inside, if_pos ⟨here, inside⟩, here, path_page, found]
    · rw [if_pos inside, if_neg fun place => here place.1, if_pos inside]
      apply owned.pageOf_step top step
      apply step.leaf top rfl
      intro key member front
      obtain rfl : key = path virt := member
      exact here ((page_mul inside).symm.trans (path_prefix_path.mp front))
  · rw [if_neg inside, if_neg fun place => inside place.2, if_neg inside]

theorem Backed.pageOf {content : Nat → UInt8} (backed : Backed s lab root virt flags content frame)
    (small : flags < 2 ^ 64) (clear : flags &&& addressMask = 0) (user : flags &&& userRead = userRead) :
    pageOf s.m (leaf s.m root (path virt)) =
      some { flags := flags, bytes := fun o => if o < 0x1000 then content o else 0 } := by
  rw [backed.entry, pageOf_leafWord backed.data.aligned backed.bounded small clear user]
  congr 2
  funext o
  split
  · exact backed.bytes o ‹_›
  · rfl

theorem ph_pageFlags_user (ph : ProgramHeader) : ph.pageFlags &&& userRead = userRead := by
  unfold ProgramHeader.pageFlags
  dsimp only
  split <;> split <;> rfl

theorem mmapPageFlags_user (prot : Nat) : mmapPageFlags prot &&& userRead = userRead := by
  unfold mmapPageFlags
  dsimp only
  split <;> split <;> rfl

theorem mmapPageFlags_clear (prot : Nat) : mmapPageFlags prot &&& addressMask = 0 := by
  unfold mmapPageFlags
  dsimp only
  split <;> split <;> rfl

/-- Of the lower half, user code may read every page that is there. -/
def UserPages (m : Mem) (root : Nat) : Prop :=
  ∀ virt, page virt < 2 ^ 35 → Present m root virt → (pageOf m (leaf m root (path virt))).isSome

theorem UserPages.of_same (pages : UserPages m root)
    (same : ∀ v, page v < 2 ^ 35 → leaf m' root (path v) = leaf m root (path v)) : UserPages m' root := by
  intro virt lower present
  unfold Present at present
  rw [same virt lower] at present ⊢
  have before := pages virt lower present
  unfold pageOf at before ⊢
  rwa [Option.isSome_map] at before ⊢

theorem UserPages.put {new : Page} (pages : UserPages s.m root) (top : lab root = some [])
    (step : Step {path virt} s lab s' lab') (found : pageOf s'.m (leaf s'.m root (path virt)) = some new) :
    UserPages s'.m root := by
  intro w lower present
  by_cases here : page w = page virt
  · rw [path_eq_iff.mpr here, found]
    rfl
  · have same : leaf s'.m root (path w) = leaf s.m root (path w) := by
      apply step.leaf top rfl
      intro key member front
      obtain rfl : key = path virt := member
      exact here (path_prefix_path.mp front)
    unfold Present at present
    rw [same] at present ⊢
    have before := pages w lower present
    unfold pageOf at before ⊢
    rwa [Option.isSome_map] at before ⊢

theorem loadAll_view {file : NodeData} {xs : List ImagePage} {first_free_virt end_virt : Nat} (owned : Owned s lab)
    (top : lab root = some []) (loaded : loadAll file root s first_free_virt xs = some (s', end_virt)) :
    ∃ lab', OwnStep Set.univ root s lab s' lab' ∧ view s'.m root = (view s.m root).withImage file xs ∧
      (UserPages s.m root → UserPages s'.m root) := by
  induction xs generalizing s lab first_free_virt with
  | nil =>
    obtain ⟨rfl, -⟩ := Prod.mk.inj (Option.some.inj loaded)
    exact ⟨lab, owned.quiet (.refl owned.tables), rfl, id⟩
  | cons x xs ih =>
    unfold loadAll at loaded
    obtain ⟨⟨s₁, free⟩, first, loaded⟩ := Option.bind_eq_some_iff.mp loaded
    obtain ⟨lab₁, step⟩ := loadPage_own owned top first
    obtain ⟨-, lab₂, -, frame, backed⟩ := loadPage_step owned.tables top first
    have shown := Backed.pageOf backed x.ph.pageFlags_lt x.ph.pageFlags_clear (ph_pageFlags_user x.ph)
    obtain ⟨lab', rest, pages, kept⟩ := ih step.owned (step.keeps top) loaded
    have anywhere : OwnStep Set.univ root s lab _ lab₁ := step.mono fun key _ => ⟨key, trivial, List.prefix_rfl⟩
    refine ⟨lab', anywhere.trans rest top, ?_, fun user => kept (user.put top step.toStep shown)⟩
    rw [pages, owned.view_put top step.toStep shown]
    rfl

theorem mapStackPage_shown (owned : Owned s lab) (top : lab root = some [])
    (allocated : s.allocZeroed = some (s₁, frame)) (mapped : mapPage s₁ root frame virt stackFlags = some s') :
    pageOf s'.m (leaf s'.m root (path virt)) = some (.zero stackFlags) := by
  obtain ⟨handed, alloc, cleared⟩ := allocZeroed_step (K := {path virt}) owned.tables allocated
  obtain ⟨lab', map, stored⟩ := mapPage_step alloc.tables top mapped
  have fresh : DataFrame s₁ lab frame := ⟨handed.aligned, handed.taken, handed.unlabelled owned.tables⟩
  have word := leaf_of_reach stored
  rw [Nat.mod_eq_of_lt (leafWord_lt (show stackFlags < 2 ^ 64 by decide))] at word
  rw [word, pageOf_leafWord handed.aligned handed.bounded (by decide) stackFlags_clear rfl]
  unfold Page.zero
  congr 2
  funext o
  split
  · rw [map.data fresh (Nat.le_add_right _ _) (by omega), cleared, Mem.memset_inside _ (by omega) (by omega)]
  · rfl

theorem mapStack_view {base end_virt n : Nat} (owned : Owned s lab) (top : lab root = some [])
    (mapped : mapStack root s base n = some (s', end_virt)) :
    ∃ lab', OwnStep Set.univ root s lab s' lab' ∧ view s'.m root = (view s.m root).withStack (stackPages base n) ∧
      (UserPages s.m root → UserPages s'.m root) := by
  induction n generalizing s lab base with
  | zero =>
    obtain ⟨rfl, -⟩ := Prod.mk.inj (Option.some.inj mapped)
    exact ⟨lab, owned.quiet (.refl owned.tables), rfl, id⟩
  | succ n ih =>
    unfold mapStack at mapped
    obtain ⟨⟨s₁, frame⟩, allocated, mapped⟩ := Option.bind_eq_some_iff.mp mapped
    obtain ⟨s₂, page, mapped⟩ := Option.bind_eq_some_iff.mp mapped
    obtain ⟨lab₁, step⟩ := mapStackPage_own owned top allocated page
    have shown := mapStackPage_shown owned top allocated page
    obtain ⟨lab', rest, pages, kept⟩ := ih step.owned (step.keeps top) mapped
    have anywhere : OwnStep Set.univ root s lab _ lab₁ := step.mono fun key _ => ⟨key, trivial, List.prefix_rfl⟩
    refine ⟨lab', anywhere.trans rest top, ?_, fun user => kept (user.put top step.toStep shown)⟩
    rw [pages, owned.view_put top step.toStep shown]
    rfl

theorem and_bit (w i : Nat) : w &&& 2 ^ i = if w.testBit i then 2 ^ i else 0 := by
  rw [Nat.and_two_pow]
  cases w.testBit i <;> simp

theorem and_userRead {w : Nat} : w &&& userRead = userRead ↔ w &&& pagePresent ≠ 0 ∧ w &&& pageUser ≠ 0 := by
  have p : w &&& pagePresent = if w.testBit 0 then 1 else 0 := and_bit w 0
  have u : w &&& pageUser = if w.testBit 2 then 4 else 0 := and_bit w 2
  unfold userRead
  rw [Nat.and_or_distrib_left, p, u]
  cases w.testBit 0 <;> cases w.testBit 2 <;> decide

theorem and_userWrite {w : Nat} :
    w &&& userWrite = userWrite ↔ w &&& userRead = userRead ∧ w &&& pageWritable ≠ 0 := by
  have p : w &&& pagePresent = if w.testBit 0 then 1 else 0 := and_bit w 0
  have u : w &&& pageUser = if w.testBit 2 then 4 else 0 := and_bit w 2
  have b : w &&& pageWritable = if w.testBit 1 then 2 else 0 := and_bit w 1
  unfold userWrite userRead
  rw [Nat.and_or_distrib_left, Nat.and_or_distrib_left, p, u, b]
  cases w.testBit 0 <;> cases w.testBit 1 <;> cases w.testBit 2 <;> decide

/-- The tables on the way let every access through, so the last entry decides. -/
theorem Owned.permits_iff {t need : Nat} {q rest : List (Fin 512)} (owned : Owned s lab) (label : lab t = some q)
    (inside : need &&& tableFlags = need) (present : need &&& pagePresent ≠ 0)
    (length : q.length + rest.length = 4) (some : rest ≠ []) :
    permits s.m need t rest = true ↔ ∃ w, reach next (word s.m) t rest = Option.some w ∧ w &&& need = need := by
  have enters : ∀ {w}, w &&& need = need → next w = Option.some (w &&& addressMask) := by
    intro w allowed
    unfold next
    rw [if_pos]
    intro zero
    apply present
    rw [← allowed, Nat.and_comm w, Nat.and_assoc, zero, Nat.and_zero]
  induction rest generalizing t q with
  | nil => exact absurd rfl some
  | cons i rest ih =>
    unfold permits
    rw [Bool.and_eq_true, beq_iff_eq]
    cases rest with
    | nil => simp [permits, reach]
    | cons j rest =>
      simp only [List.length_cons] at length
      have inner : q.length + 1 < 4 := by omega
      have deeper : (q ++ [i]).length + (j :: rest).length = 4 := by
        simp only [List.length_append, List.length_cons, List.length_nil]
        omega
      rw [reach]
      constructor
      · rintro ⟨allowed, further⟩
        have below := enters allowed
        rw [below, Option.bind_some]
        exact (ih (owned.tables.labels.child label inner below) deeper (by simp)).mp further
      · rintro ⟨w, found, allowed⟩
        obtain ⟨t', below, found⟩ := Option.bind_eq_some_iff.mp found
        have flags := owned.flags label (by omega) below
        have open' : word s.m t i &&& need = need := by
          rw [← inside, Nat.and_comm need, ← Nat.and_assoc, flags]
        have same := Option.some.inj (below.symm.trans (enters open'))
        rw [← same]
        exact ⟨open', (ih (owned.tables.labels.child label inner below) deeper (by simp)).mpr ⟨w, found, allowed⟩⟩

theorem Owned.permits_path {need : Nat} (owned : Owned s lab) (top : lab root = some [])
    (inside : need &&& tableFlags = need) (present : need &&& pagePresent ≠ 0) :
    permits s.m need root (path virt) = true ↔ leaf s.m root (path virt) &&& need = need := by
  rw [owned.permits_iff top inside present rfl (by simp [path])]
  unfold leaf
  cases reach next (word s.m) root (path virt) with
  | some w => simp
  | none =>
    simp only [Option.getD_none, Nat.zero_and, reduceCtorEq, false_and, exists_false, false_iff]
    rintro rfl
    exact present (Nat.zero_and _)

theorem Owned.permits_read (owned : Owned s lab) (top : lab root = some []) (virt : Nat) :
    permits s.m userRead root (path virt) = true ↔ leaf s.m root (path virt) &&& userRead = userRead :=
  owned.permits_path top rfl (by decide)

theorem Owned.permits_write (owned : Owned s lab) (top : lab root = some []) (virt : Nat) :
    permits s.m userWrite root (path virt) = true ↔ leaf s.m root (path virt) &&& userWrite = userWrite :=
  owned.permits_path top rfl (by decide)

end View

end FishOS.Sched
