import FishOS.Mem.Backing
import FishOS.Userland.Elf

/-!
# The loaded image

The loader maps one page after the other, so it is a walk along the list of all pages of
all segments. A page shows the bytes that its own read delivers.
-/

namespace FishOS.Userland

open RadixTree FishOS.Mem FishOS.Fs FishOS.Mem.Pmm

structure ImagePage where
  ph : ProgramHeader
  i : Nat

namespace ImagePage

def virt (x : ImagePage) : Nat := x.ph.pageVirt x.i

end ImagePage

def ProgramHeader.pages (ph : ProgramHeader) : List ImagePage :=
  if ph.type = ptLoad then (List.range ph.memPageCount).map fun i => ⟨ph, i⟩ else []

/-- The pages that `load` maps, in its order. -/
def imagePages (file : NodeData) : List ImagePage :=
  (List.range (readHeader file).phCount).flatMap fun i => (readProgramHeader file (readHeader file) i).pages

def loadAll (file : NodeData) (pml4 : Nat) (s : Phys) (first_free_virt : Nat) : List ImagePage → Option (Phys × Nat)
  | [] => some (s, first_free_virt)
  | x :: rest => do
    let (s, first_free_virt) ← loadPage file x.ph pml4 x.i s first_free_virt
    loadAll file pml4 s first_free_virt rest

theorem loadAll_append (file : NodeData) (pml4 : Nat) (s : Phys) (first_free_virt : Nat)
    (xs ys : List ImagePage) :
    loadAll file pml4 s first_free_virt (xs ++ ys) =
      (loadAll file pml4 s first_free_virt xs).bind fun r => loadAll file pml4 r.1 r.2 ys := by
  induction xs generalizing s first_free_virt with
  | nil => rfl
  | cons x xs ih =>
    simp only [List.cons_append, loadAll, Option.bind_eq_bind, Option.bind_assoc]
    exact congrArg _ (funext fun r => ih r.1 r.2)

theorem loadPages_eq (file : NodeData) (ph : ProgramHeader) (pml4 : Nat) (s : Phys)
    (first_free_virt i n : Nat) :
    loadPages file ph pml4 s first_free_virt i n =
      loadAll file pml4 s first_free_virt ((List.range' i n).map fun i => ⟨ph, i⟩) := by
  induction n generalizing s first_free_virt i with
  | zero => rfl
  | succ n ih =>
    unfold loadPages
    rw [List.range'_succ, List.map_cons, loadAll]
    exact congrArg _ (funext fun r => ih r.1 r.2 (i + 1))

theorem loadSegments_eq (file : NodeData) (header : Header) (pml4 : Nat) (s : Phys)
    (first_free_virt i n : Nat) :
    loadSegments file header pml4 s first_free_virt i n =
      loadAll file pml4 s first_free_virt
        ((List.range' i n).flatMap fun i => (readProgramHeader file header i).pages) := by
  induction n generalizing s first_free_virt i with
  | zero => rfl
  | succ n ih =>
    unfold loadSegments
    rw [List.range'_succ, List.flatMap_cons, loadAll_append]
    dsimp only
    unfold ProgramHeader.pages
    split
    · rw [loadPages_eq, ← List.range_eq_range']
      exact congrArg _ (funext fun r => ih r.1 r.2 (i + 1))
    · exact ih s first_free_virt (i + 1)

theorem load_eq_some {file : NodeData} {pml4 ip first_free_virt : Nat} {s s' : Phys}
    (loaded : load file pml4 s = some (s', ip, first_free_virt)) :
    ∃ end_virt, loadAll file pml4 s 0 (imagePages file) = some (s', end_virt) ∧
      first_free_virt = alignUp end_virt := by
  unfold load at loaded
  dsimp only at loaded
  split at loaded
  · obtain ⟨⟨s₁, end_virt⟩, segments, returned⟩ := Option.bind_eq_some_iff.mp loaded
    obtain ⟨rfl, pair⟩ := Prod.mk.inj (Option.some.inj returned)
    obtain ⟨-, rfl⟩ := Prod.mk.inj pair
    rw [loadSegments_eq, ← List.range_eq_range'] at segments
    exact ⟨end_virt, segments, rfl⟩
  · cases loaded

namespace ProgramHeader

theorem misalign_eq (ph : ProgramHeader) :
    ph.misalign = ph.virtAddr % 0x1000 := Nat.and_two_pow_sub_one_eq_mod _ 12

theorem pageFlags_present (ph : ProgramHeader) : ph.pageFlags &&& pagePresent ≠ 0 := by
  unfold pageFlags
  dsimp only
  split <;> split <;> decide

theorem pageFlags_clear (ph : ProgramHeader) : ph.pageFlags &&& addressMask = 0 := by
  unfold pageFlags
  dsimp only
  split <;> split <;> decide

theorem pageFlags_lt (ph : ProgramHeader) : ph.pageFlags < 2 ^ 64 := by
  unfold pageFlags
  dsimp only
  split <;> split <;> decide

theorem chunk_inside (ph : ProgramHeader) (frame i : Nat) :
    frame ≤ (ph.chunk frame i).1 ∧ (ph.chunk frame i).1 + (ph.chunk frame i).2.1 ≤ frame + 0x1000 := by
  have misalign := ph.misalign_eq
  unfold chunk
  dsimp only
  split
  · dsimp only
    omega
  · split
    · dsimp only
      omega
    · exact ⟨Nat.le_refl _, Nat.le_refl _⟩

theorem chunk_frame (ph : ProgramHeader) (frame i : Nat) :
    ph.chunk frame i = (frame + (ph.chunk 0 i).1, (ph.chunk 0 i).2) := by
  unfold chunk
  dsimp only
  split
  · rw [Nat.zero_add]
  · split <;> rfl

end ProgramHeader

def ImagePage.byte (file : NodeData) (x : ImagePage) (o : Nat) : UInt8 :=
  if x.i < x.ph.filePageCount then
    let (dst, size, offset) := x.ph.chunk 0 x.i
    if dst ≤ o ∧ o < dst + file.transferred size offset then file.storage (offset + (o - dst)) else 0
  else 0

theorem fillPage_other (file : NodeData) (ph : ProgramHeader) (frame i : Nat) (m : Mem) {x : Nat}
    (apart : x < frame ∨ frame + 0x1000 ≤ x) : fillPage file ph frame i m x = m x := by
  have inside := ph.chunk_inside frame i
  unfold fillPage
  generalize ph.chunk frame i = chunk at inside
  obtain ⟨dst, size, offset⟩ := chunk
  dsimp only at inside ⊢
  split
  · exact (file.read_other _ (by omega)).trans (Mem.memset_other m apart)
  · exact Mem.memset_other m apart

theorem fillPage_byte (file : NodeData) (ph : ProgramHeader) (frame i : Nat) (m : Mem) {o : Nat}
    (inside : o < 0x1000) :
    fillPage file ph frame i m (frame + o) = ImagePage.byte file ⟨ph, i⟩ o := by
  have cleared : m.memset frame 0 0x1000 (frame + o) = 0 := Mem.memset_inside m (by omega) (by omega)
  unfold fillPage ImagePage.byte
  dsimp only
  split
  · rw [ph.chunk_frame, NodeData.read_eq]
    generalize ph.chunk 0 i = chunk
    obtain ⟨dst, size, offset⟩ := chunk
    dsimp only
    split
    · rename_i within
      have back : frame + o - (frame + dst) = o - dst := by omega
      rw [Mem.copyIn_inside _ (by omega) (by omega), back]
    · rw [Mem.copyIn_other _ (by omega), cleared]
  · exact cleared

/-- The bytes of a file with one writable segment, its headers in front. -/
def oneSegment (offset virtAddr fileSize memSize : Nat) : Mem :=
  let headers : Mem := fun _ => 0
  let headers := ((headers.writeLE 0 8 0x00010102464C457F).writeLE 18 2 62).writeLE 32 8 64
  let headers := (((headers.writeLE 54 2 56).writeLE 56 2 1).writeLE 64 4 1).writeLE 68 4 6
  (((headers.writeLE 72 8 offset).writeLE 80 8 virtAddr).writeLE 96 8 fileSize).writeLE 104 8 memSize

def nextFree (first_free_virt virt : Nat) : Nat :=
  if virt ≥ first_free_virt then (virt + 0x1000) % 2 ^ 64 else first_free_virt

/-- A page shows its contents as soon as it is mapped. -/
def Shown (file : NodeData) (pml4 : Nat) (s : Phys) (lab : Nat → Option (List (Fin 512))) (x : ImagePage) : Prop :=
  ∃ frame, Backed s lab pml4 x.virt x.ph.pageFlags (x.byte file) frame

section Load

variable {file : NodeData} {pml4 first_free_virt end_virt : Nat} {s s' : Phys}
  {lab : Nat → Option (List (Fin 512))}

theorem loadPage_step {x : ImagePage} (tables : Tables s lab) (top : lab pml4 = some [])
    (loaded : loadPage file x.ph pml4 x.i s first_free_virt = some (s', end_virt)) :
    end_virt = nextFree first_free_virt x.virt ∧
      ∃ lab', Step {path x.virt} s lab s' lab' ∧ Shown file pml4 s' lab' x := by
  unfold loadPage at loaded
  obtain ⟨⟨pmm, frame⟩, allocated, loaded⟩ := Option.bind_eq_some_iff.mp loaded
  obtain ⟨s₁, mapped, returned⟩ := Option.bind_eq_some_iff.mp loaded
  obtain ⟨rfl, rfl⟩ := Prod.mk.inj (Option.some.inj returned)
  obtain ⟨handed, alloc⟩ := allocPages_step (K := {path x.virt}) tables (Nat.le_refl _) allocated
  obtain ⟨lab₁, map, stored⟩ := mapPage_step alloc.tables top mapped
  have unlabelled := map.unlabelled handed.taken (handed.unlabelled tables)
  have outside : ∀ y, y < frame ∨ frame + 0x1000 ≤ y → fillPage file x.ph frame x.i s₁.m y = s₁.m y :=
    fun y apart => fillPage_other file x.ph frame x.i s₁.m apart
  have step := (alloc.trans map).fill handed.aligned handed.free unlabelled outside
  have entry := map.tables.leaf_outside handed.aligned unlabelled outside (map.keeps top)
    (show ([] : List (Fin 512)).length + (path x.virt).length = 4 from rfl)
  have word := leaf_of_reach stored
  rw [Nat.mod_eq_of_lt (leafWord_lt x.ph.pageFlags_lt)] at word
  exact ⟨rfl, lab₁, step, frame, ⟨handed.aligned, map.grows.taken _ handed.taken, unlabelled⟩, handed.bounded,
    entry.trans word, fun o inside => fillPage_byte file x.ph frame x.i s₁.m inside⟩

/-- The loader goes to the entries of its pages only. -/
theorem loadAll_step {xs : List ImagePage} {K : Set (List (Fin 512))} (tables : Tables s lab)
    (top : lab pml4 = some []) (within : ∀ x ∈ xs, path x.virt ∈ K)
    (loaded : loadAll file pml4 s first_free_virt xs = some (s', end_virt)) :
    end_virt = (xs.map ImagePage.virt).foldl nextFree first_free_virt ∧ ∃ lab', Step K s lab s' lab' := by
  induction xs generalizing s lab first_free_virt with
  | nil =>
    obtain ⟨rfl, rfl⟩ := Prod.mk.inj (Option.some.inj loaded)
    exact ⟨rfl, lab, .refl tables⟩
  | cons x xs ih =>
    unfold loadAll at loaded
    obtain ⟨⟨s₁, free⟩, first, loaded⟩ := Option.bind_eq_some_iff.mp loaded
    obtain ⟨rfl, lab₁, step, -⟩ := loadPage_step tables top first
    obtain ⟨free, lab', rest⟩ :=
      ih step.tables (step.keeps top) (fun y member => within y (.tail _ member)) loaded
    have here : ∀ key ∈ ({path x.virt} : Set (List (Fin 512))), ∃ key' ∈ K, key <+: key' :=
      fun key member => ⟨key, member ▸ within x (.head _), List.prefix_rfl⟩
    exact ⟨free, lab', (step.mono here).trans rest⟩

theorem loadAll_shown {xs : List ImagePage} (tables : Tables s lab) (top : lab pml4 = some [])
    (distinct : xs.Pairwise fun x y => page x.virt ≠ page y.virt)
    (loaded : loadAll file pml4 s first_free_virt xs = some (s', end_virt)) :
    ∃ lab', Step {key | ∃ x ∈ xs, key = path x.virt} s lab s' lab' ∧ ∀ x ∈ xs, Shown file pml4 s' lab' x := by
  induction xs generalizing s lab first_free_virt with
  | nil =>
    obtain ⟨rfl, rfl⟩ := Prod.mk.inj (Option.some.inj loaded)
    exact ⟨lab, .refl tables, fun x member => nomatch member⟩
  | cons x xs ih =>
    unfold loadAll at loaded
    obtain ⟨⟨s₁, free⟩, first, loaded⟩ := Option.bind_eq_some_iff.mp loaded
    obtain ⟨-, lab₁, step, frame, backed⟩ := loadPage_step tables top first
    obtain ⟨apart, distinct⟩ := List.pairwise_cons.mp distinct
    obtain ⟨lab', rest, shown⟩ := ih step.tables (step.keeps top) distinct loaded
    have kept := backed.step (step.keeps top) rest fun key ⟨y, member, same⟩ front =>
      apart y member (path_prefix_path.mp (same ▸ front))
    refine ⟨lab', (step.mono ?_).trans (rest.mono ?_), ?_⟩
    · exact fun key member => ⟨key, ⟨x, .head _, member⟩, List.prefix_rfl⟩
    · exact fun key ⟨y, member, same⟩ => ⟨key, ⟨y, .tail _ member, same⟩, List.prefix_rfl⟩
    · intro y member
      rcases List.mem_cons.mp member with rfl | later
      · exact ⟨frame, kept⟩
      · exact shown y later

end Load

end FishOS.Userland
