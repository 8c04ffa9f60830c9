import FishOS.Sched.AddressSpace

/-!
# The kernel half

Entries 256 to 511 of a user's PML4 are copies of the kernel's. What user tasks do to them,
and when later mappings of the kernel appear through them.
-/

namespace FishOS.Sched

open RadixTree FishOS.Mem FishOS.Mem.Pmm FishOS.Fs FishOS.Userland Runs

/-- Keys of pages below the kernel half. -/
def lowerKeys : Set (List (Fin 512)) := {key | ∀ i ∈ key.head?, i.val < 256}

/-- No entry of any level that is reached through the kernel half was created or changed. -/
def UpperKept (root : Nat) (m m' : Mem) : Prop :=
  ∀ (i : Fin 512) (rest : List (Fin 512)), 256 ≤ i.val → rest.length < 4 →
    reach next (word m') root (i :: rest) = reach next (word m) root (i :: rest)

theorem UpperKept.refl (root : Nat) (m : Mem) : UpperKept root m m := fun _ _ _ _ => rfl

theorem UpperKept.trans {root : Nat} {m m₁ m' : Mem} (first : UpperKept root m m₁)
    (second : UpperKept root m₁ m') :
    UpperKept root m m' := fun i rest upper short => (second i rest upper short).trans (first i rest upper short)

theorem path_mem_lowerKeys {virt : Nat} : path virt ∈ lowerKeys ↔ (level virt 39).val < 256 := by
  simp [lowerKeys, path]

theorem upperKept_of_step {s s' : Phys} {lab lab' : Nat → Option (List (Fin 512))} {root : Nat}
    (step : Step lowerKeys s lab s' lab') (tables : Tables s lab) (top : lab root = some []) :
    UpperKept root s.m s'.m := by
  intro i rest upper short
  have within : ([] : List (Fin 512)).length + (i :: rest).length ≤ 4 := by
    simp only [List.length_nil, List.length_cons]
    omega
  apply tables.labels.reach_congr top within
  intro u p j label front
  apply step.only label
  intro key lower front'
  -- the entry lies on both ways, so the key begins with `i` as well
  have first : (p ++ [j]).head? = some i := by
    obtain ⟨more, same⟩ := front
    cases p with
    | nil => simpa using congrArg List.head? same
    | cons k p => simpa using congrArg List.head? same
  have head : key.head? = some i := by
    obtain ⟨more, same⟩ := front'
    rw [← same, List.head?_append, first]
    rfl
  have below := lower i (by rw [head]; rfl)
  omega

/-- A fault that finds all tables, and either a present entry or no range, changes nothing. -/
def Settled (m : Mem) (pagemap : Pagemap) (virt : Nat) : Prop :=
  ∃ w, reach next (word m) pagemap.pml4 (path virt) = some w ∧
    (w &&& pagePresent ≠ 0 ∨ addrToRange pagemap virt = none)

theorem handlePageFault_settled {hhdm virt : Nat} {s : Phys} {pagemap : Pagemap}
    (settled : Settled s.m pagemap virt) :
    handlePageFault hhdm s pagemap virt = some (s, true) := by
  obtain ⟨w, found, quiet⟩ := settled
  have shape : path virt = tablePath virt ++ [level virt 12] := rfl
  rw [shape, reach_snoc] at found
  obtain ⟨t, way, read⟩ := Option.map_eq_some_iff.mp found
  have entry : entry s.m t ((virt >>> 12) &&& 0x1FF) = w := read
  unfold handlePageFault
  rw [lastTable_of_follow way, Option.bind_eq_bind, Option.bind_some]
  dsimp only
  rw [entry]
  split
  · rename_i zero
    rcases quiet with present | none
    · exact absurd zero present
    · rw [none]
  · rfl

def FaultsLow (state : Phys × UserTask) : UserTask.Event → Prop
  | .mmap _ _ _ => True
  | .fault virt => (level virt 39).val < 256 ∨ Settled state.1.m state.2.pagemap virt

/-- A user task whose program and stack lie in the lower half leaves the kernel half alone, as
long as it takes no fault there that needs a table or that a range covers. -/
theorem user_task_keeps_kernel_half {k : Kernel} {s₁ s₂ s' : Phys} {pagemap : Pagemap} {file : NodeData}
    {task task' : UserTask} (reached : k.Reachable fun _ _ => True)
    (fresh : newUserPagemap k.phys k.kernelPagemap.pml4 = some (s₁, pagemap))
    (filled : fillUserPagemap s₁ k.hhdm pagemap file = some (s₂, task))
    (image : ∀ x ∈ imagePages file, (level x.virt 39).val < 256)
    (stack : ∀ virt ∈ stackPages task.stack (stackSize / 0x1000), (level virt 39).val < 256)
    (run : Run (UserTask.step k.hhdm) FaultsLow (s₂, task) (s', task')) :
    UpperKept pagemap.pml4 s₁.m s₂.m ∧ UpperKept pagemap.pml4 s₁.m s'.m := by
  obtain ⟨lab, labelled⟩ := reached.labelled
  obtain ⟨lab₁, adopt, top, -⟩ := newUserPagemap_step (K := ∅) labelled.tables labelled.root fresh
  obtain ⟨same, lab₂, fill⟩ := fillUserPagemap_step adopt.tables top filled
    (fun x member => path_mem_lowerKeys.mpr (image x member)) fun virt member => path_mem_lowerKeys.mpr (stack virt member)
  have filledKept := upperKept_of_step fill adopt.tables top
  refine ⟨filledKept, ?_⟩
  have invariant := run.invariant (P := fun state => state.2.pagemap.pml4 = pagemap.pml4 ∧
    (∃ lab, Tables state.1 lab ∧ lab pagemap.pml4 = some []) ∧ UpperKept pagemap.pml4 s₁.m state.1.m) ?_ ?_
  · exact invariant.2.2
  · exact ⟨by rw [same], ⟨lab₂, fill.tables, fill.keeps top⟩, filledKept⟩
  · rintro ⟨s, t⟩ event ⟨s', t'⟩ ⟨root, ⟨lab, tables, top⟩, kept⟩ allowed stepped
    dsimp only at root kept ⊢
    by_cases low : ∀ virt, event = .fault virt → path virt ∈ lowerKeys
    · obtain ⟨root', lab', step⟩ := userStep_step tables (root ▸ top) stepped low
      exact ⟨root'.trans root, ⟨lab', step.tables, step.keeps top⟩, kept.trans (upperKept_of_step step tables top)⟩
    · cases UserTask.step_cases stepped with
      | mmap length prot flags => exact absurd (fun _ same => nomatch same) low
      | fault virt s' unhandled faulted =>
        have settled : Settled s.m t.pagemap virt := by
          apply allowed.resolve_left
          intro below
          exact low fun _ same => UserTask.Event.fault.inj same ▸ path_mem_lowerKeys.mpr below
        rw [handlePageFault_settled settled] at faulted
        obtain ⟨rfl, -⟩ := Prod.mk.inj (Option.some.inj faulted)
        exact ⟨root, ⟨lab, tables, top⟩, kept⟩

theorem user_task_keeps_kernel_half_low : ∃ s₁ pagemap s₂ task,
    newUserPagemap Kernel.small.phys Kernel.small.kernelPagemap.pml4 = some (s₁, pagemap) ∧
    fillUserPagemap s₁ Kernel.small.hhdm pagemap (onePage 0x400000) = some (s₂, task) ∧
    UpperKept pagemap.pml4 s₁.m s₂.m := by
  have evaluated : ((newUserPagemap Kernel.small.phys Kernel.small.kernelPagemap.pml4).bind fun r =>
      (fillUserPagemap r.1 Kernel.small.hhdm r.2 (onePage 0x400000)).map fun r => r.2.stack) =
        some 0x401000 := by
    decide +kernel
  obtain ⟨⟨s₁, pagemap⟩, fresh, evaluated⟩ := Option.bind_eq_some_iff.mp evaluated
  obtain ⟨⟨s₂, task⟩, filled, stack⟩ := Option.map_eq_some_iff.mp evaluated
  have image : ∀ x ∈ imagePages (onePage 0x400000), (level x.virt 39).val < 256 := by decide +kernel
  have low : ∀ virt ∈ stackPages task.stack (stackSize / 0x1000), (level virt 39).val < 256 := by
    rw [show task.stack = 0x401000 from stack]
    decide +kernel
  have kept := user_task_keeps_kernel_half Kernel.small_reachable fresh filled image low (.refl _)
  exact ⟨s₁, pagemap, s₂, task, fresh, filled, kept.1⟩

/-- A program with a segment in the kernel half makes a new entry in the PML4 there. -/
theorem user_task_maps_kernel_half : ∃ s₁ pagemap s₂ task, Kernel.small.Reachable (fun _ _ => True) ∧
    newUserPagemap Kernel.small.phys Kernel.small.kernelPagemap.pml4 = some (s₁, pagemap) ∧
    fillUserPagemap s₁ Kernel.small.hhdm pagemap (onePage 0xFFFF800000000000) = some (s₂, task) ∧
    ¬UpperKept pagemap.pml4 s₁.m s₂.m := by
  have evaluated : ((newUserPagemap Kernel.small.phys Kernel.small.kernelPagemap.pml4).bind fun r =>
      (fillUserPagemap r.1 Kernel.small.hhdm r.2 (onePage 0xFFFF800000000000)).map fun r' =>
        (r.1.m (r.2.pml4 + 8 * 256), r'.1.m (r.2.pml4 + 8 * 256))) = some (0, 7) := by
    decide +kernel
  obtain ⟨⟨s₁, pagemap⟩, fresh, evaluated⟩ := Option.bind_eq_some_iff.mp evaluated
  obtain ⟨⟨s₂, task⟩, filled, evaluated⟩ := Option.map_eq_some_iff.mp evaluated
  obtain ⟨before, after⟩ := Prod.mk.inj evaluated
  refine ⟨s₁, pagemap, s₂, task, Kernel.small_reachable, fresh, filled, ?_⟩
  intro kept
  have same : word s₂.m pagemap.pml4 256 = word s₁.m pagemap.pml4 256 :=
    Option.some.inj (kept 256 [] (by decide) (by decide))
  have bytes : (s₂.m (pagemap.pml4 + 8 * 256)).toNat = (s₁.m (pagemap.pml4 + 8 * 256)).toNat := by
    have low := word_mod s₂.m pagemap.pml4 256
    rw [same, word_mod] at low
    exact low.symm
  rw [show s₁.m (pagemap.pml4 + 8 * 256) = 0 from before, show s₂.m (pagemap.pml4 + 8 * 256) = 7 from after] at bytes
  exact absurd bytes (by decide)

def translate (m : Mem) (root virt : Nat) : Option (Nat × Nat) :=
  let e := leaf m root (path virt)
  if e &&& pagePresent ≠ 0 then some (e &&& addressMask, e &&& flagsMask) else none

def TopPresent (k : Kernel) (virt : Nat) : Prop :=
  (next (word k.phys.m k.kernelPagemap.pml4 (level virt 39))).isSome

/-- Mappings and faults of the kernel, in the kernel half only where the PML4 has an entry. -/
def SharesTop (k : Kernel) : Kernel.Event → Prop
  | .mapPage _ virt _ => (level virt 39).val < 256 ∨ TopPresent k virt
  | .fault virt => (level virt 39).val < 256 ∨ TopPresent k virt
  | .newUserTask _ => False
  | .user _ _ => False

/-- Two roots agree in the entries of the upper half. -/
structure SameUpper (s : Phys) (root pml4 : Nat) (lab : Nat → Option (List (Fin 512))) : Prop where
  tables : Tables s lab
  rootLabel : lab root = some []
  pml4Label : lab pml4 = some []
  same : ∀ i : Fin 512, 256 ≤ i.val → word s.m pml4 i = word s.m root i

theorem SameUpper.step {s s' : Phys} {root pml4 virt : Nat} {lab lab' : Nat → Option (List (Fin 512))}
    (shared : SameUpper s root pml4 lab) (step : Step {path virt} s lab s' lab')
    (top : (level virt 39).val < 256 ∨ (next (word s.m root (level virt 39))).isSome) :
    SameUpper s' root pml4 lab' := by
  refine ⟨step.tables, step.keeps shared.rootLabel, step.keeps shared.pml4Label, ?_⟩
  intro i upper
  by_cases here : i = level virt 39
  · subst here
    obtain ⟨t, below⟩ := Option.isSome_iff_exists.mp (top.resolve_left (Nat.not_lt.mpr upper))
    have user : next (word s.m pml4 (level virt 39)) = some t := by rw [shared.same _ upper, below]
    rw [step.held shared.rootLabel (by decide) below, step.held shared.pml4Label (by decide) user, shared.same _ upper]
  · have off : ∀ key ∈ ({path virt} : Set (List (Fin 512))), ¬([] ++ [i]) <+: key := by
      intro key member front
      obtain rfl : key = path virt := member
      obtain ⟨rest, same⟩ := front
      exact here (List.cons.inj same).1
    rw [step.only shared.rootLabel off, step.only shared.pml4Label off, shared.same i upper]

theorem SameUpper.translate {s : Phys} {root pml4 virt : Nat} {lab : Nat → Option (List (Fin 512))}
    (shared : SameUpper s root pml4 lab) (upper : 256 ≤ (level virt 39).val) :
    translate s.m pml4 virt = translate s.m root virt := by
  have entry : leaf s.m pml4 (path virt) = leaf s.m root (path virt) := by
    unfold leaf path
    rw [reach, reach, shared.same _ upper]
  unfold FishOS.Sched.translate
  rw [entry]

/-- The kernel half stays shared as long as the kernel makes no new entry in its PML4. -/
theorem kernel_half_shared {k k' : Kernel} {s : Phys} {pagemap : Pagemap}
    (reached : k.Reachable fun _ _ => True)
    (fresh : newUserPagemap k.phys k.kernelPagemap.pml4 = some (s, pagemap))
    (run : Run Kernel.step SharesTop { k with phys := s } k') :
    ∀ virt, 256 ≤ (level virt 39).val →
      translate k'.phys.m pagemap.pml4 virt = translate k'.phys.m k'.kernelPagemap.pml4 virt := by
  obtain ⟨lab, labelled⟩ := reached.labelled
  obtain ⟨lab₁, adopt, top, user⟩ := newUserPagemap_step (K := ∅) labelled.tables labelled.root fresh
  have invariant := run.invariant (P := fun k' => ∃ lab, SameUpper k'.phys k'.kernelPagemap.pml4 pagemap.pml4 lab)
    ⟨lab₁, adopt.tables, adopt.keeps labelled.root, top, user.upper⟩ ?_
  · obtain ⟨lab', shared⟩ := invariant
    exact fun virt upper => shared.translate upper
  · rintro k event k' ⟨lab, shared⟩ permitted stepped
    cases Kernel.step_cases stepped with
    | mapPage phy virt flags s' mapped =>
      obtain ⟨lab', map, -⟩ := mapPage_step shared.tables shared.rootLabel mapped
      exact ⟨lab', shared.step map permitted⟩
    | fault virt s' faulted =>
      obtain ⟨⟨lab', fault⟩, -⟩ := handlePageFault_step shared.tables shared.rootLabel faulted
      exact ⟨lab', shared.step fault permitted⟩
    | newUserTask file s' task made => exact permitted.elim
    | user index event task s' task' found moved => exact permitted.elim

def KernelOnly (_ : Kernel) : Kernel.Event → Prop
  | .mapPage _ _ _ => True
  | .fault _ => True
  | .newUserTask _ => False
  | .user _ _ => False

theorem kernel_half_shared_low : ∃ s pagemap k',
    newUserPagemap Kernel.small.phys Kernel.small.kernelPagemap.pml4 = some (s, pagemap) ∧
    Kernel.step { Kernel.small with phys := s } (.mapPage 0x5000 0x400000 3) = some k' ∧
    ∀ virt, 256 ≤ (level virt 39).val →
      translate k'.phys.m pagemap.pml4 virt = translate k'.phys.m k'.kernelPagemap.pml4 virt := by
  have evaluated : ((newUserPagemap Kernel.small.phys Kernel.small.kernelPagemap.pml4).bind fun r =>
      Kernel.step { Kernel.small with phys := r.1 } (.mapPage 0x5000 0x400000 3)).isSome := by
    decide +kernel
  obtain ⟨k', evaluated⟩ := Option.isSome_iff_exists.mp evaluated
  obtain ⟨⟨s, pagemap⟩, fresh, stepped⟩ := Option.bind_eq_some_iff.mp evaluated
  have low : SharesTop { Kernel.small with phys := s } (.mapPage 0x5000 0x400000 3) := Or.inl (by decide)
  have shared := kernel_half_shared Kernel.small_reachable fresh (.snoc (.refl _) low stepped)
  exact ⟨s, pagemap, k', fresh, stepped, shared⟩

/-- The first mapping of the kernel in a new top-level entry is not there for a user pagemap made before. -/
theorem kernel_half_diverges : ∃ s pagemap k', Kernel.small.Reachable (fun _ _ => True) ∧
    newUserPagemap Kernel.small.phys Kernel.small.kernelPagemap.pml4 = some (s, pagemap) ∧
    Run Kernel.step KernelOnly { Kernel.small with phys := s } k' ∧
    256 ≤ (level 0xFFFF800000000000 39).val ∧
    translate k'.phys.m pagemap.pml4 0xFFFF800000000000 = none ∧
    translate k'.phys.m k'.kernelPagemap.pml4 0xFFFF800000000000 = some (0x5000, 3) := by
  have evaluated : ((newUserPagemap Kernel.small.phys Kernel.small.kernelPagemap.pml4).bind fun r =>
      (Kernel.step { Kernel.small with phys := r.1 } (.mapPage 0x5000 0xFFFF800000000000 3)).map fun k' =>
        (translate k'.phys.m r.2.pml4 0xFFFF800000000000,
          translate k'.phys.m k'.kernelPagemap.pml4 0xFFFF800000000000)) = some (none, some (0x5000, 3)) := by
    decide +kernel
  obtain ⟨⟨s, pagemap⟩, fresh, evaluated⟩ := Option.bind_eq_some_iff.mp evaluated
  obtain ⟨k', stepped, evaluated⟩ := Option.map_eq_some_iff.mp evaluated
  obtain ⟨user, kernel⟩ := Prod.mk.inj evaluated
  have upper : 256 ≤ (level 0xFFFF800000000000 39).val := by decide +kernel
  have permitted : KernelOnly { Kernel.small with phys := s } (.mapPage 0x5000 0xFFFF800000000000 3) := trivial
  have run : Run Kernel.step KernelOnly { Kernel.small with phys := s } k' := .snoc (.refl _) permitted stepped
  exact ⟨s, pagemap, k', Kernel.small_reachable, fresh, run, upper, user, kernel⟩

end FishOS.Sched
