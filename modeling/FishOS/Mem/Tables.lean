import FishOS.Lib.RadixTree
import FishOS.Mem.Entries
import Mathlib.Data.Set.Basic

/-!
# Trees of page tables

The frames of page tables, of whatever pagemap, are labelled by the indices on the way to
them. A step relates two states of physical memory between which entries changed on the
way to some keys only, where a key is the path of a page.
-/

namespace FishOS.Mem

open RadixTree Pmm

/-- The entry for a page, zero when a table is missing on the way. -/
def leaf (m : Mem) (table : Nat) (path : List (Fin 512)) : Nat := (reach next (word m) table path).getD 0

/-- The labelled frames hold tables and are in use. A physical address has at most 52 bits. -/
structure Tables (s : Phys) (lab : Nat → Option (List (Fin 512))) : Prop where
  labels : Labelling next (word s.m) 4 lab
  aligned : ∀ {t p}, lab t = some p → t % 0x1000 = 0
  taken : ∀ {t p}, lab t = some p → Taken s.pmm.bitmap (t / 0x1000)
  cursor : s.pmm.pageBitmapIndex ≤ s.pmm.bitmap.mSize
  size : s.pmm.bitmap.mSize ≤ 2 ^ 40

structure DataFrame (s : Phys) (lab : Nat → Option (List (Fin 512))) (frame : Nat) : Prop where
  aligned : frame % 0x1000 = 0
  taken : Taken s.pmm.bitmap (frame / 0x1000)
  unlabelled : lab frame = none

structure Step (K : Set (List (Fin 512))) (s : Phys) (lab : Nat → Option (List (Fin 512))) (s' : Phys)
    (lab' : Nat → Option (List (Fin 512))) : Prop where
  tables : Tables s' lab'
  grows : Grows s.pmm.bitmap s'.pmm.bitmap
  keeps : ∀ {t p}, lab t = some p → lab' t = some p
  fresh : ∀ {t p}, lab' t = some p → lab t = some p ∨ ¬Taken s.pmm.bitmap (t / 0x1000)
  held : ∀ {t p i t'}, lab t = some p → p.length < 3 → next (word s.m t i) = some t' → word s'.m t i = word s.m t i
  only : ∀ {t p i}, lab t = some p → (∀ key ∈ K, ¬(p ++ [i]) <+: key) → word s'.m t i = word s.m t i
  leaf : ∀ {t q rest}, lab t = some q → q.length + rest.length = 4 → (∀ key ∈ K, ¬(q ++ rest) <+: key) →
    leaf s'.m t rest = leaf s.m t rest
  data : ∀ {frame x}, DataFrame s lab frame → frame ≤ x → x < frame + 0x1000 → s'.m x = s.m x

section Steps

variable {s s₁ s' : Phys} {lab lab₁ lab' : Nat → Option (List (Fin 512))} {K K' : Set (List (Fin 512))}
  {t t' root : Nat} {p : List (Fin 512)} {i : Fin 512}

theorem Step.unlabelled (step : Step K s lab s' lab') (taken : Taken s.pmm.bitmap (t / 0x1000))
    (none : lab t = none) :
    lab' t = .none := by
  cases label : lab' t with
  | none => rfl
  | some p =>
    rcases step.fresh label with old | free
    · rw [none] at old
      cases old
    · exact absurd taken free

theorem DataFrame.ne {frame : Nat} (data : DataFrame s lab frame) (label : lab t = some p) :
    frame ≠ t := fun same => by
  rw [← same, data.unlabelled] at label
  cases label

theorem DataFrame.step {frame : Nat} (data : DataFrame s lab frame) (step : Step K s lab s' lab') :
    DataFrame s' lab' frame :=
  ⟨data.aligned, step.grows.taken _ data.taken, step.unlabelled data.taken data.unlabelled⟩

theorem Step.trans (first : Step K s lab s₁ lab₁) (second : Step K s₁ lab₁ s' lab') : Step K s lab s' lab' where
  tables := second.tables
  grows := first.grows.trans second.grows
  keeps label := second.keeps (first.keeps label)
  fresh label := by
    rcases second.fresh label with old | new
    · exact first.fresh old
    · exact Or.inr fun taken => new (first.grows.taken _ taken)
  held label short below := by
    have same := first.held label short below
    rw [← same] at below
    rw [second.held (first.keeps label) short below, same]
  only label off := by rw [second.only (first.keeps label) off, first.only label off]
  leaf label length off := by rw [second.leaf (first.keeps label) length off, first.leaf label length off]
  data frame lower upper := by rw [second.data (frame.step first) lower upper, first.data frame lower upper]

theorem Step.mono (step : Step K s lab s' lab') (within : ∀ key ∈ K, ∃ key' ∈ K', key <+: key') :
    Step K' s lab s' lab' := by
  have off : ∀ {q}, (∀ key' ∈ K', ¬q <+: key') → ∀ key ∈ K, ¬q <+: key := by
    intro q off key member front
    obtain ⟨key', member', extends'⟩ := within key member
    exact off key' member' (front.trans extends')
  exact { step with
    only := fun label away => step.only label (off away)
    leaf := fun label length away => step.leaf label length (off away) }

theorem Tables.untouched (tables : Tables s lab) (grows : Grows s.pmm.bitmap s'.pmm.bitmap)
    (cursor : s'.pmm.pageBitmapIndex ≤ s'.pmm.bitmap.mSize)
    (same : ∀ {t p} i, lab t = some p → word s'.m t i = word s.m t i)
    (data : ∀ {frame x}, DataFrame s lab frame → frame ≤ x → x < frame + 0x1000 → s'.m x = s.m x) :
    Step K s lab s' lab where
  tables :=
    { labels := tables.labels.congr fun _ _ i label _ => same i label
      aligned := tables.aligned
      taken := fun label => grows.taken _ (tables.taken label)
      cursor := cursor
      size := grows.size ▸ tables.size }
  grows := grows
  keeps label := label
  fresh label := Or.inl label
  held label _ _ := same _ label
  only label _ := same _ label
  leaf label length _ := by
    unfold FishOS.Mem.leaf
    rw [tables.labels.reach_congr label (Nat.le_of_eq length) fun _ _ i label _ => same i label]
  data := data

theorem Step.refl (tables : Tables s lab) : Step K s lab s lab :=
  tables.untouched (.refl _) tables.cursor (fun _ _ => rfl) fun _ _ _ => rfl

theorem Tables.word_outside (tables : Tables s lab) {m : Mem} {frame : Nat} (aligned : frame % 0x1000 = 0)
    (unlabelled : lab frame = none) (outside : ∀ x, x < frame ∨ frame + 0x1000 ≤ x → m x = s.m x)
    (label : lab t = some p) : word m t i = word s.m t i := by
  have other : t ≠ frame := by
    intro same
    rw [same, unlabelled] at label
    cases label
  exact word_congr (tables.aligned label) aligned other outside

theorem Tables.leaf_outside (tables : Tables s lab) {m : Mem} {frame : Nat} (aligned : frame % 0x1000 = 0)
    (unlabelled : lab frame = none) (outside : ∀ x, x < frame ∨ frame + 0x1000 ≤ x → m x = s.m x)
    (label : lab t = some p) {rest : List (Fin 512)} (length : p.length + rest.length = 4) :
    FishOS.Mem.leaf m t rest = FishOS.Mem.leaf s.m t rest := by
  unfold FishOS.Mem.leaf
  rw [tables.labels.reach_congr label (Nat.le_of_eq length) fun _ _ i label _ =>
    tables.word_outside aligned unlabelled outside label]

theorem Step.fill (step : Step K s lab s₁ lab₁) {m : Mem} {frame : Nat} (aligned : frame % 0x1000 = 0)
    (free : ¬Taken s.pmm.bitmap (frame / 0x1000)) (unlabelled : lab₁ frame = none)
    (outside : ∀ x, x < frame ∨ frame + 0x1000 ≤ x → m x = s₁.m x) :
    Step K s lab { s₁ with m := m } lab₁ := by
  have words : ∀ {t p} i, lab₁ t = some p → word m t i = word s₁.m t i := fun i label =>
    step.tables.word_outside aligned unlabelled outside label
  exact
    { tables := { step.tables with labels := step.tables.labels.congr fun _ _ i label _ => words i label }
      grows := step.grows
      keeps := step.keeps
      fresh := step.fresh
      held := fun label short below => by rw [words _ (step.keeps label), step.held label short below]
      only := fun label off => by rw [words _ (step.keeps label), step.only label off]
      leaf := fun label length off =>
        (step.tables.leaf_outside aligned unlabelled outside (step.keeps label) length).trans (step.leaf label length off)
      data := fun {f x} data lower upper => by
        have other : f ≠ frame := fun same => free (same ▸ data.taken)
        have apart := data.aligned
        exact (outside x (by omega)).trans (step.data data lower upper) }

/-- A frame, or the first of several, that was free before a step and is in use after it. -/
structure Handed (s s' : Phys) (frame : Nat) : Prop where
  aligned : frame % 0x1000 = 0
  bounded : frame < 2 ^ 52
  free : ¬Taken s.pmm.bitmap (frame / 0x1000)
  taken : Taken s'.pmm.bitmap (frame / 0x1000)

theorem Handed.unlabelled (handed : Handed s s₁ t) (tables : Tables s lab) : lab t = none := by
  cases label : lab t with
  | none => rfl
  | some p => exact absurd (tables.taken label) handed.free

theorem allocPages_step {num_pages frame : Nat} {pmm : Pmm} (tables : Tables s lab) (positive : 1 ≤ num_pages)
    (found : s.pmm.allocPages num_pages = some (pmm, frame)) :
    Handed s { s with pmm := pmm } frame ∧ Step K s lab { s with pmm := pmm } lab := by
  obtain ⟨-, cursor, allocated⟩ := allocPages_spec positive tables.cursor found
  have free := allocated.free (frame / 0x1000) (Nat.le_refl _) (by omega)
  have inside : frame / 0x1000 < s.pmm.bitmap.mSize := Nat.lt_of_not_le fun beyond => free (Or.inr beyond)
  have size := tables.size
  exact ⟨⟨allocated.aligned, by omega, free, allocated.marked _ (Nat.le_refl _) (by omega)⟩,
    tables.untouched allocated.grows cursor (fun _ _ => rfl) fun _ _ _ => rfl⟩

theorem allocZeroed_step {frame : Nat} (tables : Tables s lab) (found : s.allocZeroed = some (s', frame)) :
    Handed s s' frame ∧ Step K s lab s' lab ∧ s'.m = s.m.memset frame 0 0x1000 := by
  unfold Phys.allocZeroed at found
  obtain ⟨⟨pmm, page⟩, allocated, same⟩ := Option.bind_eq_some_iff.mp found
  obtain ⟨rfl, rfl⟩ := Prod.mk.inj (Option.some.inj same)
  obtain ⟨handed, step⟩ := allocPages_step (K := K) tables (Nat.le_refl _) allocated
  have cleared := step.fill (m := s.m.memset page 0 0x1000) handed.aligned handed.free (handed.unlabelled tables)
    fun x apart => Mem.memset_other s.m apart
  exact ⟨⟨handed.aligned, handed.bounded, handed.free, handed.taken⟩, cleared, rfl⟩

end Steps

end FishOS.Mem
