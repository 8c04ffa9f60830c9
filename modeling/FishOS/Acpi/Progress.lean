import FishOS.Acpi.Bounds

/-!
# The progress of the MADT walks

The step from an entry to the next is a byte of the table.
-/

namespace FishOS.Acpi

section Visits

variable (m : Mem)

/-- The offsets of the entries that a walk looks at. -/
def visited (madt : Nat) : (fuel o : Nat) → List Nat
  | 0, _ => []
  | fuel + 1, o => if o < sdtSize m madt then o :: visited madt fuel (o + (m (madt + o + 1)).toNat) else []

/-- No entry in the table claims that it has no bytes. -/
def Advances (madt : Nat) : Prop :=
  ∀ k, entryOffset m madt k < sdtSize m madt → m (madt + entryOffset m madt k + 1) ≠ 0

end Visits

variable {m : Mem} {madt sdt fuel k o : Nat} {visit : Nat → List Event} {bspAcpiId : UInt8}

/-- Both walks look at these entries, whatever they do with each. -/
theorem walk_events (m : Mem) (madt : Nat) (visit : Nat → List Event) (fuel o : Nat) :
    ∃ last, (walk m madt visit fuel o).events =
      (visited m madt fuel o).flatMap (fun o => .read (sdtSize m madt) 4 4 ::
        (visit o ++ [.read (sdtSize m madt) (o + 1) 1])) ++ last ∧ last <+: [.read (sdtSize m madt) 4 4] := by
  induction fuel generalizing o with
  | zero => exact ⟨[], rfl, List.nil_prefix⟩
  | succ fuel ih =>
    rw [walk, visited]
    by_cases inside : o < sdtSize m madt
    · obtain ⟨last, events, early⟩ := ih (o + (m (madt + o + 1)).toNat)
      refine ⟨last, ?_, early⟩
      simp [inside, Trace.andThen, Trace.of, events]
    · refine ⟨_, ?_, List.prefix_refl _⟩
      simp [inside, Trace.andThen, Trace.of]

theorem entryOffset_succ (m : Mem) (madt k : Nat) :
    entryOffset m madt (k + 1) = entryOffset m madt k + (m (madt + entryOffset m madt k + 1)).toNat := rfl

theorem entryOffset_stuck (zero : m (madt + entryOffset m madt k + 1) = 0) (j : Nat) :
    entryOffset m madt (k + j) = entryOffset m madt k := by
  induction j with
  | zero => rfl
  | succ j ih =>
    rw [← Nat.add_assoc, entryOffset_succ, ih, zero]
    rfl

theorem Advances.step (advances : Advances m madt) (inside : entryOffset m madt k < sdtSize m madt) :
    entryOffset m madt k < entryOffset m madt (k + 1) := by
  have positive : (m (madt + entryOffset m madt k + 1)).toNat ≠ 0 := fun zero =>
    advances k inside (UInt8.toNat_inj.mp zero)
  rw [entryOffset_succ]
  omega

theorem Advances.reaches (advances : Advances m madt) (k : Nat) :
    sdtSize m madt ≤ entryOffset m madt k ∨ k ≤ entryOffset m madt k := by
  induction k with
  | zero => exact .inr (Nat.zero_le _)
  | succ k ih =>
    have mono := entryOffset_mono m madt (Nat.le_add_right k 1)
    by_cases inside : entryOffset m madt k < sdtSize m madt
    · have step := advances.step inside
      omega
    · omega

theorem madtEnds_iff : MadtEnds m madt ↔ Advances m madt := by
  constructor
  · rintro ⟨j, ends⟩ k inside zero
    have stuck := entryOffset_stuck zero j
    have later := entryOffset_mono m madt (Nat.le_add_left j k)
    omega
  · intro advances
    refine ⟨sdtSize m madt, ?_⟩
    rcases advances.reaches (sdtSize m madt) with ends | ends
    · exact ends
    · exact ends

theorem le_of_mem_visited (member : o ∈ visited m madt fuel (entryOffset m madt k)) : entryOffset m madt k ≤ o := by
  induction fuel generalizing k with
  | zero => cases member
  | succ fuel ih =>
    rw [visited] at member
    split at member
    · rcases List.mem_cons.mp member with rfl | later
      · exact Nat.le_refl _
      · exact (entryOffset_mono m madt (Nat.le_succ k)).trans (ih (k := k + 1) later)
    · cases member

theorem Advances.increasing (advances : Advances m madt) (fuel k : Nat) :
    (visited m madt fuel (entryOffset m madt k)).Pairwise (· < ·) := by
  induction fuel generalizing k with
  | zero => exact .nil
  | succ fuel ih =>
    rw [visited]
    split
    · rename_i inside
      refine .cons (fun o later => ?_) (ih (k + 1))
      exact Nat.lt_of_lt_of_le (advances.step inside) (le_of_mem_visited (k := k + 1) later)
    · exact .nil

theorem parseSdt_finished_iff (apic : hasSignature m sdt ['A', 'P', 'I', 'C'] = true)
    (checksum : doChecksum m sdt (sdtSize m sdt) = true) (bspAcpiId : UInt8) :
    (∃ least, ∀ fuel, least ≤ fuel → (parseSdt m bspAcpiId sdt fuel).finished = true) ↔ MadtEnds m sdt := by
  constructor
  · rintro ⟨least, finished⟩
    have passes := passes_of_finished (finished least (Nat.le_refl _))
    simpa only [apic, if_true] using passes.2
  · intro ends
    exact parseSdt_finished bspAcpiId ⟨checksum, by rwa [if_pos apic]⟩

/-- A MADT with the right checksum is walked to its end, from lower to higher addresses, if and only if
no entry that the walk reaches has the size zero. -/
theorem madt_walks_end_iff (apic : hasSignature m sdt ['A', 'P', 'I', 'C'] = true)
    (checksum : doChecksum m sdt (sdtSize m sdt) = true) (bspAcpiId : UInt8) :
    ((∃ least, ∀ fuel, least ≤ fuel → (parseSdt m bspAcpiId sdt fuel).finished = true) ∧
        ∀ fuel, (visited m sdt fuel madtHeader).Pairwise (· < ·)) ↔
      ∀ k, entryOffset m sdt k < sdtSize m sdt → m (sdt + entryOffset m sdt k + 1) ≠ 0 := by
  rw [parseSdt_finished_iff apic checksum, madtEnds_iff]
  exact and_iff_left_of_imp fun advances fuel => advances.increasing fuel 0

theorem madt_walks_end_iff_timer :
    (∃ least, ∀ fuel, least ≤ fuel → (parseSdt (overriding 0) 0 72 fuel).finished = true) ∧
      ∀ fuel, (visited (overriding 0) 72 fuel madtHeader).Pairwise (· < ·) := by
  refine (madt_walks_end_iff (by decide +kernel) (by decide +kernel) 0).mpr fun k inside => ?_
  cases k with
  | zero => decide +kernel
  | succ k =>
    have ends : sdtSize (overriding 0) 72 ≤ entryOffset (overriding 0) 72 1 := by decide +kernel
    have later := entryOffset_mono (overriding 0) 72 (Nat.succ_le_succ (Nat.zero_le k))
    exact absurd inside (Nat.not_lt.mpr (Nat.le_trans ends later))

/-- A MADT with the right checksum and one entry, of the unknown type 0xFF and of size zero. -/
def endless : Mem := fun a =>
  (['A', 'P', 'I', 'C'].map Char.toUInt8 ++ [46, 0, 0, 0, 0, 182] ++ List.replicate 34 0 ++ [0xFF, 0]).getD a 0

theorem endless_walk : hasSignature endless 0 ['A', 'P', 'I', 'C'] = true ∧
    doChecksum endless 0 (sdtSize endless 0) = true ∧ (∀ fuel, (parseSdt endless 0 0 fuel).finished = false) ∧
    visited endless 0 2 madtHeader = [44, 44] := by
  have apic : hasSignature endless 0 ['A', 'P', 'I', 'C'] = true := by decide +kernel
  refine ⟨apic, by decide +kernel, fun fuel => Bool.eq_false_iff.mpr fun finished => ?_, by decide +kernel⟩
  have passes := (passes_of_finished finished).2
  rw [if_pos apic, madtEnds_iff] at passes
  exact passes 0 (by decide +kernel) (by decide +kernel)

end FishOS.Acpi
