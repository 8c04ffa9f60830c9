import FishOS.Acpi.Tables

/-!
# The bounds of the ACPI tables

Which tables `parse_rsdp` reads inside of the sizes that they declare.
-/

namespace FishOS.Acpi

namespace Trace

variable {a b : Trace} {events : List Event} {passed : Bool}

def Good (t : Trace) : Prop := ∀ e ∈ t.events, e.Good

theorem good_andThen : (a.andThen b).Good ↔ a.Good ∧ (a.finished = true → b.Good) := by
  unfold andThen Good
  split
  · rename_i finished
    simp [finished, or_imp, forall_and]
  · rename_i stopped
    simp [stopped]

theorem finished_andThen : (a.andThen b).finished = true ↔ a.finished = true ∧ b.finished = true := by
  unfold andThen
  split <;> simp [*]

@[simp] theorem good_of : (of events).Good ↔ ∀ e ∈ events, e.Good := Iff.rfl

@[simp] theorem finished_of : (of events).finished = true := rfl

@[simp] theorem good_require : (require passed).Good := fun _ member => absurd member List.not_mem_nil

@[simp] theorem finished_require : (require passed).finished = passed := rfl

theorem good_of_andThen : ((of events).andThen b).Good ↔ (∀ e ∈ events, e.Good) ∧ b.Good := by
  rw [good_andThen, good_of, finished_of]
  simp

theorem good_require_andThen : ((require passed).andThen b).Good ↔ (passed = true → b.Good) := by
  rw [good_andThen, finished_require]
  simp

end Trace

section Bounds

variable (m : Mem)

/-- The offset of the `k`-th entry of a MADT. -/
def entryOffset (madt : Nat) : Nat → Nat
  | 0 => madtHeader
  | k + 1 => entryOffset madt k + (m (madt + entryOffset madt k + 1)).toNat

/-- How far `parse_madt` reads an entry of a type. -/
def extent (type : UInt8) : Nat :=
  if type = 0 then 8 else if type = 1 then 12 else if type = 2 then 10
  else if type = 4 then 6 else if type = 5 then 12 else 2

def EntryFits (madt o : Nat) : Prop :=
  o + extent (m (madt + o)) ≤ sdtSize m madt ∧ (m (madt + o) = 2 → (m (madt + o + 3)).toNat < 16)

/-- The fields that `parse_madt` reads are in the table, and every entry that begins in it fits. -/
def MadtFits (madt : Nat) : Prop :=
  40 ≤ sdtSize m madt ∧ ∀ k, entryOffset m madt k < sdtSize m madt → EntryFits m madt (entryOffset m madt k)

/-- No entry before the end of the table has the size zero. -/
def MadtEnds (madt : Nat) : Prop := ∃ k, sdtSize m madt ≤ entryOffset m madt k

def SdtFits (sdt : Nat) : Prop :=
  8 ≤ sdtSize m sdt ∧
    (doChecksum m sdt (sdtSize m sdt) = true →
      if hasSignature m sdt ['A', 'P', 'I', 'C'] then MadtFits m sdt
      else if hasSignature m sdt ['H', 'P', 'E', 'T'] then 52 ≤ sdtSize m sdt
      else True)

/-- `parse_sdt` returns. -/
def SdtPasses (sdt : Nat) : Prop :=
  doChecksum m sdt (sdtSize m sdt) = true ∧
    if hasSignature m sdt ['A', 'P', 'I', 'C'] then MadtEnds m sdt
    else if hasSignature m sdt ['H', 'P', 'E', 'T'] then m (sdt + 40) = 0 ∨ m (sdt + 40) = 1
    else True

/-- Every table that is reached fits. -/
def RootFits (hhdm table width : Nat) : Prop :=
  36 ≤ sdtSize m table ∧ ∀ i < (sdtSize m table - 36) / width,
    (∀ j < i, SdtPasses m (listedTable m hhdm table width j)) → SdtFits m (listedTable m hhdm table width i)

/-- All sizes leave room for what is read, as far as the tables are reached. -/
def TablesFit (hhdm rsdp : Nat) : Prop :=
  (revision m rsdp = 0 → RootFits m hhdm (rsdtAddr m hhdm rsdp) 4) ∧
    (revision m rsdp = 2 → 32 ≤ rsdpSize m rsdp ∧ RootFits m hhdm (xsdtAddr m hhdm rsdp) 8)

/-- The tests of `parse_rsdp`. -/
structure RootPasses (hhdm rsdp : Nat) : Prop where
  signature : hasSignature m rsdp ['R', 'S', 'D', ' ', 'P', 'T', 'R', ' '] = true
  checksum : doChecksum m rsdp rsdp1Size = true
  rsdt : revision m rsdp = 0 → hasSignature m (rsdtAddr m hhdm rsdp) ['R', 'S', 'D', 'T'] = true ∧
    doChecksum m (rsdtAddr m hhdm rsdp) (sdtSize m (rsdtAddr m hhdm rsdp)) = true
  extended : revision m rsdp = 2 → doChecksum m (rsdp + rsdp1Size) (extendedSize m rsdp) = true
  xsdt : revision m rsdp = 2 → hasSignature m (xsdtAddr m hhdm rsdp) ['X', 'S', 'D', 'T'] = true ∧
    doChecksum m (xsdtAddr m hhdm rsdp) (sdtSize m (xsdtAddr m hhdm rsdp)) = true

end Bounds

variable {m : Mem} {madt size o k fuel : Nat} {visit : Nat → List Event} {bspAcpiId : UInt8}

theorem madtEntry_good :
    (∀ e ∈ madtEntry m madt size o ++ [.read size (o + 1) 1], e.Good) ↔
      o + extent (m (madt + o)) ≤ size ∧ (m (madt + o) = 2 → (m (madt + o + 3)).toNat < 16) := by
  by_cases lapic : m (madt + o) = 0
  · simp only [madtEntry, extent, lapic, if_true]
    split <;> simp [Event.Good] <;> omega
  by_cases ioapic : m (madt + o) = 1
  · simp [madtEntry, extent, ioapic, Event.Good]
    omega
  by_cases override : m (madt + o) = 2
  · simp [madtEntry, extent, override, Event.Good]
    omega
  by_cases nmi : m (madt + o) = 4
  · simp [madtEntry, extent, nmi, Event.Good]
    omega
  by_cases address : m (madt + o) = 5
  · simp [madtEntry, extent, address, Event.Good]
    omega
  · simp [madtEntry, extent, lapic, ioapic, override, nmi, address, Event.Good]
    omega

/-- The second loop reads nothing that the first one has not read. -/
theorem madtNmi_good (fits : EntryFits m madt o) :
    ∀ e ∈ madtNmi m bspAcpiId madt (sdtSize m madt) o ++ [.read (sdtSize m madt) (o + 1) 1], e.Good := by
  obtain ⟨inside, _⟩ := fits
  have least : 2 ≤ extent (m (madt + o)) := by
    unfold extent
    split_ifs <;> omega
  simp only [madtNmi]
  split
  · rename_i nmi
    have six : extent (m (madt + o)) = 6 := by
      rw [nmi]
      rfl
    split <;> simp [Event.Good] <;> omega
  · simp [Event.Good]
    omega

theorem entryOffset_mono (m : Mem) (madt : Nat) {j k : Nat} (le : j ≤ k) : entryOffset m madt j ≤ entryOffset m madt k := by
  induction k, le using Nat.le_induction with
  | base => exact Nat.le_refl _
  | succ k _ ih => exact Nat.le_trans ih (Nat.le_add_right _ _)

theorem walk_succ (m : Mem) (madt : Nat) (visit : Nat → List Event) (fuel k : Nat) :
    walk m madt visit (fuel + 1) (entryOffset m madt k) =
      (Trace.of [.read (sdtSize m madt) 4 4]).andThen
        (if entryOffset m madt k < sdtSize m madt then
          (Trace.of (visit (entryOffset m madt k) ++ [.read (sdtSize m madt) (entryOffset m madt k + 1) 1])).andThen
            (walk m madt visit fuel (entryOffset m madt (k + 1)))
        else .of []) := rfl

/-- A walk from the `k`-th entry on. -/
theorem walk_good (declared : 8 ≤ sdtSize m madt)
    (fits : ∀ k, entryOffset m madt k < sdtSize m madt →
      ∀ e ∈ visit (entryOffset m madt k) ++ [.read (sdtSize m madt) (entryOffset m madt k + 1) 1], e.Good)
    (fuel k : Nat) : (walk m madt visit fuel (entryOffset m madt k)).Good := by
  induction fuel generalizing k with
  | zero => exact fun _ member => absurd member List.not_mem_nil
  | succ fuel ih =>
    rw [walk_succ, Trace.good_of_andThen]
    refine ⟨by simpa [Event.Good] using declared, ?_⟩
    split
    · rename_i inside
      rw [Trace.good_of_andThen]
      exact ⟨fits k inside, ih (k + 1)⟩
    · simp

theorem good_of_walk {j : Nat} (enough : j < fuel) (good : (walk m madt visit fuel (entryOffset m madt k)).Good)
    (inside : entryOffset m madt (k + j) < sdtSize m madt) :
    ∀ e ∈ visit (entryOffset m madt (k + j)) ++ [.read (sdtSize m madt) (entryOffset m madt (k + j) + 1) 1], e.Good := by
  induction j generalizing fuel k with
  | zero =>
    obtain ⟨fuel, rfl⟩ := Nat.exists_eq_add_of_le' enough
    rw [Nat.add_zero] at inside ⊢
    rw [walk_succ, Trace.good_of_andThen, if_pos inside, Trace.good_of_andThen] at good
    exact good.2.1
  | succ j ih =>
    obtain ⟨fuel, rfl⟩ := Nat.exists_eq_add_of_lt (Nat.lt_of_succ_lt enough)
    have here : entryOffset m madt k < sdtSize m madt :=
      Nat.lt_of_le_of_lt (entryOffset_mono m madt (Nat.le_add_right k (j + 1))) inside
    rw [walk_succ, Trace.good_of_andThen, if_pos here, Trace.good_of_andThen] at good
    rw [show k + (j + 1) = k + 1 + j by omega] at inside ⊢
    exact ih (by omega) good.2.2 inside

theorem walk_finished_iff :
    (walk m madt visit fuel (entryOffset m madt k)).finished = true ↔ ∃ j < fuel, sdtSize m madt ≤ entryOffset m madt (k + j) := by
  induction fuel generalizing k with
  | zero => simp [walk]
  | succ fuel ih =>
    rw [walk_succ, Trace.finished_andThen]
    by_cases inside : entryOffset m madt k < sdtSize m madt
    · rw [if_pos inside, Trace.finished_andThen, ih]
      simp only [Trace.finished_of, true_and]
      constructor
      · rintro ⟨j, less, ends⟩
        exact ⟨j + 1, by omega, by rw [show k + (j + 1) = k + 1 + j by omega]; exact ends⟩
      · rintro ⟨j, less, ends⟩
        cases j with
        | zero => exact absurd ends (Nat.not_le.mpr inside)
        | succ j => exact ⟨j, by omega, by rw [show k + 1 + j = k + (j + 1) by omega]; exact ends⟩
    · rw [if_neg inside]
      exact iff_of_true ⟨rfl, rfl⟩ ⟨0, by omega, Nat.not_lt.mp inside⟩

theorem parseMadt_good : (parseMadt m bspAcpiId madt fuel).Good ↔ 40 ≤ sdtSize m madt ∧
    (walk m madt (madtEntry m madt (sdtSize m madt)) fuel (entryOffset m madt 0)).Good ∧
    ((walk m madt (madtEntry m madt (sdtSize m madt)) fuel (entryOffset m madt 0)).finished = true →
      (walk m madt (madtNmi m bspAcpiId madt (sdtSize m madt)) fuel (entryOffset m madt 0)).Good) := by
  rw [parseMadt, Trace.good_of_andThen, Trace.good_andThen]
  simp [Event.Good, entryOffset]

theorem MadtFits.good (fits : MadtFits m madt) (fuel : Nat) : (parseMadt m bspAcpiId madt fuel).Good := by
  obtain ⟨start, entries⟩ := fits
  refine parseMadt_good.mpr ⟨start, ?_, fun _ => ?_⟩
  · exact walk_good (by omega) (fun k inside => madtEntry_good.mpr (entries k inside)) fuel 0
  · exact walk_good (by omega) (fun k inside => madtNmi_good (entries k inside)) fuel 0

theorem madtFits_of_good {least : Nat} (good : ∀ fuel, least ≤ fuel → (parseMadt m bspAcpiId madt fuel).Good) :
    MadtFits m madt := by
  refine ⟨(parseMadt_good.mp (good least (Nat.le_refl _))).1, fun k inside => ?_⟩
  have walked := (parseMadt_good.mp (good (least + k + 1) (by omega))).2.1
  have entry := good_of_walk (k := 0) (j := k) (by omega) walked (by rw [Nat.zero_add]; exact inside)
  rw [Nat.zero_add] at entry
  exact madtEntry_good.mp entry

theorem parseMadt_finished_iff :
    (parseMadt m bspAcpiId madt fuel).finished = true ↔ ∃ k < fuel, sdtSize m madt ≤ entryOffset m madt k := by
  have walked (visit : Nat → List Event) : (walk m madt visit fuel madtHeader).finished = true ↔
      ∃ k < fuel, sdtSize m madt ≤ entryOffset m madt k := by
    show (walk m madt visit fuel (entryOffset m madt 0)).finished = true ↔ _
    rw [walk_finished_iff]
    simp only [Nat.zero_add]
  rw [parseMadt, Trace.finished_andThen, Trace.finished_andThen, walked, walked]
  simp

theorem sdtHeader_good {size : Nat} :
    (∀ e ∈ [Event.read size 0 4, .read size 4 4, .read size 0 size], e.Good) ↔ 8 ≤ size := by
  simp [Event.Good]
  omega

theorem parseHpet_good {table : Nat} : (parseHpet m table).Good ↔ 52 ≤ sdtSize m table := by
  rw [parseHpet, Trace.good_of_andThen]
  simp [Event.Good]

theorem parseSdt_good {sdt : Nat} : (parseSdt m bspAcpiId sdt fuel).Good ↔ 8 ≤ sdtSize m sdt ∧
    (doChecksum m sdt (sdtSize m sdt) = true →
      if hasSignature m sdt ['A', 'P', 'I', 'C'] then (parseMadt m bspAcpiId sdt fuel).Good
      else if hasSignature m sdt ['H', 'P', 'E', 'T'] then 52 ≤ sdtSize m sdt
      else True) := by
  rw [parseSdt, Trace.good_of_andThen, sdtHeader_good, Trace.good_require_andThen]
  refine and_congr_right fun _ => forall_congr' fun _ => ?_
  split
  · rfl
  split
  · exact parseHpet_good
  · simp

theorem SdtFits.good {sdt : Nat} (fits : SdtFits m sdt) (fuel : Nat) : (parseSdt m bspAcpiId sdt fuel).Good := by
  refine parseSdt_good.mpr ⟨fits.1, fun checksum => ?_⟩
  have rest := fits.2 checksum
  split
  · rename_i apic
    rw [if_pos apic] at rest
    exact rest.good fuel
  · rename_i other
    rw [if_neg other] at rest
    exact rest

theorem sdtFits_of_good {sdt least : Nat} (good : ∀ fuel, least ≤ fuel → (parseSdt m bspAcpiId sdt fuel).Good) :
    SdtFits m sdt := by
  refine ⟨(parseSdt_good.mp (good least (Nat.le_refl _))).1, fun checksum => ?_⟩
  have rest := fun fuel enough => (parseSdt_good.mp (good fuel enough)).2 checksum
  split
  · rename_i apic
    simp only [apic, if_true] at rest
    exact madtFits_of_good rest
  · rename_i other
    have rest := rest least (Nat.le_refl _)
    rw [if_neg other] at rest
    exact rest

theorem parseSdt_finished {sdt : Nat} (bspAcpiId : UInt8) (passes : SdtPasses m sdt) :
    ∃ least, ∀ fuel, least ≤ fuel → (parseSdt m bspAcpiId sdt fuel).finished = true := by
  obtain ⟨checksum, ends⟩ := passes
  simp only [parseSdt, Trace.finished_andThen, Trace.finished_of, Trace.finished_require, checksum, true_and]
  split
  · rename_i apic
    rw [if_pos apic] at ends
    obtain ⟨k, ends⟩ := ends
    exact ⟨k + 1, fun fuel enough => parseMadt_finished_iff.mpr ⟨k, enough, ends⟩⟩
  rename_i apic
  rw [if_neg apic] at ends
  split
  · rename_i hpet
    rw [if_pos hpet] at ends
    refine ⟨0, fun _ _ => ?_⟩
    rw [parseHpet, Trace.finished_andThen]
    simpa using ends
  · exact ⟨0, fun _ _ => rfl⟩

theorem passes_of_finished {sdt : Nat} (finished : (parseSdt m bspAcpiId sdt fuel).finished = true) : SdtPasses m sdt := by
  simp only [parseSdt, Trace.finished_andThen, Trace.finished_of, Trace.finished_require, true_and] at finished
  obtain ⟨checksum, rest⟩ := finished
  refine ⟨checksum, ?_⟩
  split at rest
  · rename_i apic
    rw [if_pos apic]
    obtain ⟨k, _, ends⟩ := parseMadt_finished_iff.mp rest
    exact ⟨k, ends⟩
  rename_i apic
  rw [if_neg apic]
  split at rest
  · rename_i hpet
    rw [if_pos hpet]
    rw [parseHpet, Trace.finished_andThen] at rest
    simpa using rest
  · rename_i hpet
    rw [if_neg hpet]
    trivial

/-- The entries from `i` on, and the tables that they list. -/
def EntriesFit (m : Mem) (hhdm table width n i : Nat) : Prop :=
  8 ≤ sdtSize m table ∧ ∀ j < n, (∀ j' < j, SdtPasses m (listedTable m hhdm table width (i + j'))) →
    36 + width * (i + j) + width ≤ sdtSize m table ∧ SdtFits m (listedTable m hhdm table width (i + j))

theorem entriesFit_succ {hhdm table width n i : Nat} :
    EntriesFit m hhdm table width (n + 1) i ↔
      36 + width * i + width ≤ sdtSize m table ∧ SdtFits m (listedTable m hhdm table width i) ∧
        8 ≤ sdtSize m table ∧
        (SdtPasses m (listedTable m hhdm table width i) → EntriesFit m hhdm table width n (i + 1)) := by
  constructor
  · rintro ⟨declared, fit⟩
    obtain ⟨entry, sdt⟩ := fit 0 (Nat.succ_pos n) fun j' less => absurd less (Nat.not_lt_zero j')
    refine ⟨entry, sdt, declared, fun passes => ⟨declared, fun j less before => ?_⟩⟩
    rw [show i + 1 + j = i + (j + 1) by omega]
    refine fit (j + 1) (Nat.succ_lt_succ less) fun j' less' => ?_
    cases j' with
    | zero => exact passes
    | succ j' =>
      rw [show i + (j' + 1) = i + 1 + j' by omega]
      exact before j' (Nat.lt_of_succ_lt_succ less')
  · rintro ⟨entry, sdt, declared, rest⟩
    refine ⟨declared, fun j less before => ?_⟩
    cases j with
    | zero => exact ⟨entry, sdt⟩
    | succ j =>
      rw [show i + (j + 1) = i + 1 + j by omega]
      refine (rest (before 0 (Nat.succ_pos j))).2 j (Nat.lt_of_succ_lt_succ less) fun j' less' => ?_
      rw [show i + 1 + j' = i + (j' + 1) by omega]
      exact before (j' + 1) (Nat.succ_lt_succ less')

theorem parseEntries_good {hhdm table width n i : Nat} :
    (parseEntries m hhdm bspAcpiId table width fuel (n + 1) i).Good ↔
      (8 ≤ sdtSize m table ∧ 36 + width * i + width ≤ sdtSize m table) ∧
        (parseSdt m bspAcpiId (listedTable m hhdm table width i) fuel).Good ∧
        ((parseSdt m bspAcpiId (listedTable m hhdm table width i) fuel).finished = true →
          (parseEntries m hhdm bspAcpiId table width fuel n (i + 1)).Good) := by
  rw [parseEntries, Trace.good_of_andThen, Trace.good_andThen]
  simp [Event.Good, sdtHeader]

theorem EntriesFit.good {hhdm table width n i : Nat} (fit : EntriesFit m hhdm table width n i) (fuel : Nat) :
    (parseEntries m hhdm bspAcpiId table width fuel n i).Good := by
  induction n generalizing i with
  | zero => simpa [parseEntries, Event.Good] using fit.1
  | succ n ih =>
    obtain ⟨entry, sdt, declared, rest⟩ := entriesFit_succ.mp fit
    exact parseEntries_good.mpr ⟨⟨declared, entry⟩, sdt.good fuel, fun finished => ih (rest (passes_of_finished finished))⟩

theorem entriesFit_of_good {hhdm table width n i least : Nat}
    (good : ∀ fuel, least ≤ fuel → (parseEntries m hhdm bspAcpiId table width fuel n i).Good) :
    EntriesFit m hhdm table width n i := by
  induction n generalizing i least with
  | zero =>
    refine ⟨?_, fun j less => absurd less (Nat.not_lt_zero j)⟩
    simpa [parseEntries, Event.Good] using good least (Nat.le_refl _)
  | succ n ih =>
    have good := fun fuel enough => parseEntries_good.mp (good fuel enough)
    obtain ⟨declared, entry⟩ := (good least (Nat.le_refl _)).1
    refine entriesFit_succ.mpr ⟨entry, sdtFits_of_good fun fuel enough => (good fuel enough).2.1, declared, ?_⟩
    intro passes
    obtain ⟨returns, finished⟩ := parseSdt_finished bspAcpiId passes
    refine ih fun fuel (enough : max least returns ≤ fuel) => ?_
    exact (good fuel (by omega)).2.2 (finished fuel (by omega))

/-- Below 36 bytes the number of entries has wrapped, and the first entry is outside. -/
theorem entriesFit_iff {hhdm table width : Nat} (four : width = 4 ∨ width = 8) :
    EntriesFit m hhdm table width (entryCount m table width) 0 ↔ RootFits m hhdm table width := by
  have word : sdtSize m table < 2 ^ 32 := m.readLE_lt (table + 4) 4
  by_cases header : 36 ≤ sdtSize m table
  · have count : entryCount m table width = (sdtSize m table - 36) / width := by
      have unwrapped : (sdtSize m table + 2 ^ 64 - sdtHeader) % 2 ^ 64 = sdtSize m table - 36 := by
        unfold sdtHeader
        omega
      rw [entryCount, unwrapped]
    have entry {j : Nat} (less : j < (sdtSize m table - 36) / width) : 36 + width * j + width ≤ sdtSize m table := by
      rcases four with rfl | rfl <;> omega
    rw [EntriesFit, RootFits, count]
    simp only [Nat.zero_add]
    constructor
    · rintro ⟨_, fit⟩
      exact ⟨header, fun i less before => (fit i less before).2⟩
    · rintro ⟨_, fit⟩
      exact ⟨by omega, fun i less before => ⟨entry less, fit i less before⟩⟩
  · refine iff_of_false (fun fit => ?_) fun fits => header fits.1
    have first : 0 < entryCount m table width := by
      unfold entryCount sdtHeader
      rcases four with rfl | rfl <;> omega
    have outside := (fit.2 0 first fun j less => absurd less (Nat.not_lt_zero j)).1
    omega

theorem parseRoot_good_iff {hhdm table width : Nat} {signature : List Char} (four : width = 4 ∨ width = 8)
    (passes : hasSignature m table signature = true ∧ doChecksum m table (sdtSize m table) = true) :
    (∀ fuel, (parseRoot m hhdm bspAcpiId signature table width fuel).Good) ↔ RootFits m hhdm table width := by
  have expand (fuel : Nat) : (parseRoot m hhdm bspAcpiId signature table width fuel).Good ↔
      16 ≤ sdtSize m table ∧ (parseEntries m hhdm bspAcpiId table width fuel (entryCount m table width) 0).Good := by
    rw [parseRoot, Trace.good_of_andThen, Trace.good_require_andThen, Trace.good_of_andThen, Trace.good_require_andThen,
      Trace.good_of_andThen]
    simp only [Event.Good, passes, List.forall_mem_cons, List.not_mem_nil, false_imp_iff, implies_true, and_true,
      true_imp_iff]
    exact ⟨fun ⟨_, _, sixteen, rest⟩ => ⟨sixteen, rest⟩, fun ⟨sixteen, rest⟩ => ⟨by omega, by omega, sixteen, rest⟩⟩
  rw [← entriesFit_iff four]
  constructor
  · intro good
    exact entriesFit_of_good fun fuel (_ : 0 ≤ fuel) => ((expand fuel).mp (good fuel)).2
  · intro fit fuel
    have header := ((entriesFit_iff four).mp fit).1
    exact (expand fuel).mpr ⟨by omega, fit.good fuel⟩

theorem forall_reads {size offset width : Nat} {events : List Event} :
    (∀ e ∈ Event.read size offset width :: events, e.Good) ↔ offset + width ≤ size ∧ ∀ e ∈ events, e.Good :=
  List.forall_mem_cons

section Rsdp

variable {hhdm rsdp : Nat}

/-- The part of `parse_rsdp` that is the same for all revisions. -/
theorem parseRsdp_good (passes : RootPasses m hhdm rsdp) :
    (parseRsdp m hhdm bspAcpiId rsdp fuel).Good ↔ 20 ≤ rsdpSize m rsdp ∧
      (if revision m rsdp = 0 then
        (Trace.of [.read (rsdpSize m rsdp) 16 4]).andThen (parseRsdt m hhdm bspAcpiId (rsdtAddr m hhdm rsdp) fuel)
      else if revision m rsdp = 2 then
        (Trace.of [.read (rsdpSize m rsdp) 20 4, .read (rsdpSize m rsdp) rsdp1Size (extendedSize m rsdp)]).andThen <|
          (Trace.require (doChecksum m (rsdp + rsdp1Size) (extendedSize m rsdp))).andThen <|
            (Trace.of [.read (rsdpSize m rsdp) 24 8]).andThen (parseXsdt m hhdm bspAcpiId (xsdtAddr m hhdm rsdp) fuel)
      else
        .of []).Good := by
  rw [parseRsdp, Trace.good_of_andThen, Trace.good_require_andThen, Trace.good_of_andThen, Trace.good_require_andThen,
    Trace.good_of_andThen]
  simp only [passes.signature, passes.checksum, true_imp_iff, forall_reads, List.not_mem_nil, false_imp_iff,
    implies_true, and_true]
  unfold rsdp1Size
  exact ⟨fun ⟨_, twenty, _, rest⟩ => ⟨by omega, rest⟩, fun ⟨twenty, rest⟩ => ⟨by omega, by omega, by omega, rest⟩⟩

theorem parseRsdp_first (passes : RootPasses m hhdm rsdp) (first : revision m rsdp = 0) :
    (parseRsdp m hhdm bspAcpiId rsdp fuel).Good ↔ (parseRsdt m hhdm bspAcpiId (rsdtAddr m hhdm rsdp) fuel).Good := by
  have size : rsdpSize m rsdp = 20 := by
    rw [rsdpSize, if_neg (by rw [first]; decide)]
    rfl
  rw [parseRsdp_good passes, if_pos first, Trace.good_of_andThen, forall_reads, size]
  simp

theorem parseRsdp_second (passes : RootPasses m hhdm rsdp) (second : revision m rsdp = 2) :
    (parseRsdp m hhdm bspAcpiId rsdp fuel).Good ↔
      32 ≤ rsdpSize m rsdp ∧ (parseXsdt m hhdm bspAcpiId (xsdtAddr m hhdm rsdp) fuel).Good := by
  have word : rsdpSize m rsdp < 2 ^ 32 := by
    rw [rsdpSize, if_pos second]
    exact m.readLE_lt (rsdp + 20) 4
  rw [parseRsdp_good passes, if_neg (by rw [second]; decide), if_pos second, Trace.good_of_andThen,
    Trace.good_require_andThen, Trace.good_of_andThen]
  simp only [passes.extended second, true_imp_iff, forall_reads, List.not_mem_nil, false_imp_iff, implies_true, and_true]
  constructor
  · rintro ⟨_, _, address, rest⟩
    exact ⟨address, rest⟩
  · rintro ⟨address, rest⟩
    refine ⟨by omega, ⟨by omega, ?_⟩, address, rest⟩
    unfold extendedSize rsdp1Size
    omega

theorem parseRsdp_other (passes : RootPasses m hhdm rsdp) (first : revision m rsdp ≠ 0) (second : revision m rsdp ≠ 2) :
    (parseRsdp m hhdm bspAcpiId rsdp fuel).Good := by
  have size : rsdpSize m rsdp = 20 := if_neg second
  rw [parseRsdp_good passes, if_neg first, if_neg second, size]
  simp

/-- An RSDP, an RSDT at 32 and a MADT at 72, whose one entry redirects `irq` to GSI 2. The checksums are right. -/
def overriding (irq : UInt8) : Mem := fun a =>
  let rsdp := ['R', 'S', 'D', ' ', 'P', 'T', 'R', ' '].map Char.toUInt8 ++ [193] ++ List.replicate 7 0 ++ [32, 0, 0, 0]
  let rsdt := ['R', 'S', 'D', 'T'].map Char.toUInt8 ++ [40, 0, 0, 0, 0, 83] ++ List.replicate 26 0 ++ [72, 0, 0, 0]
  let madt := ['A', 'P', 'I', 'C'].map Char.toUInt8 ++ [54, 0, 0, 0, 0, 159 - irq] ++ List.replicate 34 0 ++
    [2, 10, 0, irq, 2, 0, 0, 0, 0, 0]
  (rsdp ++ List.replicate 12 0 ++ rsdt ++ madt).getD a 0

theorem overriding_passes : RootPasses (overriding 0) 0 0 ∧ RootPasses (overriding 32) 0 0 := by
  constructor <;> constructor <;> decide +kernel

theorem overriding_fits : SdtFits (overriding 0) (listedTable (overriding 0) 0 (rsdtAddr (overriding 0) 0 0) 4 0) := by
  refine ⟨by decide +kernel, fun _ => ?_⟩
  rw [if_pos (by decide +kernel)]
  refine ⟨by decide +kernel, fun k inside => ?_⟩
  cases k with
  | zero => exact ⟨by decide +kernel, fun _ => by decide +kernel⟩
  | succ k =>
    -- The only entry ends with the table.
    have ends : sdtSize (overriding 0) 72 ≤ entryOffset (overriding 0) 72 1 := by decide +kernel
    have later := entryOffset_mono (overriding 0) 72 (Nat.succ_le_succ (Nat.zero_le k))
    exact absurd inside (Nat.not_lt.mpr (Nat.le_trans ends later))

end Rsdp

end FishOS.Acpi
