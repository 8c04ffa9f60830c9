import FishOS.Lib.Memory

/-!
# ACPI tables

`parse_rsdp`, `parse_sdt` and `parse_madt` as the trace of what they read from the tables and hand
on. A trace that is not finished has run into a `panic`, or its walk has not ended yet.
-/

namespace FishOS.Acpi

inductive Event where
  /-- `width` bytes at `offset` of a table that declares `size` bytes. -/
  | read (size offset width : Nat)
  | lapic (lapicId processorId : UInt8)
  | ioapic (id : UInt8) (addr gsiBase : Nat)
  /-- `override_irq_source` assigns to `irq_to_gsi[irq]` and `irq_flags[irq]`. -/
  | override (irq gsi flags : Nat)
  deriving DecidableEq

/-- The bytes are inside of the table, and the index inside of the arrays. -/
def Event.Good : Event → Prop
  | .read size offset width => offset + width ≤ size
  | .override irq _ _ => irq < 16
  | _ => True

instance (e : Event) : Decidable e.Good := by cases e <;> unfold Event.Good <;> infer_instance

structure Trace where
  events : List Event
  finished : Bool

namespace Trace

def of (events : List Event) : Trace := { events := events, finished := true }

def andThen (a b : Trace) : Trace :=
  if a.finished then { events := a.events ++ b.events, finished := b.finished } else a

/-- `if (!passed) panic(..)` -/
def require (passed : Bool) : Trace := { events := [], finished := passed }

end Trace

section Tables

variable (m : Mem)

/-- The sum of the bytes is a `u8`. -/
def doChecksum (table size : Nat) : Bool := (List.range size).foldl (fun sum i => sum + m (table + i)) (0 : UInt8) == 0

def hasSignature (table : Nat) (signature : List Char) : Bool :=
  (List.range signature.length).map (fun i => m (table + i)) == signature.map Char.toUInt8

/-- `sizeof(SDT)` -/
def sdtHeader : Nat := 36

/-- `sizeof(MADT)` -/
def madtHeader : Nat := 44

def sdtSize (table : Nat) : Nat := m.readLE (table + 4) 4

/-- The reads of the first loop of `parse_madt` for the entry at `o`, and what it hands on. -/
def madtEntry (madt size o : Nat) : List Event :=
  let entry := madt + o
  .read size o 1 ::
    (if m entry = 0 then
      [.read size (o + 2) 1, .read size (o + 3) 1, .read size (o + 4) 4] ++
        (if m.readLE (entry + 4) 4 &&& 0b1 ≠ 0 then [.lapic (m (entry + 3)) (m (entry + 2))] else [])
    else if m entry = 1 then
      [.read size (o + 2) 1, .read size (o + 4) 4, .read size (o + 8) 4,
        .ioapic (m (entry + 2)) (m.readLE (entry + 4) 4) (m.readLE (entry + 8) 4)]
    else if m entry = 2 then
      [.read size (o + 3) 1, .read size (o + 4) 4, .read size (o + 8) 2,
        .override (m (entry + 3)).toNat (m.readLE (entry + 4) 4) (m.readLE (entry + 8) 2)]
    else if m entry = 4 then
      [.read size (o + 2) 1, .read size (o + 5) 1, .read size (o + 3) 2]
    else if m entry = 5 then
      [.read size (o + 4) 8]
    else [])

/-- The reads of the second loop, for a boot CPU with this ACPI id. -/
def madtNmi (bspAcpiId : UInt8) (madt size o : Nat) : List Event :=
  let entry := madt + o
  .read size o 1 ::
    (if m entry = 4 then
      .read size (o + 2) 1 ::
        (if m (entry + 2) = 0xFF ∨ m (entry + 2) = bspAcpiId then [.read size (o + 3) 2, .read size (o + 5) 1] else [])
    else [])

/-- A loop over the entries of the MADT: the test reads `madt->size`, the step `entry->size`. -/
def walk (madt : Nat) (visit : Nat → List Event) : (fuel o : Nat) → Trace
  | 0, _ => { events := [], finished := false }
  | fuel + 1, o =>
    let size := sdtSize m madt
    (Trace.of [.read size 4 4]).andThen <|
      if o < size then
        (Trace.of (visit o ++ [.read size (o + 1) 1])).andThen (walk madt visit fuel (o + (m (madt + o + 1)).toNat))
      else
        .of []

def parseMadt (bspAcpiId : UInt8) (madt fuel : Nat) : Trace :=
  let size := sdtSize m madt
  (Trace.of [.read size 36 4]).andThen <|
    (walk m madt (madtEntry m madt size) fuel madtHeader).andThen <|
      walk m madt (madtNmi m bspAcpiId madt size) fuel madtHeader

/-- `hpet::init` copies the address, and panics when it is neither in memory nor a port. -/
def parseHpet (table : Nat) : Trace :=
  (Trace.of [.read (sdtSize m table) 40 12]).andThen (.require (m (table + 40) == 0 || m (table + 40) == 1))

def parseSdt (bspAcpiId : UInt8) (sdt fuel : Nat) : Trace :=
  let size := sdtSize m sdt
  (Trace.of [.read size 0 4, .read size 4 4, .read size 0 size]).andThen <|
    (Trace.require (doChecksum m sdt size)).andThen <|
      if hasSignature m sdt ['A', 'P', 'I', 'C'] then parseMadt m bspAcpiId sdt fuel
      else if hasSignature m sdt ['H', 'P', 'E', 'T'] then parseHpet m sdt
      else .of []

/-- `(size - sizeof(SDT)) / width`, where the difference is a `usize`. -/
def entryCount (table width : Nat) : Nat := (sdtSize m table + 2 ^ 64 - sdtHeader) % 2 ^ 64 / width

def listedTable (hhdm table width i : Nat) : Nat := m.readLE (table + sdtHeader + width * i) width + hhdm

/-- The loop over the entries of the RSDT or XSDT, with `n` rounds left. -/
def parseEntries (hhdm : Nat) (bspAcpiId : UInt8) (table width fuel : Nat) : (n i : Nat) → Trace
  | 0, _ => .of [.read (sdtSize m table) 4 4]
  | n + 1, i =>
    (Trace.of [.read (sdtSize m table) 4 4, .read (sdtSize m table) (sdtHeader + width * i) width]).andThen <|
      (parseSdt m bspAcpiId (listedTable m hhdm table width i) fuel).andThen <|
        parseEntries hhdm bspAcpiId table width fuel n (i + 1)

/-- The part of `parse_rsdp` on the RSDT or the XSDT, which differ in the width of their entries. -/
def parseRoot (hhdm : Nat) (bspAcpiId : UInt8) (signature : List Char) (table width fuel : Nat) : Trace :=
  let size := sdtSize m table
  (Trace.of [.read size 0 4]).andThen <|
    (Trace.require (hasSignature m table signature)).andThen <|
      (Trace.of [.read size 4 4, .read size 0 size]).andThen <|
        (Trace.require (doChecksum m table size)).andThen <|
          (Trace.of [.read size 10 6]).andThen <|
            parseEntries m hhdm bspAcpiId table width fuel (entryCount m table width) 0

def parseRsdt (hhdm : Nat) (bspAcpiId : UInt8) (rsdt fuel : Nat) : Trace :=
  parseRoot m hhdm bspAcpiId ['R', 'S', 'D', 'T'] rsdt 4 fuel

def parseXsdt (hhdm : Nat) (bspAcpiId : UInt8) (xsdt fuel : Nat) : Trace :=
  parseRoot m hhdm bspAcpiId ['X', 'S', 'D', 'T'] xsdt 8 fuel

/-- `sizeof(RSDP1)` -/
def rsdp1Size : Nat := 20

def revision (rsdp : Nat) : UInt8 := m (rsdp + 15)

/-- Only the second revision declares a size. -/
def rsdpSize (rsdp : Nat) : Nat := if revision m rsdp = 2 then m.readLE (rsdp + 20) 4 else rsdp1Size

def rsdtAddr (hhdm rsdp : Nat) : Nat := m.readLE (rsdp + 16) 4 + hhdm

def xsdtAddr (hhdm rsdp : Nat) : Nat := m.readLE (rsdp + 24) 8 + hhdm

/-- `rsdp2->size - sizeof(RSDP1)` -/
def extendedSize (rsdp : Nat) : Nat := (rsdpSize m rsdp + 2 ^ 64 - rsdp1Size) % 2 ^ 64

def parseRsdp (hhdm : Nat) (bspAcpiId : UInt8) (rsdp fuel : Nat) : Trace :=
  let size := rsdpSize m rsdp
  (Trace.of [.read size 0 8]).andThen <|
    (Trace.require (hasSignature m rsdp ['R', 'S', 'D', ' ', 'P', 'T', 'R', ' '])).andThen <|
      (Trace.of [.read size 0 rsdp1Size]).andThen <|
        (Trace.require (doChecksum m rsdp rsdp1Size)).andThen <|
          (Trace.of [.read size 9 6, .read size 15 1]).andThen <|
            if revision m rsdp = 0 then
              (Trace.of [.read size 16 4]).andThen (parseRsdt m hhdm bspAcpiId (rsdtAddr m hhdm rsdp) fuel)
            else if revision m rsdp = 2 then
              (Trace.of [.read size 20 4, .read size rsdp1Size (extendedSize m rsdp)]).andThen <|
                (Trace.require (doChecksum m (rsdp + rsdp1Size) (extendedSize m rsdp))).andThen <|
                  (Trace.of [.read size 24 8]).andThen (parseXsdt m hhdm bspAcpiId (xsdtAddr m hhdm rsdp) fuel)
            else
              .of []

end Tables

end FishOS.Acpi
