import FishOS.Lib.Memory
import FishOS.Mem.Pmm

/-!
# Page tables

`mem::vmm` over physical memory: the kernel reaches a table through the direct map, so a
table pointer is modelled by its physical address. A panic is `none`. The locks and
`invlpg` are left out.
-/

namespace FishOS.Mem

def pagePresent : Nat := 1 <<< 0

def pageWritable : Nat := 1 <<< 1

def pageUser : Nat := 1 <<< 2

def pageNoExecute : Nat := 1 <<< 63

def addressMask : Nat := 0x000FFFFFFFFFF000

def alignUp (i : Nat) : Nat := if i % 0x1000 ≠ 0 then (i / 0x1000 + 1) * 0x1000 % 2 ^ 64 else i

structure Phys where
  m : Mem
  pmm : Pmm

def entry (m : Mem) (table index : Nat) : Nat := m.read64 (table + 8 * index)

def setEntry (m : Mem) (table index value : Nat) : Mem := m.write64 (table + 8 * index) value

def Phys.allocZeroed (s : Phys) : Option (Phys × Nat) := do
  let (pmm, new_page) ← s.pmm.allocPages 1
  some ({ m := s.m.memset new_page 0 0x1000, pmm := pmm }, new_page)

def pageTableNextLevel (s : Phys) (current_table index : Nat) : Option (Phys × Nat) :=
  let current_entry := entry s.m current_table index
  if current_entry &&& pagePresent ≠ 0 then some (s, current_entry &&& addressMask)
  else do
    let (s, new_page) ← s.allocZeroed
    some ({ s with m := setEntry s.m current_table index (new_page ||| pagePresent ||| pageWritable ||| pageUser) },
      new_page)

/-- The three steps down with which `map_page`, `physical_addr` and `handle_page_fault` begin. -/
def lastTable (s : Phys) (pml4 virt : Nat) : Option (Phys × Nat) := do
  let (s, current_table) ← pageTableNextLevel s pml4 ((virt >>> 39) &&& 0x1FF)
  let (s, current_table) ← pageTableNextLevel s current_table ((virt >>> 30) &&& 0x1FF)
  pageTableNextLevel s current_table ((virt >>> 21) &&& 0x1FF)

def mapPage (s : Phys) (pml4 phy virt flags : Nat) : Option Phys := do
  let (s, current_table) ← lastTable s pml4 virt
  some { s with m := setEntry s.m current_table ((virt >>> 12) &&& 0x1FF) ((phy &&& addressMask) ||| flags) }

def mapPagesLoop (pml4 phy virt flags : Nat) (s : Phys) (i : Nat) : Nat → Option Phys
  | 0 => some s
  | n + 1 => do
    let s ← mapPage s pml4 ((phy + i * 0x1000) % 2 ^ 64) ((virt + i * 0x1000) % 2 ^ 64) flags
    mapPagesLoop pml4 phy virt flags s (i + 1) n

def mapPages (s : Phys) (pml4 phy virt size flags : Nat) : Option Phys :=
  mapPagesLoop pml4 phy virt flags s 0 (alignUp size / 0x1000)

def mapKernelLoop (pml4 kernel_pml4 : Nat) (m : Mem) (i : Nat) : Nat → Mem
  | 0 => m
  | n + 1 => mapKernelLoop pml4 kernel_pml4 (setEntry m pml4 i (entry m kernel_pml4 i)) (i + 1) n

def mapKernel (m : Mem) (pml4 kernel_pml4 : Nat) : Mem := mapKernelLoop pml4 kernel_pml4 m 256 256

def physicalAddr (s : Phys) (pml4 virt : Nat) : Option (Phys × Nat) := do
  let (s, current_table) ← lastTable s pml4 virt
  some (s, entry s.m current_table ((virt >>> 12) &&& 0x1FF) &&& addressMask)

inductive RangeType where
  | direct
  | anonymous
  deriving DecidableEq

structure MappedRange where
  base : Nat
  length : Nat
  pageFlags : Nat
  type : RangeType
  deriving DecidableEq

/-- The ranges are in list order: `add` puts the newest in front. -/
structure Pagemap where
  pml4 : Nat
  ranges : List MappedRange

def heapSize : Nat := 1024 * 1024 * 1024

def heapBegin : Nat := 2 ^ 64 - 1 - heapSize - 0x1000

/-- The ranges of the kernel pagemap after `vmm::init`. -/
def kernelRanges (hhdm : Nat) : List MappedRange :=
  [{ base := heapBegin, length := heapSize, pageFlags := pagePresent ||| pageWritable ||| pageNoExecute,
     type := .anonymous },
   { base := hhdm, length := 1024 * 1024 * 1024 * 1024, pageFlags := pagePresent ||| pageWritable, type := .direct }]

/-- The range that `addr_to_range` returns, as a test on one range. -/
def MappedRange.matches (virt : Nat) (range : MappedRange) : Bool :=
  decide (range.base ≤ virt) && decide (virt ≤ (range.base + range.length) % 2 ^ 64)

def addrToRange (pagemap : Pagemap) (virt : Nat) : Option MappedRange := pagemap.ranges.find? (·.matches virt)

def directPhy (hhdm virt : Nat) : Nat := (virt + 2 ^ 64 - hhdm) % 2 ^ 64

/-- Returns `true` when the fault could not be handled. -/
def handlePageFault (hhdm : Nat) (s : Phys) (pagemap : Pagemap) (virt : Nat) : Option (Phys × Bool) := do
  let (s, current_table) ← lastTable s pagemap.pml4 virt
  let index := (virt >>> 12) &&& 0x1FF
  if entry s.m current_table index &&& pagePresent = 0 then
    match addrToRange pagemap virt with
    | none => some (s, true)
    | some range =>
      match range.type with
      | .anonymous => do
        let (s, new_page) ← s.allocZeroed
        some ({ s with m := setEntry s.m current_table index (new_page ||| range.pageFlags) }, false)
      | .direct =>
        some ({ s with
          m := setEntry s.m current_table index ((directPhy hhdm virt &&& addressMask) ||| range.pageFlags) }, false)
  else some (s, true)

def protWrite : Nat := 0x02

def protExec : Nat := 0x04

def mapPrivate : Nat := 0x01

def mapShared : Nat := 0x02

def mapAnonymous : Nat := 0x08

def enosys : Int := 1051

def mmapPageFlags (prot : Nat) : Nat :=
  let page_flags := pagePresent ||| pageUser
  let page_flags := if prot &&& protWrite ≠ 0 then page_flags ||| pageWritable else page_flags
  if prot &&& protExec = 0 then page_flags ||| pageNoExecute else page_flags

def isize (x : Nat) : Int := if x < 2 ^ 63 then x else x - 2 ^ 64

/-- `syscall_mmap` on the pagemap and the `mmap_anon_base` of the calling task, which it
returns as they are on an error. The arguments that it ignores are left out. -/
def syscallMmap (pagemap : Pagemap) (mmap_anon_base length prot flags : Nat) : Pagemap × Nat × Int :=
  if flags &&& mapPrivate = 0 ∨ flags &&& mapShared ≠ 0 ∨ flags &&& mapAnonymous = 0 then
    (pagemap, mmap_anon_base, -enosys)
  else
    let base := mmap_anon_base
    let aligned_size := alignUp length
    let range := { base := base, length := aligned_size, pageFlags := mmapPageFlags prot, type := RangeType.anonymous }
    ({ pagemap with ranges := range :: pagemap.ranges }, (mmap_anon_base + aligned_size) % 2 ^ 64, isize base)

end FishOS.Mem
