import FishOS.Fs.Tmpfs
import FishOS.Mem.Vmm

/-!
# The ELF loader

`userland::elf` on files of the temporary file system. The headers are read into buffers of
zeros, and what a short file leaves of them stays zero. A panic is `none`.
-/

namespace FishOS.Userland

open FishOS.Mem FishOS.Fs

structure Header where
  identifier : Nat → UInt8
  arch : Nat
  entryAddr : Nat
  phTableOffset : Nat
  phEntrySize : Nat
  phCount : Nat

structure ProgramHeader where
  type : Nat
  flags : Nat
  offset : Nat
  virtAddr : Nat
  fileSize : Nat
  memSize : Nat
  deriving DecidableEq

def ptLoad : Nat := 1

def pfX : Nat := 1 <<< 0

def pfW : Nat := 1 <<< 1

def readHeader (file : NodeData) : Header :=
  let buf := (file.read (fun _ => 0) 0 64 0).1
  { identifier := buf
    arch := buf.readLE 18 2
    entryAddr := buf.read64 24
    phTableOffset := buf.read64 32
    phEntrySize := buf.readLE 54 2
    phCount := buf.readLE 56 2 }

def readProgramHeader (file : NodeData) (header : Header) (i : Nat) : ProgramHeader :=
  let buf := (file.read (fun _ => 0) 0 56 ((header.phTableOffset + i * header.phEntrySize) % 2 ^ 64)).1
  { type := buf.readLE 0 4
    flags := buf.readLE 4 4
    offset := buf.read64 8
    virtAddr := buf.read64 16
    fileSize := buf.read64 32
    memSize := buf.read64 40 }

namespace Header

def isElf (header : Header) : Bool :=
  header.identifier 0 == 0x7F && header.identifier 1 == 0x45 && header.identifier 2 == 0x4C && header.identifier 3 == 0x46

def supported (header : Header) : Bool :=
  header.identifier 4 == 2 && header.identifier 5 == 1 && header.identifier 7 == 0 && header.arch == 62

end Header

namespace ProgramHeader

def pageFlags (ph : ProgramHeader) : Nat :=
  let page_flags := pagePresent ||| pageUser
  let page_flags := if ph.flags &&& pfW ≠ 0 then page_flags ||| pageWritable else page_flags
  if ph.flags &&& pfX = 0 then page_flags ||| pageNoExecute else page_flags

def misalign (ph : ProgramHeader) : Nat := ph.virtAddr &&& 0xFFF

def memPageCount (ph : ProgramHeader) : Nat := (ph.memSize + ph.misalign + 0x1000 - 1) % 2 ^ 64 / 0x1000

def filePageCount (ph : ProgramHeader) : Nat := (ph.fileSize + ph.misalign + 0x1000 - 1) % 2 ^ 64 / 0x1000

def pageVirt (ph : ProgramHeader) (i : Nat) : Nat := (ph.virtAddr + i * 0x1000) % 2 ^ 64

/-- The destination in the frame, the size and the file offset of the read for page `i`. -/
def chunk (ph : ProgramHeader) (page_phy i : Nat) : Nat × Nat × Nat :=
  let offset := (ph.offset + i * 0x1000) % 2 ^ 64
  if i = 0 then (page_phy + ph.misalign, 0x1000 - ph.misalign, (offset + ph.misalign) % 2 ^ 64)
  else if i = ph.filePageCount - 1 then (page_phy, (ph.fileSize + ph.misalign) % 2 ^ 64 % 0x1000, offset)
  else (page_phy, 0x1000, offset)

end ProgramHeader

def fillPage (file : NodeData) (ph : ProgramHeader) (page_phy i : Nat) (m : Mem) : Mem :=
  let m := m.memset page_phy 0 0x1000
  if i < ph.filePageCount then
    let (dst, size, offset) := ph.chunk page_phy i
    (file.read m dst size offset).1
  else m

/-- The body of the loop over the pages of a segment, on `*first_free_virt`. -/
def loadPage (file : NodeData) (ph : ProgramHeader) (pml4 i : Nat) (s : Phys) (first_free_virt : Nat) :
    Option (Phys × Nat) := do
  let (pmm, page_phy) ← s.pmm.allocPages 1
  let page_virt := ph.pageVirt i
  let s ← mapPage { s with pmm := pmm } pml4 page_phy page_virt ph.pageFlags
  some ({ s with m := fillPage file ph page_phy i s.m },
    if page_virt ≥ first_free_virt then (page_virt + 0x1000) % 2 ^ 64 else first_free_virt)

def loadPages (file : NodeData) (ph : ProgramHeader) (pml4 : Nat) (s : Phys) (first_free_virt i : Nat) :
    Nat → Option (Phys × Nat)
  | 0 => some (s, first_free_virt)
  | n + 1 => do
    let (s, first_free_virt) ← loadPage file ph pml4 i s first_free_virt
    loadPages file ph pml4 s first_free_virt (i + 1) n

def loadSegments (file : NodeData) (header : Header) (pml4 : Nat) (s : Phys) (first_free_virt i : Nat) :
    Nat → Option (Phys × Nat)
  | 0 => some (s, first_free_virt)
  | n + 1 => do
    let ph := readProgramHeader file header i
    let (s, first_free_virt) ←
      if ph.type = ptLoad then loadPages file ph pml4 s first_free_virt 0 ph.memPageCount else some (s, first_free_virt)
    loadSegments file header pml4 s first_free_virt (i + 1) n

/-- Returns the entry address, and `*first_free_virt` behind it. -/
def load (file : NodeData) (pml4 : Nat) (s : Phys) : Option (Phys × Nat × Nat) := do
  let header := readHeader file
  if header.isElf && header.supported then
    let (s, first_free_virt) ← loadSegments file header pml4 s 0 0 header.phCount
    some (s, header.entryAddr, alignUp first_free_virt)
  else none

end FishOS.Userland
