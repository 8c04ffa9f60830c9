import FishOS.Fs.Lookup

/-!
# The initramfs loader

`fs::initramfs::load_into` on a module in memory. A read outside of the module is a stray pointer.
-/

namespace FishOS.Fs

open Klib

/-- What ends the loader before it returns: a failed assertion or an unknown type, a stray pointer,
and a bound on the number of headers. -/
inductive LoadFault where
  | panic
  | badPointer
  | unfinished
  deriving DecidableEq

def deref {α : Type} : Option α → Except LoadFault α
  | none => .error .badPointer
  | some a => .ok a

/-- The bytes of the module at `file_addr`. -/
def moduleBytes (file_addr : Nat) (archive : List UInt8) (a : Nat) : Option UInt8 :=
  if file_addr ≤ a then archive[a - file_addr]? else none

def readBytes (m : Nat → Option UInt8) (a : Nat) : Nat → Option (List UInt8)
  | 0 => some []
  | n + 1 => do
    let c ← m a
    let bytes ← readBytes m (a + 1) n
    some (c :: bytes)

/-- The characters of a string whose NUL lies among so many bytes. -/
def stringAt (m : Nat → Option UInt8) : Nat → Nat → Option (List UInt8)
  | 0, _ => none
  | limit + 1, a => do
    let c ← m a
    if c ≠ 0 then (stringAt m limit (a + 1)).map (c :: ·) else some []

namespace Initramfs

/-! The offsets of the fields of `USTARHeader`. -/

def modeField : Nat := 100

def sizeField : Nat := 124

def typeflagField : Nat := 156

def magicField : Nat := 257

def prefixField : Nat := 345

def headerSize : Nat := 512

def magic : List UInt8 := [0x75, 0x73, 0x74, 0x61, 0x72, 0]

/-- The directory that an archive of `.` starts with. -/
def topName : List UInt8 := [0x2E, 0x2F]

/-- `char` is signed, and the difference is converted to `usize`. -/
def octalDigit (value : Nat) (c : UInt8) : Nat := ((value * 8 : Int) + (c.toInt8.toInt - 48)) % 2 ^ 64 |>.toNat

/-- The loop looks for the NUL before it looks at the length. -/
def octalLoop (m : Nat → Option UInt8) (str : Nat) (value : Nat) : Nat → Option Nat
  | 0 => (m str).map fun _ => value
  | len + 1 => do
    let c ← m str
    if c ≠ 0 then octalLoop m (str + 1) (octalDigit value c) len else some value

def octalToBin (m : Nat → Option UInt8) (str len : Nat) : Option Nat := octalLoop m str 0 len

def alignUp (i : Nat) : Nat := if i % 512 ≠ 0 then (i / 512 + 1) * 512 % 2 ^ 64 else i

/-- The `create` of the file system of `dir`. -/
def createIn (v : Vfs) (dir : Nat) (target_parent : Option Nat) (basename : CString) (type : NodeType) :
    Except LoadFault (Vfs × Option Nat) := do
  let dir_node ← deref v.nodes[dir]?
  let fs ← deref dir_node.fs
  deref (v.create (some fs) target_parent basename type)

/-- The node for a header at `current`. -/
def createNode (v : Vfs) (dir : Nat) (m : Nat → Option UInt8) (fresh : Nat → UInt8) (current size : Nat)
    (target_parent : Option Nat) (basename : CString) : Except LoadFault Vfs := do
  let typeflag ← deref (m (current + typeflagField))
  if typeflag = 0x30 ∨ typeflag = 0 then
    let (v, file) ← createIn v dir target_parent basename .file
    let file ← deref file
    let bytes ← deref (readBytes m (current + headerSize) size)
    let write : Write := { buf := fun i => bytes.getD i 0, count := size, offset := 0, fresh := fresh }
    .ok (v.modify file fun n => { n with data := n.data.write write })
  else if typeflag = 0x35 then
    let (v, _) ← createIn v dir target_parent basename .directory
    .ok v
  else .error .panic

/-- What the loader does with the entry at `current`. -/
def loadEntry (v : Vfs) (dir : Nat) (m : Nat → Option UInt8) (fresh : Nat → UInt8) (current size : Nat)
    (name : List UInt8) : Except LoadFault Vfs := do
  if strcmp name topName ≠ 0 then
    let result ← deref (v.pathToNode (name ++ [0]) (some dir))
    if result.target ≠ none then .error .panic
    else match result.basename with
      | none => .error .panic
      | some basename => createNode v dir m fresh current size result.targetParent basename
  else .ok v

/-- The loop of `load_into` over at most so many headers. -/
def load (dir : Nat) (m : Nat → Option UInt8) (fresh : Nat → Nat → UInt8) (stop : Nat) :
    Nat → Nat → Vfs → Except LoadFault Vfs
  | 0, _, _ => .error .unfinished
  | fuel + 1, current, v => do
    let found ← deref (readBytes m (current + magicField) 6)
    if found ≠ magic then .ok v
    else
      let size ← deref (octalToBin m (current + sizeField) 12)
      let name ← deref (stringAt m (2 ^ 64 - current) current)
      let v ← loadEntry v dir m (fresh current) current size name
      let current := (current + headerSize + alignUp size) % 2 ^ 64
      if current ≥ stop then .ok v else load dir m fresh stop fuel current v

/-- `fresh` is what the blocks from `realloc` hold, for each header. -/
def loadInto (v : Vfs) (dir file_addr : Nat) (archive : List UInt8) (fresh : Nat → Nat → UInt8) (fuel : Nat) :
    Except LoadFault Vfs :=
  load dir (moduleBytes file_addr archive) fresh ((file_addr + archive.length) % 2 ^ 64) fuel file_addr v

end Initramfs

end FishOS.Fs
