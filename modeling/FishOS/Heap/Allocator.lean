import FishOS.Lib.Memory

/-!
# The buddy allocator

`mem::BuddyAlloc` over the bytes of the kernel heap. A `Block*` is the address of the
sixteen-byte header, and a null pointer is `none`. The spinlock of every entry point
is left out: no two calls overlap.
-/

namespace FishOS.Heap

def alignment : Nat := 16

/-- `sizeof(Block)`: the size word, the flag and its padding. -/
def sizeofBlock : Nat := 16

def align (i : Nat) : Nat :=
  if i % alignment ≠ 0 then (i / alignment + 1) * alignment % 2 ^ 64 else i

/-- The doubling wraps, and a request above `2^63` spins at zero for ever.
That run exhausts the fuel and shows as the size zero. -/
def sizeRequiredLoop (size : Nat) : Nat → Nat → Nat
  | 0, actual_size => actual_size
  | fuel + 1, actual_size =>
    if size > actual_size then sizeRequiredLoop size fuel (actual_size * 2 % 2 ^ 64) else actual_size

def sizeRequired (size : Nat) : Nat := sizeRequiredLoop (align size) 64 alignment

namespace Block

def size (m : Mem) (block : Nat) : Nat := m.read64 block

def isFree (m : Mem) (block : Nat) : Bool := m (block + 8) != 0

def setSize (m : Mem) (block value : Nat) : Mem := m.write64 block value

def setFree (m : Mem) (block : Nat) (value : Bool) : Mem := m.write8 (block + 8) (if value then 1 else 0)

def data (block : Nat) : Nat := block + sizeofBlock

def next (m : Mem) (block : Nat) : Nat := block + sizeRequired (size m block)

def splitLoop (request : Nat) : Nat → Mem → Nat → Nat → Mem × Nat × Nat
  | 0, m, block, actual => (m, block, actual)
  | fuel + 1, m, block, actual =>
    if request < actual then
      let half := actual / 2
      let m := setSize m block half
      let block := next m block
      let m := setSize m block half
      let m := setFree m block true
      splitLoop request fuel m block half
    else (m, block, actual)

def splitUntil (m : Mem) (block request : Nat) : Mem × Option Nat :=
  if request = 0 then (m, none)
  else
    match splitLoop request 64 m block (sizeRequired (size m block)) with
    | (m, block, actual) => (m, if request ≤ actual then some block else none)

end Block

structure BuddyAlloc where
  head : Nat
  tail : Nat
  deriving DecidableEq

namespace BuddyAlloc

def init (m : Mem) (base size : Nat) : Mem × BuddyAlloc :=
  let m := Block.setSize m base size
  let m := Block.setFree m base true
  (m, { head := base, tail := Block.next m base })

def prefer (fits : Bool) (block : Nat) (best : Option Nat) : Option Nat :=
  if fits then some block else best

/-- The `while` of `find_best`. Every round advances `block`, so the heap's length is fuel enough. -/
def findBestLoop (tail request : Nat) : Nat → Mem → Nat → Nat → Option Nat → Mem × Option Nat
  | 0, m, _, _, best => (m, best)
  | fuel + 1, m, block, buddy, best =>
    if block < tail ∧ buddy < tail then
      if Block.isFree m block ∧ Block.isFree m buddy ∧ Block.size m block = Block.size m buddy then
        let m := Block.setSize m block (Block.size m block * 2)
        let size := Block.size m block
        let best := prefer (request ≤ size && best.all (fun b => size ≤ Block.size m b)) block best
        let block := Block.next m buddy
        let buddy := if block < tail then Block.next m block else buddy
        findBestLoop tail request fuel m block buddy best
      else
        let actual_best_size := best.elim 0 (fun b => sizeRequired (Block.size m b))
        let size := Block.size m block
        let best := prefer
          (Block.isFree m block && request ≤ size && best.all (fun _ => size ≤ actual_best_size)) block best
        let buddy_size := Block.size m buddy
        let best := prefer
          (Block.isFree m buddy && request ≤ buddy_size && best.all (fun _ => buddy_size < actual_best_size))
          buddy best
        if sizeRequired size ≤ sizeRequired buddy_size then
          let block := Block.next m buddy
          let buddy := if block < tail then Block.next m block else buddy
          findBestLoop tail request fuel m block buddy best
        else findBestLoop tail request fuel m buddy (Block.next m buddy) best
    else (m, best)

def findBest (alloc : BuddyAlloc) (m : Mem) (request : Nat) : Mem × Option Nat :=
  let block := alloc.head
  let buddy := Block.next m block
  if buddy = alloc.tail ∧ Block.isFree m block then Block.splitUntil m block request
  else
    match findBestLoop alloc.tail request (alloc.tail - alloc.head) m block buddy none with
    | (m, some best) => Block.splitUntil m best request
    | (m, none) => (m, none)

/-- The inner `while` of `coalescence`, returning the heap and `no_coalescence`. -/
def coalescencePass (tail : Nat) : Nat → Mem → Nat → Nat → Bool → Mem × Bool
  | 0, m, _, _, no_coalescence => (m, no_coalescence)
  | fuel + 1, m, block, buddy, no_coalescence =>
    if block < tail ∧ buddy < tail then
      if Block.isFree m block ∧ Block.isFree m buddy ∧ Block.size m block = Block.size m buddy then
        let m := Block.setSize m block (Block.size m block * 2)
        let block := Block.next m block
        if block < tail then coalescencePass tail fuel m block (Block.next m block) false
        else coalescencePass tail fuel m block buddy no_coalescence
      else if sizeRequired (Block.size m block) < sizeRequired (Block.size m buddy) then
        coalescencePass tail fuel m buddy (Block.next m buddy) no_coalescence
      else
        let block := Block.next m buddy
        let buddy := if block < tail then Block.next m block else buddy
        coalescencePass tail fuel m block buddy no_coalescence
    else (m, no_coalescence)

/-- The outer `while (1)`. A pass that asks for another one has merged two blocks. -/
def coalescenceLoop (alloc : BuddyAlloc) : Nat → Mem → Mem
  | 0, m => m
  | fuel + 1, m =>
    match coalescencePass alloc.tail (alloc.tail - alloc.head) m alloc.head (Block.next m alloc.head) true with
    | (m, true) => m
    | (m, false) => coalescenceLoop alloc fuel m

def coalescence (alloc : BuddyAlloc) (m : Mem) : Mem :=
  coalescenceLoop alloc (alloc.tail - alloc.head) m

/-- The search of `malloc` and `realloc`: once more after `coalescence` when nothing is found. -/
def search (alloc : BuddyAlloc) (m : Mem) (actual_size : Nat) : Mem × Option Nat :=
  match findBest alloc m actual_size with
  | (m, some found) => (m, some found)
  | (m, none) => findBest alloc (coalescence alloc m) actual_size

def claim (m : Mem) (found size : Nat) : Mem :=
  Block.setFree (Block.setSize m found ((size + sizeofBlock) % 2 ^ 64)) found false

def malloc (alloc : BuddyAlloc) (m : Mem) (size : Nat) : Mem × Option Nat :=
  if size ≠ 0 then
    match search alloc m (sizeRequired ((size + sizeofBlock) % 2 ^ 64)) with
    | (m, some found) => (claim m found size, some (Block.data found))
    | (m, none) => (m, none)
  else (m, none)

def free (alloc : BuddyAlloc) (m : Mem) (ptr : Option Nat) : Mem :=
  match ptr with
  | none => m
  | some data =>
    if alloc.head > data then m
    else if alloc.tail ≤ data then m
    else
      let block := data - sizeofBlock
      let m := Block.setSize m block (sizeRequired (Block.size m block))
      Block.setFree m block true

def realloc (alloc : BuddyAlloc) (m : Mem) (ptr : Option Nat) (size : Nat) : Mem × Option Nat :=
  match ptr with
  | none => malloc alloc m size
  | some old_data =>
    if size = 0 then (free alloc m ptr, none)
    else if alloc.head > old_data then (m, none)
    else if alloc.tail ≤ old_data then (m, none)
    else
      let old_block := old_data - sizeofBlock
      let old_size := Block.size m old_block
      let actual_new_size := sizeRequired ((size + sizeofBlock) % 2 ^ 64)
      if sizeRequired old_size = actual_new_size then
        (Block.setSize m old_block ((size + sizeofBlock) % 2 ^ 64), some (Block.data old_block))
      else
        match search alloc m actual_new_size with
        | (m, some found) =>
          let m := claim m found size
          let m := m.memcpy (Block.data found) old_data (old_size - sizeofBlock)
          (Block.setFree m old_block true, some (Block.data found))
        | (m, none) => (m, none)

end BuddyAlloc

end FishOS.Heap
