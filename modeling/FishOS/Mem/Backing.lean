import FishOS.Mem.Fault

/-!
# Pages with contents

A page backed by a data frame keeps its entry and its bytes in every step that does not go
to its own entry.
-/

namespace FishOS.Mem

open RadixTree Pmm

def readVirt (m : Mem) (root virt : Nat) : Option UInt8 :=
  let e := leaf m root (path virt)
  if e &&& pagePresent ≠ 0 then some (m ((e &&& addressMask) + virt % 0x1000)) else none

/-- The page of `virt` shows the bytes of a data frame. -/
structure Backed (s : Phys) (lab : Nat → Option (List (Fin 512))) (root virt flags : Nat) (content : Nat → UInt8)
    (frame : Nat) : Prop where
  data : DataFrame s lab frame
  bounded : frame < 2 ^ 52
  entry : leaf s.m root (path virt) = leafWord frame flags
  bytes : ∀ o < 0x1000, s.m (frame + o) = content o

variable {s s' : Phys} {lab lab' : Nat → Option (List (Fin 512))} {K : Set (List (Fin 512))}
  {root virt flags frame : Nat} {content : Nat → UInt8}

theorem Backed.step (backed : Backed s lab root virt flags content frame) (top : lab root = some [])
    (step : Step K s lab s' lab') (off : ∀ key ∈ K, ¬path virt <+: key) :
    Backed s' lab' root virt flags content frame where
  data := backed.data.step step
  bounded := backed.bounded
  entry := (step.leaf top rfl off).trans backed.entry
  bytes o inside := (step.data backed.data (Nat.le_add_right _ _) (by omega)).trans (backed.bytes o inside)

theorem Backed.readVirt (backed : Backed s lab root virt flags content frame)
    (present : flags &&& pagePresent ≠ 0) (clear : flags &&& addressMask = 0) {w : Nat}
    (same : page w = page virt) :
    readVirt s.m root w = some (content (w % 0x1000)) := by
  unfold FishOS.Mem.readVirt
  have entry : leaf s.m root (path w) = leafWord frame flags := by rw [path_eq_iff.mpr same, backed.entry]
  have inside := Nat.mod_lt w (show 0 < 0x1000 by decide)
  dsimp only
  rw [entry, leafWord_present, if_pos present, leafWord_address clear,
    aligned_and_addressMask backed.data.aligned backed.bounded, backed.bytes _ inside]

end FishOS.Mem
