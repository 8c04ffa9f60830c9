import FishOS.Heap.Safety

/-!
# The sizes of free blocks

The searches take the size field of a free block for the size of the block. `free` rounds the
field up; a `realloc` that moves gives its old block up as it is.
-/

namespace FishOS.Heap

namespace Arena

/-- Reallocations whose copy fits and that give up whole blocks only. -/
def SteadyCall (h : Arena) (c : Call) : Prop := h.RoomyCall c ∧ h.WholeCall c

variable {permits : Arena → Call → Prop} {h : Arena} {m : Mem} {base k : Nat}

/-- One call on a heap whose free blocks record their sizes. -/
theorem call_exact_iff {c : Call} {blocks : List Blk} (valid : h.Valid) (lays : h.Lays blocks)
    (exact : Exact blocks) (legal : h.Legal c) (roomy : h.RoomyCall c) :
    Exact (h.call c).layout ↔ h.WholeCall c := by
  obtain ⟨⟨blocks', lays', whole⟩, _⟩ := call_lays valid lays legal roomy
  rw [lays'.layout_eq]
  exact whole exact

theorem reachable_exact (large : 5 ≤ k) (fits : base + 2 ^ k < 2 ^ 64)
    (steady : ∀ h c, permits h c → SteadyCall h c) (run : Reachable permits m base (2 ^ k) h) :
    h.Valid ∧ h.Lays h.layout ∧ Exact h.layout := by
  have valid := reachable_valid large fits (fun h c permitted => (steady h c permitted).1) run
  obtain ⟨blocks, lays⟩ := valid.lays
  refine ⟨valid, lays.layout_eq.symm ▸ lays, ?_⟩
  clear valid lays
  induction run with
  | init =>
    obtain ⟨_, wide⟩ := pow_actual large (exponent_le fits) true
    rw [(init_lays m large (exponent_le fits)).2.layout_eq]
    simpa [Exact] using wide
  | @call h c run legal permitted ih =>
    have valid := reachable_valid large fits (fun h c permitted => (steady h c permitted).1) run
    obtain ⟨blocks, lays⟩ := valid.lays
    have exact := lays.layout_eq ▸ ih
    exact (call_exact_iff valid lays exact legal (steady h c permitted).1).mpr (steady h c permitted).2

/-- Free blocks record their sizes in every state of a run that gives up whole blocks only, and
any other call of `realloc` ends that. -/
theorem free_sizes_iff (large : 5 ≤ k) (fits : base + 2 ^ k < 2 ^ 64)
    (run : Reachable SteadyCall m base (2 ^ k) h) :
    (∀ b ∈ h.layout, b.free = true → sizeRequired b.size = b.size) ∧
      ∀ c, h.Legal c → h.RoomyCall c →
        ((∀ b ∈ (h.call c).layout, b.free = true → sizeRequired b.size = b.size) ↔ h.WholeCall c) := by
  obtain ⟨valid, lays, exact⟩ := reachable_exact large fits (fun _ _ permitted => permitted) run
  refine ⟨exact, ?_⟩
  intro c legal roomy
  exact call_exact_iff valid lays exact legal roomy

theorem free_sizes_iff_grown :
    let h := (init (fun _ => 0) 0x1000 (2 ^ 8)).call (.malloc 16)
    ∀ b ∈ (h.call (.realloc ⟨0x10f0, 16⟩ 100)).layout, b.free = true → sizeRequired b.size = b.size := by
  intro h
  have run : Reachable SteadyCall (fun _ => 0) 0x1000 (2 ^ 8) h :=
    .call (c := .malloc 16) .init (by decide) ⟨trivial, trivial⟩
  exact ((free_sizes_iff (k := 8) (by decide) (by decide) run).2 (.realloc ⟨0x10f0, 16⟩ 100) (by decide +kernel)
    (Or.inl (by decide +kernel))).mpr (Or.inl (by decide +kernel))

/-- Growing 10 bytes to 100 leaves a free block of 32 bytes that records 26. -/
theorem moved_block_records_request :
    ∃ h : Arena, Reachable RoomyCall (fun _ => 0) 0x1000 (2 ^ 8) h ∧
      ∃ b ∈ h.layout, b.free = true ∧ b.size = 26 ∧ sizeRequired b.size = 32 := by
  let one := (init (fun _ => 0) 0x1000 (2 ^ 8)).call (.malloc 10)
  refine ⟨one.call (.realloc ⟨0x10f0, 10⟩ 100), ?_, by decide +kernel⟩
  have first : Reachable RoomyCall (fun _ => 0) 0x1000 (2 ^ 8) one := .call .init (by decide) trivial
  exact .call first (by decide +kernel) (Or.inl (by decide +kernel))

end Arena

end FishOS.Heap
