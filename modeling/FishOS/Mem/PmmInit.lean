import FishOS.Mem.Vmm

/-!
# The frame bitmap at boot

`pmm::init` on the memory map of the bootloader. The bitmap gets its buffer from the first
usable entry that is long enough, with the bytes that the memory there happens to hold. The
totals that are only printed are left out.
-/

namespace FishOS.Mem

open Klib

structure MemmapEntry where
  base : Nat
  length : Nat
  type : Nat
  deriving DecidableEq

def limineMemmapUsable : Nat := 0

def lastUsableMem (entries : List MemmapEntry) : Nat :=
  entries.foldl (fun last_usable_mem entry =>
    let new_usable_mem := (entry.base + entry.length) % 2 ^ 64
    if new_usable_mem > last_usable_mem ∧ entry.type = limineMemmapUsable then new_usable_mem else last_usable_mem) 0

def findHome (entries : List MemmapEntry) (m_size : Nat) : Option MemmapEntry :=
  entries.find? fun entry => decide (entry.type = limineMemmapUsable) && decide (entry.length ≥ m_size / 8)

def setBits (b : Bitmap) (value : Bool) (i : Nat) : Nat → Bitmap
  | 0 => b
  | n + 1 => setBits (b.set i value) value (i + 1) n

namespace MemmapEntry

def pageStart (entry : MemmapEntry) : Nat :=
  if entry.base % 0x1000 ≠ 0 then entry.base / 0x1000 + 1 else entry.base / 0x1000

def pageEnd (entry : MemmapEntry) : Nat :=
  let page_end := entry.base / 0x1000 + entry.length / 0x1000
  if entry.length % 0x1000 ≠ 0 then (page_end + 2 ^ 64 - 1) % 2 ^ 64 else page_end

end MemmapEntry

def freeEntry (page_bitmap : Bitmap) (entry : MemmapEntry) : Bitmap :=
  if entry.type = limineMemmapUsable then setBits page_bitmap false entry.pageStart (entry.pageEnd - entry.pageStart)
  else page_bitmap

/-- Without a home the buffer is a null pointer, and `fill` faults. -/
def Pmm.init (m : Mem) (entries : List MemmapEntry) : Option Pmm := do
  let m_size := lastUsableMem entries / 0x1000
  let home ← findHome entries m_size
  let page_bitmap : Bitmap := { mBuffer := fun i => m (home.base + i), mSize := m_size }
  let page_bitmap := page_bitmap.fill true
  let page_bitmap := entries.foldl freeEntry page_bitmap
  let bitmap_self_index := home.base / 0x1000
  let page_bitmap := setBits page_bitmap true bitmap_self_index (alignUp (page_bitmap.mSize / 8) / 0x1000)
  some { bitmap := page_bitmap, pageBitmapIndex := 0, totalAllocated := 0 }

theorem mSize_setBits (b : Bitmap) (value : Bool) (i n : Nat) : (setBits b value i n).mSize = b.mSize := by
  induction n generalizing b i with
  | zero => rfl
  | succ n ih =>
    unfold setBits
    rw [ih]
    rfl

theorem get_setBits (b : Bitmap) (value : Bool) (i n j : Nat) :
    (setBits b value i n).get j = if i ≤ j ∧ j < i + n then value else b.get j := by
  induction n generalizing b i with
  | zero =>
    unfold setBits
    rw [if_neg (by omega)]
  | succ n ih =>
    unfold setBits
    rw [ih, Bitmap.get_set]
    by_cases here : j = i
    · rw [if_pos here, ite_self, if_pos (by omega)]
    · have range : (i + 1 ≤ j ∧ j < i + 1 + n) ↔ (i ≤ j ∧ j < i + (n + 1)) := by omega
      simp only [if_neg here, range]

def PageAligned (entries : List MemmapEntry) : Prop :=
  ∀ entry ∈ entries, entry.type = limineMemmapUsable →
    entry.base % 0x1000 = 0 ∧ entry.length % 0x1000 = 0 ∧ entry.base + entry.length < 2 ^ 64

def MemmapEntry.Covers (entry : MemmapEntry) (i : Nat) : Prop :=
  entry.base ≤ i * 0x1000 ∧ (i + 1) * 0x1000 ≤ entry.base + entry.length

def UsableFrame (entries : List MemmapEntry) (i : Nat) : Prop :=
  ∃ entry ∈ entries, entry.type = limineMemmapUsable ∧ entry.Covers i

def HoldsBitmap (home m_size i : Nat) : Prop := ∃ k < (m_size + 7) / 8, (home + k) / 0x1000 = i

variable {entries : List MemmapEntry} {b : Bitmap} {i : Nat}

theorem mSize_freeEntries : (entries.foldl freeEntry b).mSize = b.mSize := by
  induction entries generalizing b with
  | nil => rfl
  | cons entry rest ih =>
    rw [List.foldl_cons, ih]
    unfold freeEntry
    split
    · exact mSize_setBits _ _ _ _
    · rfl

theorem get_freeEntries (aligned : PageAligned entries) :
    (entries.foldl freeEntry b).get i = false ↔ UsableFrame entries i ∨ b.get i = false := by
  induction entries generalizing b with
  | nil =>
    unfold UsableFrame
    simp
  | cons entry rest ih =>
    have split : UsableFrame (entry :: rest) i ↔
        entry.type = limineMemmapUsable ∧ entry.Covers i ∨ UsableFrame rest i := by
      unfold UsableFrame
      simp only [List.mem_cons, exists_eq_or_imp]
    rw [List.foldl_cons, ih fun e member => aligned e (.tail _ member), split]
    by_cases usable : entry.type = limineMemmapUsable
    · obtain ⟨base, length, bounded⟩ := aligned entry (.head _) usable
      have covers : entry.Covers i ↔
          entry.pageStart ≤ i ∧ i < entry.pageStart + (entry.pageEnd - entry.pageStart) := by
        unfold MemmapEntry.Covers MemmapEntry.pageStart MemmapEntry.pageEnd
        dsimp only
        rw [if_neg (by omega), if_neg (by omega)]
        omega
      unfold freeEntry
      rw [if_pos usable, get_setBits, covers]
      by_cases here : entry.pageStart ≤ i ∧ i < entry.pageStart + (entry.pageEnd - entry.pageStart)
      · simp [usable, here]
      · simp only [usable, here, if_false, and_false, false_or]
    · unfold freeEntry
      rw [if_neg usable]
      simp only [usable, false_and, false_or]

theorem le_lastUsableMem {entry : MemmapEntry} (aligned : PageAligned entries) (member : entry ∈ entries)
    (usable : entry.type = limineMemmapUsable) : entry.base + entry.length ≤ lastUsableMem entries := by
  unfold lastUsableMem
  generalize 0 = last
  induction entries generalizing last with
  | nil => cases member
  | cons first rest ih =>
    have rising : ∀ (es : List MemmapEntry) (n : Nat), n ≤ es.foldl (fun last_usable_mem entry =>
        let new_usable_mem := (entry.base + entry.length) % 2 ^ 64
        if new_usable_mem > last_usable_mem ∧ entry.type = limineMemmapUsable then new_usable_mem
        else last_usable_mem) n := by
      intro es
      induction es with
      | nil => exact fun n => Nat.le_refl n
      | cons e es ih =>
        intro n
        rw [List.foldl_cons]
        refine Nat.le_trans ?_ (ih _)
        dsimp only
        split <;> omega
    rw [List.foldl_cons]
    rcases List.mem_cons.mp member with rfl | later
    · obtain ⟨-, -, bounded⟩ := aligned entry (.head _) usable
      refine Nat.le_trans ?_ (rising rest _)
      dsimp only
      rw [Nat.mod_eq_of_lt bounded]
      split <;> omega
    · exact ih (fun e listed => aligned e (.tail _ listed)) later _

theorem lastUsableMem_lt (entries : List MemmapEntry) : lastUsableMem entries < 2 ^ 64 := by
  unfold lastUsableMem
  apply List.foldlRecOn (motive := fun last => last < 2 ^ 64) entries _ (Nat.two_pow_pos 64)
  intro last bounded entry _
  dsimp only
  split
  · exact Nat.mod_lt _ (Nat.two_pow_pos 64)
  · exact bounded

theorem UsableFrame.lt (usable : UsableFrame entries i) (aligned : PageAligned entries) :
    i < lastUsableMem entries / 0x1000 := by
  obtain ⟨entry, member, type, covers⟩ := usable
  have last := le_lastUsableMem aligned member type
  have upper := covers.2
  omega

theorem findHome_some {m_size : Nat} {home : MemmapEntry} (found : findHome entries m_size = some home) :
    home ∈ entries ∧ home.type = limineMemmapUsable ∧ m_size / 8 ≤ home.length := by
  have test := List.find?_some found
  rw [Bool.and_eq_true, decide_eq_true_eq, decide_eq_true_eq] at test
  exact ⟨List.mem_of_find?_eq_some found, test⟩

/-- The loop that reserves the bitmap's own frames. -/
def Reserved (home m_size i : Nat) : Prop := home / 0x1000 ≤ i ∧ i < home / 0x1000 + alignUp (m_size / 8) / 0x1000

theorem init_get {m : Mem} {pmm : Pmm} {home : MemmapEntry} {m_size : Nat} (aligned : PageAligned entries)
    (size : m_size = lastUsableMem entries / 0x1000) (found : findHome entries m_size = some home)
    (booted : Pmm.init m entries = some pmm) (inside : i < m_size) :
    pmm.bitmap.get i = false ↔ ¬Reserved home.base m_size i ∧ (UsableFrame entries i ∨
      i = 8 * (m_size / 8) ∧ (m (home.base + m_size / 8)).toNat.testBit 0 = false) := by
  unfold Pmm.init at booted
  rw [← size] at booted
  obtain ⟨home', same, booted⟩ := Option.bind_eq_some_iff.mp booted
  obtain rfl : home = home' := Option.some.inj (found.symm.trans same)
  obtain rfl := Option.some.inj booted
  dsimp only
  rw [mSize_freeEntries, Bitmap.mSize_fill, get_setBits]
  have stale : i = 8 * (m_size / 8) →
      (({ mBuffer := fun j => m (home.base + j), mSize := m_size } : Bitmap).get i = false ↔
        (m (home.base + m_size / 8)).toNat.testBit 0 = false) := by
    intro edge
    have byte : i / 8 = m_size / 8 := by omega
    have bit : i % 8 = 0 := by omega
    unfold Bitmap.get
    dsimp only
    rw [byte, bit, Bitmap.getBit_eq _ (by decide)]
  have filled := Bitmap.get_fill { mBuffer := fun j => m (home.base + j), mSize := m_size } true inside
  dsimp only at filled
  unfold Reserved
  by_cases reserved : home.base / 0x1000 ≤ i ∧ i < home.base / 0x1000 + alignUp (m_size / 8) / 0x1000
  · simp [reserved]
  · rw [if_neg reserved, get_freeEntries aligned, filled, Bool.or_eq_false_iff, decide_eq_false_iff_not, not_not]
    by_cases edge : i = 8 * (m_size / 8)
    · rw [stale edge]
      simp only [reserved, not_false_eq_true, true_and]
    · simp only [reserved, edge, not_false_eq_true, true_and, false_and]

section Home

variable {home m_size : Nat}

theorem reserved_iff (bounded : m_size < 2 ^ 52) :
    Reserved home m_size i ↔ home / 0x1000 ≤ i ∧ (i - home / 0x1000) * 0x1000 < m_size / 8 := by
  unfold Reserved alignUp
  split <;> omega

/-- The reservation misses a frame that begins with the last byte, when that byte is not full. -/
theorem holdsBitmap_iff (aligned : home % 0x1000 = 0) (bounded : m_size < 2 ^ 52) :
    HoldsBitmap home m_size i ↔ Reserved home m_size i ∨
      m_size % 8 ≠ 0 ∧ m_size / 8 % 0x1000 = 0 ∧ i = home / 0x1000 + m_size / 8 / 0x1000 := by
  rw [reserved_iff bounded]
  constructor
  · rintro ⟨k, inside, rfl⟩
    omega
  · intro held
    exact ⟨(i - home / 0x1000) * 0x1000, by omega, by omega⟩

end Home

theorem Reserved.usable {home : MemmapEntry} {m_size : Nat} (reserved : Reserved home.base m_size i)
    (aligned : PageAligned entries) (found : findHome entries m_size = some home) (bounded : m_size < 2 ^ 52) :
    UsableFrame entries i := by
  obtain ⟨member, usable, long⟩ := findHome_some found
  obtain ⟨base, length, -⟩ := aligned home member usable
  obtain ⟨lower, upper⟩ := (reserved_iff bounded).mp reserved
  exact ⟨home, member, usable, by omega, by omega⟩

/-- The bitmap is exact when `m_size` is a multiple of 8. Otherwise the first bit of the last byte
must belong to a usable frame or have been set before, and the last byte must not be the first one
in a usable frame. -/
theorem boot_bitmap_exact_iff {m : Mem} {pmm : Pmm} {home : MemmapEntry} {m_size : Nat}
    (aligned : PageAligned entries) (size : m_size = lastUsableMem entries / 0x1000)
    (found : findHome entries m_size = some home) (booted : Pmm.init m entries = some pmm) :
    (∀ i < m_size, pmm.bitmap.get i = false ↔ UsableFrame entries i ∧ ¬HoldsBitmap home.base m_size i) ↔
      (m_size % 8 = 0 ∨
        (UsableFrame entries (8 * (m_size / 8)) ∨ (m (home.base + m_size / 8)).toNat.testBit 0 = true) ∧
          (m_size / 8 % 0x1000 ≠ 0 ∨ ¬UsableFrame entries (home.base / 0x1000 + m_size / 8 / 0x1000))) := by
  have bounded : m_size < 2 ^ 52 := by
    have last := lastUsableMem_lt entries
    omega
  have bits : ∀ i < m_size, _ := fun i inside => init_get aligned size found booted inside
  obtain ⟨member, usable, -⟩ := findHome_some found
  have base := (aligned home member usable).1
  constructor
  · intro exact'
    by_contra wrong
    obtain ⟨rest, wrong⟩ := not_or.mp wrong
    rcases not_and_or.mp wrong with stale | first
    · obtain ⟨unusable, clear⟩ := not_or.mp stale
      have clear : (m (home.base + m_size / 8)).toNat.testBit 0 = false := by simpa using clear
      have open' : ¬Reserved home.base m_size (8 * (m_size / 8)) := by
        intro reserved
        exact unusable (reserved.usable aligned found bounded)
      have free := (bits (8 * (m_size / 8)) (by omega)).mpr ⟨open', Or.inr ⟨rfl, clear⟩⟩
      exact unusable ((exact' _ (by omega)).mp free).1
    · obtain ⟨whole, fresh⟩ := not_or.mp first
      have fresh := not_not.mp fresh
      have inside : home.base / 0x1000 + m_size / 8 / 0x1000 < m_size := size ▸ fresh.lt aligned
      have open' : ¬Reserved home.base m_size (home.base / 0x1000 + m_size / 8 / 0x1000) := by
        intro reserved
        have upper := ((reserved_iff bounded).mp reserved).2
        omega
      have free := (bits _ inside).mpr ⟨open', Or.inl fresh⟩
      exact ((exact' _ inside).mp free).2 ((holdsBitmap_iff base bounded).mpr (Or.inr ⟨rest, not_not.mp whole, rfl⟩))
  · intro fine i inside
    have free : UsableFrame entries i ∨
        i = 8 * (m_size / 8) ∧ (m (home.base + m_size / 8)).toNat.testBit 0 = false ↔
          UsableFrame entries i := by
      apply or_iff_left_of_imp
      rintro ⟨edge, clear⟩
      rcases fine with whole | ⟨stale, -⟩
      · omega
      · exact edge ▸ stale.resolve_right (by rw [clear]; decide)
    rw [bits i inside, free, and_comm]
    apply and_congr_right
    intro usable
    have covered : ¬(m_size % 8 ≠ 0 ∧ m_size / 8 % 0x1000 = 0 ∧ i = home.base / 0x1000 + m_size / 8 / 0x1000) := by
      rintro ⟨rest, whole, rfl⟩
      rcases fine with full | ⟨-, inner | unusable⟩
      · exact rest full
      · exact inner whole
      · exact unusable usable
    rw [holdsBitmap_iff base bounded, or_iff_left covered]

theorem boot_bitmap_exact_iff_whole : ∃ pmm, Pmm.init (fun _ => 0) [⟨0x1000, 0x7000, 0⟩] = some pmm ∧
    ∀ i < 8, pmm.bitmap.get i = false ↔ UsableFrame [⟨0x1000, 0x7000, 0⟩] i ∧ ¬HoldsBitmap 0x1000 8 i := by
  have aligned : PageAligned [⟨0x1000, 0x7000, 0⟩] := by
    unfold PageAligned
    decide
  have booted : (Pmm.init (fun _ => 0) [⟨0x1000, 0x7000, 0⟩]).isSome := by decide +kernel
  obtain ⟨pmm, booted⟩ := Option.isSome_iff_exists.mp booted
  have found : findHome [⟨0x1000, 0x7000, 0⟩] 8 = some ⟨0x1000, 0x7000, 0⟩ := by decide
  exact ⟨pmm, booted, (boot_bitmap_exact_iff aligned (by decide) found booted).mpr (Or.inl rfl)⟩

/-- A usable entry at 0x1000 and one of a single page at 0x9000, with a hole of the length of frame 8 before it. -/
def holedMap : List MemmapEntry := [⟨0x1000, 0x7000, 0⟩, ⟨0x9000, 0x1000, 0⟩]

/-- Frame 8 of the holed map is free after boot. -/
theorem boot_bitmap_frees_hole : ∃ pmm, Pmm.init (fun _ => 0) holedMap = some pmm ∧ PageAligned holedMap ∧
    8 < lastUsableMem holedMap / 0x1000 ∧ pmm.bitmap.get 8 = false ∧ ¬UsableFrame holedMap 8 := by
  have evaluated : (Pmm.init (fun _ => 0) holedMap).map (fun pmm => pmm.bitmap.get 8) = some false :=
    by decide +kernel
  obtain ⟨pmm, booted, free⟩ := Option.map_eq_some_iff.mp evaluated
  refine ⟨pmm, booted, ?_, by decide, free, ?_⟩
  · unfold PageAligned
    decide
  · unfold UsableFrame MemmapEntry.Covers
    decide

end FishOS.Mem
