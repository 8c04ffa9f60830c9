import FishOS.Mem.Vmm
import Mathlib.Data.Fin.Basic

/-!
# Entries of page tables

The 512 words of a table that lies in an aligned frame, and the bits of an entry.
-/

namespace FishOS.Mem

def word (m : Mem) (table : Nat) (index : Fin 512) : Nat := entry m table index

def next (e : Nat) : Option Nat := if e &&& pagePresent ≠ 0 then some (e &&& addressMask) else none

/-- `(virt >> shift) & 0x1FF`. -/
def level (virt shift : Nat) : Fin 512 := ⟨(virt >>> shift) &&& 0x1FF, Nat.and_lt_two_pow _ (n := 9) (by decide)⟩

def tablePath (virt : Nat) : List (Fin 512) := [level virt 39, level virt 30, level virt 21]

def path (virt : Nat) : List (Fin 512) := [level virt 39, level virt 30, level virt 21, level virt 12]

theorem testBit_addressMask (i : Nat) : addressMask.testBit i = (decide (12 ≤ i) && decide (i < 52)) := by
  have shifted : addressMask = (2 ^ 40 - 1) <<< 12 := by decide
  rw [shifted, Nat.testBit_shiftLeft, Nat.testBit_two_pow_sub_one]
  by_cases low : 12 ≤ i
  · simp only [low, decide_true, Bool.true_and, decide_eq_decide]
    omega
  · simp [low]

theorem and_addressMask (x : Nat) : x &&& addressMask = x % 2 ^ 52 / 0x1000 * 0x1000 := by
  have shape : x % 2 ^ 52 / 0x1000 * 0x1000 = ((x % 2 ^ 52) >>> 12) <<< 12 := by
    rw [Nat.shiftLeft_eq, Nat.shiftRight_eq_div_pow]
  rw [shape]
  apply Nat.eq_of_testBit_eq
  intro i
  rw [Nat.testBit_and, testBit_addressMask, Nat.testBit_shiftLeft, Nat.testBit_shiftRight, Nat.testBit_mod_two_pow]
  by_cases low : 12 ≤ i
  · have back : 12 + (i - 12) = i := by omega
    simp only [low, decide_true, Bool.true_and, back]
    exact Bool.and_comm _ _
  · simp [low]

theorem and_pagePresent (x : Nat) : x &&& pagePresent = x % 2 := Nat.and_one_is_mod x

theorem or_and_addressMask {phy flags : Nat} (clear : flags &&& addressMask = 0) :
    ((phy &&& addressMask) ||| flags) &&& addressMask = phy &&& addressMask := by
  rw [Nat.and_or_distrib_right, clear, Nat.or_zero, Nat.and_assoc, Nat.and_self]

theorem aligned_and_addressMask {phy : Nat} (aligned : phy % 0x1000 = 0) (bounded : phy < 2 ^ 52) :
    phy &&& addressMask = phy := by
  rw [and_addressMask]
  omega

def leafWord (phy flags : Nat) : Nat := (phy &&& addressMask) ||| flags

theorem leafWord_lt {phy flags : Nat} (bounded : flags < 2 ^ 64) : leafWord phy flags < 2 ^ 64 :=
  Nat.or_lt_two_pow (Nat.and_lt_two_pow _ (by decide)) bounded

def flagsMask : Nat := 0xFFF0000000000FFF

theorem leafWord_address {phy flags : Nat} (clear : flags &&& addressMask = 0) :
    leafWord phy flags &&& addressMask = phy &&& addressMask :=
  or_and_addressMask clear

theorem leafWord_flags {phy flags : Nat} (bounded : flags < 2 ^ 64) (clear : flags &&& addressMask = 0) :
    leafWord phy flags &&& flagsMask = flags := by
  have all : flags &&& (addressMask ||| flagsMask) = flags := by
    have full : addressMask ||| flagsMask = 2 ^ 64 - 1 := by decide
    rw [full, Nat.and_two_pow_sub_one_eq_mod, Nat.mod_eq_of_lt bounded]
  rw [Nat.and_or_distrib_left, clear, Nat.zero_or] at all
  have apart : addressMask &&& flagsMask = 0 := by decide
  unfold leafWord
  rw [Nat.and_or_distrib_right, Nat.and_assoc, apart, Nat.and_zero, Nat.zero_or, all]

theorem leafWord_present (phy flags : Nat) : leafWord phy flags &&& pagePresent = flags &&& pagePresent := by
  have apart : addressMask &&& pagePresent = 0 := by decide
  unfold leafWord
  rw [Nat.and_or_distrib_right, Nat.and_assoc, apart, Nat.and_zero, Nat.zero_or]

theorem leafWord_ne_zero {phy flags : Nat} (present : flags &&& pagePresent ≠ 0) : leafWord phy flags ≠ 0 := by
  intro zero
  rw [← leafWord_present phy, zero, Nat.zero_and] at present
  exact present rfl

theorem next_table {table : Nat} (aligned : table % 0x1000 = 0) (bounded : table < 2 ^ 52) :
    next (table ||| pagePresent ||| pageWritable ||| pageUser) = some table := by
  have flags : table ||| pagePresent ||| pageWritable ||| pageUser = (table &&& addressMask) ||| 7 := by
    rw [aligned_and_addressMask aligned bounded, Nat.or_assoc, Nat.or_assoc]
    rfl
  unfold next
  rw [flags, or_and_addressMask (by decide), aligned_and_addressMask aligned bounded, and_pagePresent,
    ← Nat.pow_one 2, Nat.or_mod_two_pow, if_pos]
  rw [Nat.pow_one]
  have even : table % 2 = 0 := by omega
  rw [even]
  decide

theorem next_zero : next 0 = none := rfl

theorem table_lt {table : Nat} (bounded : table < 2 ^ 52) :
    table ||| pagePresent ||| pageWritable ||| pageUser < 2 ^ 64 :=
  Nat.or_lt_two_pow (Nat.or_lt_two_pow (Nat.or_lt_two_pow (by omega) (by decide)) (by decide)) (by decide)

theorem word_mod (m : Mem) (t : Nat) (i : Fin 512) : word m t i % 256 = (m (t + 8 * i.val)).toNat := by
  have byte := (m (t + 8 * i.val)).toNat_lt
  unfold word entry Mem.read64
  rw [Mem.readLE]
  omega

theorem word_lt (m : Mem) (t : Nat) (i : Fin 512) : word m t i < 2 ^ 64 := Mem.read64_lt m _

theorem word_setEntry (m : Mem) {t u : Nat} (v : Nat) (i j : Fin 512) (tAligned : t % 0x1000 = 0)
    (uAligned : u % 0x1000 = 0) :
    word (setEntry m t i v) u j = if u = t ∧ j = i then v % 2 ^ 64 else word m u j := by
  have hi := i.isLt
  have hj := j.isLt
  unfold word entry setEntry
  split
  · rename_i here
    obtain ⟨rfl, rfl⟩ := here
    exact Mem.read64_write64 m _ v
  · rename_i other
    apply Mem.read64_write64_other m
    by_cases table : u = t
    · have index : j.val ≠ i.val := fun same => other ⟨table, Fin.ext same⟩
      omega
    · omega

theorem setEntry_other (m : Mem) {t v x : Nat} (i : Fin 512) (outside : x < t ∨ t + 0x1000 ≤ x) :
    setEntry m t i v x = m x := by
  have index := i.isLt
  exact Mem.write64_other m (by omega)

theorem word_congr {m m' : Mem} {u frame : Nat} {j : Fin 512} (uAligned : u % 0x1000 = 0)
    (aligned : frame % 0x1000 = 0) (other : u ≠ frame)
    (outside : ∀ x, x < frame ∨ frame + 0x1000 ≤ x → m' x = m x) : word m' u j = word m u j := by
  have hj := j.isLt
  exact Mem.read64_congr fun x lower upper => outside x (by omega)

theorem word_memset_self (m : Mem) (frame : Nat) (j : Fin 512) :
    word (m.memset frame 0 0x1000) frame j = 0 := by
  have hj := j.isLt
  exact Mem.read64_memset_zero m (by omega) (by omega)

/-- The pages are numbered by bits 12 to 47 of an address. -/
def page (virt : Nat) : Nat := virt / 0x1000 % 2 ^ 36

theorem level_eq (virt shift : Nat) : (level virt shift).val = virt / 2 ^ shift % 512 := by
  unfold level
  dsimp only
  rw [Nat.shiftRight_eq_div_pow]
  exact Nat.and_two_pow_sub_one_eq_mod _ 9

theorem path_eq_iff {v w : Nat} : path v = path w ↔ page v = page w := by
  unfold path page
  simp only [List.cons.injEq, and_true, Fin.ext_iff, level_eq]
  omega

theorem path_prefix_path {v w : Nat} : path v <+: path w ↔ page v = page w := by
  constructor
  · exact fun front => path_eq_iff.mp (front.eq_of_length rfl)
  · exact fun same => path_eq_iff.mpr same ▸ List.prefix_rfl

theorem alignUp_eq {length : Nat} (bounded : (length + 0xFFF) / 0x1000 * 0x1000 < 2 ^ 64) :
    alignUp length = (length + 0xFFF) / 0x1000 * 0x1000 := by
  unfold alignUp
  split <;> omega

def Canonical (virt : Nat) : Prop := virt < 2 ^ 47 ∨ 2 ^ 64 - 2 ^ 47 ≤ virt ∧ virt < 2 ^ 64

theorem page_eq_iff {v w : Nat} (hv : Canonical v) (hw : Canonical w) :
    page v = page w ↔ v / 0x1000 = w / 0x1000 := by
  unfold Canonical page at *
  omega

end FishOS.Mem
