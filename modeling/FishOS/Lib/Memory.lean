import Mathlib.Tactic.Common
import Mathlib.Tactic.Ring
import Mathlib.Algebra.Order.Ring.Nat

/-!
# Byte memories

A memory gives every address a byte. Words are little-endian runs of bytes; the two
block operations are the `rep stosb` and `rep movsb` loops.
-/

abbrev Mem := Nat → UInt8

namespace Mem

def readLE (m : Mem) (a : Nat) : Nat → Nat
  | 0 => 0
  | n + 1 => (m a).toNat + 256 * readLE m (a + 1) n

def writeLE (m : Mem) (a n v : Nat) : Mem := fun x =>
  if a ≤ x ∧ x < a + n then UInt8.ofNat (v / 256 ^ (x - a)) else m x

def read64 (m : Mem) (a : Nat) : Nat := m.readLE a 8

def write64 (m : Mem) (a v : Nat) : Mem := m.writeLE a 8 v

def write8 (m : Mem) (a : Nat) (v : UInt8) : Mem := fun x => if x = a then v else m x

def memset (m : Mem) (dst : Nat) (value : UInt8) (size : Nat) : Mem := fun x =>
  if dst ≤ x ∧ x < dst + size then value else m x

/-- The bytes are copied one at a time, upwards. -/
def memcpy (m : Mem) (dst src : Nat) : Nat → Mem
  | 0 => m
  | n + 1 =>
    let copied := memcpy m dst src n
    copied.write8 (dst + n) (copied (src + n))

def copyIn (m : Mem) (dst : Nat) (src : Nat → UInt8) (n : Nat) : Mem := fun x =>
  if dst ≤ x ∧ x < dst + n then src (x - dst) else m x

theorem readLE_congr {m m' : Mem} {a n : Nat} (same : ∀ x, a ≤ x → x < a + n → m' x = m x) :
    m'.readLE a n = m.readLE a n := by
  induction n generalizing a with
  | zero => rfl
  | succ n ih =>
    rw [readLE, readLE, same a (by omega) (by omega),
      ih fun x lower upper => same x (by omega) (by omega)]

theorem readLE_lt (m : Mem) (a n : Nat) : m.readLE a n < 256 ^ n := by
  induction n generalizing a with
  | zero => simp [readLE]
  | succ n ih =>
    have byte := (m a).toNat_lt
    have rest := ih (a + 1)
    rw [readLE, Nat.pow_succ]
    omega

theorem writeLE_of_lt (m : Mem) {a n v x : Nat} (h : x < a) : m.writeLE a n v x = m x :=
  if_neg (by omega)

theorem writeLE_of_ge (m : Mem) {a n v x : Nat} (h : a + n ≤ x) : m.writeLE a n v x = m x :=
  if_neg (by omega)

theorem writeLE_succ (m : Mem) (a n v : Nat) :
    m.writeLE a (n + 1) v = (m.write8 a (UInt8.ofNat v)).writeLE (a + 1) n (v / 256) := by
  funext x
  unfold writeLE write8
  by_cases first : x = a
  · subst first
    simp
  · by_cases inside : a ≤ x ∧ x < a + (n + 1)
    · have exponent : x - a = x - (a + 1) + 1 := by omega
      rw [if_pos inside, if_pos (by omega), Nat.div_div_eq_div_mul, exponent, Nat.pow_succ']
    · rw [if_neg inside, if_neg (by omega), if_neg first]

theorem readLE_writeLE_front (m : Mem) {a n k v : Nat} (short : k ≤ n) : (m.writeLE a n v).readLE a k = v % 256 ^ k := by
  induction k generalizing m a n v with
  | zero => simp [readLE, Nat.mod_one]
  | succ k ih =>
    obtain ⟨n, rfl⟩ := Nat.exists_eq_add_of_le' (Nat.lt_of_lt_of_le (Nat.succ_pos k) short)
    have low : (m.writeLE a (n + 1) v a).toNat = v % 256 := by
      rw [writeLE, if_pos (by omega)]
      simp
    rw [readLE, low, writeLE_succ, ih _ (by omega), Nat.pow_succ', Nat.mod_mul]

theorem readLE_writeLE (m : Mem) (a n v : Nat) : (m.writeLE a n v).readLE a n = v % 256 ^ n :=
  readLE_writeLE_front m (Nat.le_refl n)

theorem readLE_writeLE_other (m : Mem) {a n v b k : Nat} (apart : b + k ≤ a ∨ a + n ≤ b) :
    (m.writeLE a n v).readLE b k = m.readLE b k :=
  readLE_congr fun x lower upper => by
    rcases apart with before | after
    · exact writeLE_of_lt m (by omega)
    · exact writeLE_of_ge m (by omega)

theorem read64_lt (m : Mem) (a : Nat) : m.read64 a < 2 ^ 64 := readLE_lt m a 8

theorem read64_congr {m m' : Mem} {a : Nat} (same : ∀ x, a ≤ x → x < a + 8 → m' x = m x) :
    m'.read64 a = m.read64 a := readLE_congr same

theorem read64_write64 (m : Mem) (a v : Nat) : (m.write64 a v).read64 a = v % 2 ^ 64 :=
  readLE_writeLE m a 8 v

theorem read64_write64_other (m : Mem) {a v b : Nat} (apart : b + 8 ≤ a ∨ a + 8 ≤ b) :
    (m.write64 a v).read64 b = m.read64 b :=
  readLE_writeLE_other m apart

theorem write64_other (m : Mem) {a v x : Nat} (apart : x < a ∨ a + 8 ≤ x) :
    m.write64 a v x = m x := by
  rcases apart with before | after
  · exact writeLE_of_lt m before
  · exact writeLE_of_ge m after

theorem write8_same (m : Mem) (a : Nat) (v : UInt8) : m.write8 a v a = v := if_pos rfl

theorem write8_other (m : Mem) {a x : Nat} {v : UInt8} (apart : x ≠ a) : m.write8 a v x = m x :=
  if_neg apart

theorem read64_write8_other (m : Mem) {a b : Nat} {v : UInt8} (apart : a < b ∨ b + 8 ≤ a) :
    (m.write8 a v).read64 b = m.read64 b :=
  read64_congr fun x lower upper => write8_other m (by omega)

theorem memset_inside (m : Mem) {dst size x : Nat} {value : UInt8} (lower : dst ≤ x)
    (upper : x < dst + size) : m.memset dst value size x = value := if_pos ⟨lower, upper⟩

theorem memset_other (m : Mem) {dst size x : Nat} {value : UInt8} (apart : x < dst ∨ dst + size ≤ x) :
    m.memset dst value size x = m x := if_neg (by omega)

theorem read64_memset_zero (m : Mem) {dst size a : Nat} (lower : dst ≤ a) (upper : a + 8 ≤ dst + size) :
    (m.memset dst 0 size).read64 a = 0 := by
  have zero : ∀ n b, dst ≤ b → b + n ≤ dst + size → (m.memset dst 0 size).readLE b n = 0 := by
    intro n
    induction n with
    | zero => intro b _ _; rfl
    | succ n ih =>
      intro b lower upper
      rw [readLE, ih (b + 1) (by omega) (by omega), memset_inside m (by omega) (by omega)]
      rfl
  exact zero 8 a lower upper

theorem copyIn_inside (m : Mem) {dst n x : Nat} {src : Nat → UInt8} (lower : dst ≤ x) (upper : x < dst + n) :
    m.copyIn dst src n x = src (x - dst) := if_pos ⟨lower, upper⟩

theorem copyIn_other (m : Mem) {dst n x : Nat} {src : Nat → UInt8} (apart : x < dst ∨ dst + n ≤ x) :
    m.copyIn dst src n x = m x := if_neg (by omega)

theorem read64_blank (a : Nat) : read64 (fun _ => 0) a = 0 := by simp [read64, readLE]

theorem memcpy_other (m : Mem) {dst src n x : Nat} (apart : x < dst ∨ dst + n ≤ x) :
    m.memcpy dst src n x = m x := by
  induction n with
  | zero => rfl
  | succ n ih => rw [memcpy, write8_other _ (by omega), ih (by omega)]

/-- An upward copy delivers the source when the source does not start below an overlapping destination. -/
theorem memcpy_inside (m : Mem) {dst src n i : Nat} (apart : dst ≤ src ∨ src + n ≤ dst) (inside : i < n) :
    m.memcpy dst src n (dst + i) = m (src + i) := by
  induction n with
  | zero => omega
  | succ n ih =>
    rw [memcpy]
    by_cases last : i = n
    · subst last
      rw [write8_same]
      rcases apart with below | above
      · exact memcpy_other m (by omega)
      · exact memcpy_other m (by omega)
    · rw [write8_other _ (by omega), ih (by omega) (by omega)]

end Mem
