import Mathlib.Data.List.Basic
import Mathlib.Data.List.TakeWhile

/-!
# C strings

A pointer to characters is the list of the bytes from there to the end of its buffer. Reading
behind that end is `none`.
-/

namespace FishOS.Klib

/-- The characters of a string, without the NUL behind them. -/
structure CString where
  chars : List UInt8
  noNul : 0 ∉ chars
  deriving DecidableEq

namespace CString

@[ext] theorem ext {s t : CString} (same : s.chars = t.chars) : s = t := by
  cases s
  cases t
  cases same
  rfl

/-- The string in a buffer of these bytes and a NUL. -/
def ofBytes (bytes : List UInt8) : CString where
  chars := bytes.takeWhile (· ≠ 0)
  noNul := by
    intro member
    have nonzero := List.mem_takeWhile_imp member
    exact absurd rfl (of_decide_eq_true nonzero)

theorem ofBytes_of_noNul {bytes : List UInt8} (noNul : 0 ∉ bytes) : (ofBytes bytes).chars = bytes := by
  apply List.takeWhile_eq_self_iff.mpr
  intro c member
  exact decide_eq_true fun zero => noNul (zero ▸ member)

end CString

def strlen : List UInt8 → Option Nat
  | [] => none
  | c :: str => if c ≠ 0 then (strlen str).map (· + 1) else some 0

/-- The distance to the character, or `none` for the null pointer. -/
def strchr (c : UInt8) : List UInt8 → Option (Option Nat)
  | [] => none
  | x :: str => if x ≠ c then if x = 0 then some none else (strchr c str).map (·.map (· + 1)) else some (some 0)

/-- Behind the characters both loops read the NUL. -/
def strcmp : List UInt8 → List UInt8 → Int
  | l :: lhs, r :: rhs => if l = r then strcmp lhs rhs else (l.toNat : Int) - r.toNat
  | lhs, rhs => ((lhs.headD 0).toNat : Int) - (rhs.headD 0).toNat

theorem strlen_eq {chars : List UInt8} (noNul : 0 ∉ chars) (rest : List UInt8) :
    strlen (chars ++ 0 :: rest) = some chars.length := by
  induction chars with
  | nil => rfl
  | cons c chars ih =>
    obtain ⟨first, noNul⟩ := List.ne_and_not_mem_of_not_mem_cons noNul
    simp [strlen, ih noNul, Ne.symm first]

theorem strchr_found {c : UInt8} {before : List UInt8} (absent : c ∉ before) (noNul : 0 ∉ before)
    (rest : List UInt8) : strchr c (before ++ c :: rest) = some (some before.length) := by
  induction before with
  | nil => simp [strchr]
  | cons x before ih =>
    obtain ⟨other, absent⟩ := List.ne_and_not_mem_of_not_mem_cons absent
    obtain ⟨nonzero, noNul⟩ := List.ne_and_not_mem_of_not_mem_cons noNul
    simp [strchr, ih absent noNul, Ne.symm other, Ne.symm nonzero]

theorem strchr_absent {c : UInt8} {chars : List UInt8} (nonzero : c ≠ 0) (absent : c ∉ chars)
    (noNul : 0 ∉ chars) (rest : List UInt8) : strchr c (chars ++ 0 :: rest) = some none := by
  induction chars with
  | nil => simp [strchr, Ne.symm nonzero]
  | cons x chars ih =>
    obtain ⟨other, absent⟩ := List.ne_and_not_mem_of_not_mem_cons absent
    obtain ⟨first, noNul⟩ := List.ne_and_not_mem_of_not_mem_cons noNul
    simp [strchr, ih absent noNul, Ne.symm other, Ne.symm first]

theorem strcmp_self (chars : List UInt8) : strcmp chars chars = 0 := by
  induction chars with
  | nil => rfl
  | cons c chars ih => rw [strcmp, if_pos rfl, ih]

theorem toNat_eq_zero {x : UInt8} (zero : x.toNat = 0) : x = 0 := UInt8.toNat_inj.mp zero

theorem strcmp_eq_zero_iff {s t : CString} : strcmp s.chars t.chars = 0 ↔ s = t := by
  constructor
  · intro equal
    apply CString.ext
    obtain ⟨lhs, noNul⟩ := s
    obtain ⟨rhs, noNul'⟩ := t
    dsimp only at *
    induction lhs generalizing rhs with
    | nil =>
      cases rhs with
      | nil => rfl
      | cons r rhs =>
        have zero : r = 0 := toNat_eq_zero (by simpa [strcmp] using equal)
        exact absurd (zero ▸ List.mem_cons_self) noNul'
    | cons l lhs ih =>
      cases rhs with
      | nil =>
        have zero : l = 0 := toNat_eq_zero (by simpa [strcmp] using equal)
        exact absurd (zero ▸ List.mem_cons_self) noNul
      | cons r rhs =>
        rw [strcmp] at equal
        split at equal
        · rename_i same
          rw [same, ih (fun member => noNul (.tail _ member)) rhs (fun member => noNul' (.tail _ member)) equal]
        · rename_i other
          exact absurd (UInt8.toNat_inj.mp (by omega)) other
  · rintro rfl
    exact strcmp_self s.chars

end FishOS.Klib
