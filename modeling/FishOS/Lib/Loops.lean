import FishOS.Lib.Runs
import Mathlib.Data.List.Basic
import Mathlib.Tactic.Common

/-!
# Counting loops

The loop rule of a `for` loop whose body may fail, for a counter that cannot wrap and for one of
`period` values that can.
-/

namespace Loops

variable {S : Type} {P : Nat → S → Prop} {s : S}

/-- `for (i = 0; i < n; i++)` -/
def times (n : Nat) (body : Nat → S → Option S) (s : S) : Option S := (List.range n).foldlM (fun s i => body i s) s

theorem times_succ (n : Nat) (body : Nat → S → Option S) (s : S) :
    times (n + 1) body s = (times n body s).bind (body n) := by
  rw [times, List.range_succ, Runs.foldlM_snoc]
  rfl

/-- What every round takes from `P i` to `P (i + 1)`, the loop takes from `P 0` to `P n`. -/
theorem times_rule {n : Nat} (body : Nat → S → Option S) (start : P 0 s)
    (round : ∀ i s, i < n → P i s → ∃ s', body i s = some s' ∧ P (i + 1) s') :
    ∃ s', times n body s = some s' ∧ P n s' := by
  induction n with
  | zero => exact ⟨s, rfl, start⟩
  | succ n ih =>
    obtain ⟨s₁, ran, done⟩ := ih fun i s inside => round i s (Nat.lt_succ_of_lt inside)
    obtain ⟨s', last, done'⟩ := round n s₁ (Nat.lt_succ_self n) done
    refine ⟨s', ?_, done'⟩
    rw [times_succ, ran]
    exact last

/-- A loop that is still running when the fuel is used up. -/
def countTo (period bound : Nat) (body : Nat → S → Option S) : (fuel i : Nat) → S → Option S
  | 0, _, _ => none
  | fuel + 1, i, s =>
    if i < bound then (body i s).bind (countTo period bound body fuel ((i + 1) % period)) else some s

/-- `for (i = first; i < bound; i++)`. After `period` rounds the counter has taken every value, and
none has ended the loop. -/
def count (period first bound : Nat) (body : Nat → S → Option S) (s : S) : Option S :=
  countTo period bound body (period + 1) first s

theorem countTo_rule {period bound fuel i : Nat} (body : Nat → S → Option S) (fits : bound < period)
    (before : i ≤ bound) (enough : bound < i + fuel) (start : P i s)
    (round : ∀ j s, i ≤ j → j < bound → P j s → ∃ s', body j s = some s' ∧ P (j + 1) s') :
    ∃ s', countTo period bound body fuel i s = some s' ∧ P bound s' := by
  induction fuel generalizing i s with
  | zero => omega
  | succ fuel ih =>
    rw [countTo]
    by_cases more : i < bound
    · obtain ⟨s₁, ran, done⟩ := round i s (Nat.le_refl i) more start
      rw [if_pos more, ran, Option.bind_some, Nat.mod_eq_of_lt (by omega)]
      exact ih (by omega) (by omega) done fun j s lower => round j s (by omega)
    · obtain rfl : i = bound := by omega
      exact ⟨s, if_neg more, start⟩

theorem count_rule {period first bound : Nat} (body : Nat → S → Option S) (fits : bound < period)
    (before : first ≤ bound) (start : P first s)
    (round : ∀ j s, first ≤ j → j < bound → P j s → ∃ s', body j s = some s' ∧ P (j + 1) s') :
    ∃ s', count period first bound body s = some s' ∧ P bound s' :=
  countTo_rule body fits before (by omega) start round

theorem countTo_wraps {period bound i : Nat} (body : Nat → S → Option S) (wraps : period ≤ bound) (small : i < period)
    (fuel : Nat) (s : S) : countTo period bound body fuel i s = none := by
  induction fuel generalizing i s with
  | zero => rfl
  | succ fuel ih =>
    rw [countTo, if_pos (by omega)]
    cases body i s with
    | none => rfl
    | some s₁ => exact ih (Nat.mod_lt _ (by omega)) s₁

theorem count_wraps {period first bound : Nat} (body : Nat → S → Option S) (wraps : period ≤ bound)
    (small : first < period) (s : S) : count period first bound body s = none :=
  countTo_wraps body wraps small _ s

theorem count_fails {period first bound : Nat} (body : Nat → S → Option S) (more : first < bound)
    (fails : body first s = none) : count period first bound body s = none := by
  rw [count, countTo, if_pos more, fails]
  rfl

/-- A loop whose rounds do not fail is a fold over the values of its counter. -/
theorem count_eq_foldl {period first bound : Nat} (body : Nat → S → Option S) (f : Nat → S → S) (fits : bound < period)
    (before : first ≤ bound) (total : ∀ j s, first ≤ j → j < bound → body j s = some (f j s)) (s : S) :
    count period first bound body s = some ((List.range' first (bound - first)).foldl (fun s j => f j s) s) := by
  obtain ⟨s', ran, done⟩ := count_rule (s := s)
    (P := fun i s' => s' = (List.range' first (i - first)).foldl (fun s j => f j s) s) body fits before
    (by simp)
    (by
      intro j s₁ lower upper done
      refine ⟨f j s₁, total j s₁ lower upper, ?_⟩
      have next : j + 1 - first = j - first + 1 := by omega
      have last : first + 1 * (j - first) = j := by omega
      rw [next, List.range'_concat, List.foldl_append, ← done, last]
      rfl)
  rw [ran, done]

end Loops
