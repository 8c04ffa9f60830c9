import Mathlib.Tactic.Common

/-!
# Computations that fail

What is known of a sequence of computations that returned, and what it takes for it to avoid one
of its errors.
-/

namespace Except

variable {ε α β : Type} {x : Except ε α} {f : α → Except ε β}

theorem ok_bind (a : α) (f : α → Except ε β) : ((.ok a : Except ε α) >>= f) = f a := rfl

theorem bind_ok {b : β} (returned : x >>= f = .ok b) : ∃ a, x = .ok a ∧ f a = .ok b := by
  cases x with
  | error fault => cases returned
  | ok a => exact ⟨a, rfl, returned⟩

theorem bind_ne_error {fault : ε} (first : x ≠ .error fault) (rest : ∀ a, f a ≠ .error fault) :
    x >>= f ≠ .error fault := by
  cases x with
  | error other => exact fun same => first (congrArg Except.error (Except.error.inj same))
  | ok a => exact rest a

/-- Where a computation shows in the part of the state that is looked at, so does its sequel. -/
theorem toOption_map_bind {τ : Type} {view : α → τ} {view' : β → τ} {seen : τ → Option τ}
    (shows : ∀ a, (f a).toOption.map view' = seen (view a)) (x : Except ε α) :
    (x >>= f).toOption.map view' = (x.toOption.map view).bind seen := by
  cases x with
  | error fault => rfl
  | ok a => exact shows a

theorem foldlM_toOption_map {σ τ δ : Type} {view : σ → τ} {step : σ → δ → Except ε σ} {seen : τ → δ → Option τ}
    (shows : ∀ s d, (step s d).toOption.map view = seen (view s) d) (ds : List δ) (s : σ) :
    (ds.foldlM step s).toOption.map view = ds.foldlM seen (view s) := by
  induction ds generalizing s with
  | nil => rfl
  | cons d ds ih =>
    rw [List.foldlM_cons, List.foldlM_cons, ← shows s d]
    cases step s d with
    | error fault => rfl
    | ok s' => exact ih s'

end Except
