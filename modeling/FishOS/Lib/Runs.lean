import Mathlib.Data.List.Induction
import Mathlib.Data.List.Infix

/-!
# Runs of a machine

A machine takes a step on an event, or fails. In a run, every step is on an event that is
permitted in the state at hand.
-/

namespace Runs

variable {S E : Type}

theorem foldlM_snoc (step : S → E → Option S) (s : S) (events : List E) (e : E) :
    (events ++ [e]).foldlM step s = (events.foldlM step s).bind fun s => step s e := by
  rw [List.foldlM_append]
  simp

inductive Run (step : S → E → Option S) (permits : S → E → Prop) : S → S → Prop where
  | refl (s : S) : Run step permits s s
  | snoc {s s₁ s' : S} {e : E} : Run step permits s s₁ → permits s₁ e → step s₁ e = some s' → Run step permits s s'

theorem before_nil {P : List E → E → Prop} : ∀ done last, done ++ [last] <+: [] → P done last := by
  intro done last early
  have length := early.length_le
  simp at length

theorem before_snoc {P : List E → E → Prop} (events : List E) (e : E) :
    (∀ done last, done ++ [last] <+: events ++ [e] → P done last) ↔
      (∀ done last, done ++ [last] <+: events → P done last) ∧ P events e := by
  constructor
  · intro each
    exact ⟨fun done last early => each done last (early.trans (List.prefix_append _ _)),
      each events e (List.prefix_refl _)⟩
  · rintro ⟨each, whole⟩ done last early
    rcases List.prefix_concat_iff.mp early with same | before
    · obtain ⟨rfl, last⟩ := List.append_inj' same rfl
      obtain rfl := List.singleton_inj.mp last
      exact whole
    · exact each done last before

theorem throughout_snoc {P : List E → Prop} (events : List E) (e : E) :
    (∀ done, done <+: events ++ [e] → P done) ↔ (∀ done, done <+: events → P done) ∧ P (events ++ [e]) := by
  constructor
  · intro each
    exact ⟨fun done early => each done (early.trans (List.prefix_append _ _)), each _ (List.prefix_refl _)⟩
  · rintro ⟨each, whole⟩ done early
    rcases List.prefix_concat_iff.mp early with rfl | before
    · exact whole
    · exact each done before

variable {step : S → E → Option S} {permits permits' : S → E → Prop} {s s₁ s' : S}

/-- What every permitted step preserves holds in every state of a run. -/
theorem Run.invariant (run : Run step permits s s') {P : S → Prop} (start : P s)
    (preserved : ∀ {s e s'}, P s → permits s e → step s e = some s' → P s') : P s' := by
  induction run with
  | refl => exact start
  | snoc _ permitted stepped ih => exact preserved ih permitted stepped

/-- A run may use an invariant to see that its steps are permitted. -/
theorem Run.mono (run : Run step permits s s') {P : S → Prop} (start : P s)
    (preserved : ∀ {s e s'}, P s → permits s e → step s e = some s' → P s')
    (weaker : ∀ {s e}, P s → permits s e → permits' s e) : Run step permits' s s' := by
  induction run with
  | refl => exact .refl s
  | snoc before permitted stepped ih => exact .snoc ih (weaker (before.invariant start preserved) permitted) stepped

/-- The run of a list of events, when all are permitted. -/
theorem Run.of_events (allowed : ∀ s e, permits s e) (events : List E) (ran : events.foldlM step s = some s') :
    Run step permits s s' := by
  induction events using List.reverseRecOn generalizing s' with
  | nil =>
    obtain rfl := Option.some.inj ran
    exact .refl s
  | append_singleton before last ih =>
    rw [foldlM_snoc] at ran
    obtain ⟨s₁, start, stepped⟩ := Option.bind_eq_some_iff.mp ran
    exact (ih start).snoc (allowed s₁ last) stepped

end Runs
