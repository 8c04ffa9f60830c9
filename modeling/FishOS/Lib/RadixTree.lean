import Mathlib.Data.List.Basic
import Mathlib.Logic.Function.Basic

/-!
# Radix trees of tables

Tables of words, where some words lead to a further table. A labelling names tables by the
path that leads to them from a root, at most `depth - 1` steps long. Tables may be shared
between roots, as long as they hang at the same path everywhere. What a change of tables does
to a lookup then depends on the labels alone.
-/

namespace RadixTree

variable {T I W : Type} (next : W → Option T)

/-- The word at the end of a path of indices, when the tables on the way are there. -/
def reach (entry : T → I → W) : T → List I → Option W
  | _, [] => none
  | t, [i] => some (entry t i)
  | t, i :: j :: rest => (next (entry t i)).bind fun t' => reach entry t' (j :: rest)

def follow (entry : T → I → W) : T → List I → Option T
  | t, [] => some t
  | t, i :: rest => (next (entry t i)).bind fun t' => follow entry t' rest

structure Labelling (entry : T → I → W) (depth : Nat) (lab : T → Option (List I)) : Prop where
  short : ∀ {t p}, lab t = some p → p.length < depth
  child : ∀ {t p i t'}, lab t = some p → p.length + 1 < depth → next (entry t i) = some t' → lab t' = some (p ++ [i])

variable {next} {entry entry' : T → I → W} {depth : Nat} {lab : T → Option (List I)} {t t₀ t₁ : T} {i₀ : I} {p₀ q : List I}

theorem reach_cons (i : I) {rest : List I} (more : rest ≠ []) :
    reach next entry t (i :: rest) = (next (entry t i)).bind fun t' => reach next entry t' rest := by
  cases rest with
  | nil => exact absurd rfl more
  | cons j rest => rfl

theorem follow_snoc (path : List I) (i : I) :
    follow next entry t (path ++ [i]) = (follow next entry t path).bind fun t' => next (entry t' i) := by
  induction path generalizing t with
  | nil => simp [follow]
  | cons j rest ih =>
    rw [List.cons_append, follow, follow, Option.bind_assoc]
    exact congrArg _ (funext fun _ => ih)

theorem reach_snoc (path : List I) (i : I) :
    reach next entry t (path ++ [i]) = (follow next entry t path).map fun t' => entry t' i := by
  induction path generalizing t with
  | nil => rfl
  | cons j rest ih =>
    rw [List.cons_append, reach_cons j (by simp), follow, Option.map_bind]
    exact congrArg _ (funext fun _ => ih)

theorem Labelling.follow_label (labels : Labelling next entry depth lab) (here : lab t = some q) {path : List I}
    (within : q.length + path.length < depth) (found : follow next entry t path = some t₁) :
    lab t₁ = some (q ++ path) := by
  induction path generalizing t q with
  | nil =>
    obtain rfl := Option.some.inj found
    rwa [List.append_nil]
  | cons i rest ih =>
    rw [follow] at found
    obtain ⟨t', below, found⟩ := Option.bind_eq_some_iff.mp found
    simp only [List.length_cons] at within
    have deeper : (q ++ [i]).length + rest.length < depth := by
      simp only [List.length_append, List.length_cons, List.length_nil]
      omega
    have label := ih (labels.child here (by omega) below) deeper found
    rwa [List.append_assoc, List.singleton_append] at label

theorem Labelling.follow_held (labels : Labelling next entry depth lab) (here : lab t = some q)
    {path : List I} (within : q.length + path.length < depth) (found : follow next entry t path = some t₁)
    (held : ∀ {u p i t'}, lab u = some p → p.length + 1 < depth → next (entry u i) = some t' →
      entry' u i = entry u i) :
    follow next entry' t path = some t₁ := by
  induction path generalizing t q with
  | nil => exact found
  | cons i rest ih =>
    rw [follow] at found ⊢
    obtain ⟨t', below, found⟩ := Option.bind_eq_some_iff.mp found
    simp only [List.length_cons] at within
    have deeper : (q ++ [i]).length + rest.length < depth := by
      simp only [List.length_append, List.length_cons, List.length_nil]
      omega
    rw [held here (by omega) below, below]
    exact ih (labels.child here (by omega) below) deeper found

theorem Labelling.reach_congr (labels : Labelling next entry depth lab) (here : lab t = some q) {path : List I}
    (within : q.length + path.length ≤ depth)
    (same : ∀ u p j, lab u = some p → (p ++ [j]) <+: (q ++ path) → entry' u j = entry u j) :
    reach next entry' t path = reach next entry t path := by
  induction path generalizing t q with
  | nil => rfl
  | cons i rest ih =>
    have first : entry' t i = entry t i := same t q i here ⟨rest, by simp⟩
    cases rest with
    | nil => rw [reach, reach, first]
    | cons j rest =>
      rw [reach, reach, first]
      cases below : next (entry t i) with
      | none => rfl
      | some t' =>
        simp only [List.length_cons] at within
        have deeper : (q ++ [i]).length + (j :: rest).length ≤ depth := by
          simp only [List.length_append, List.length_cons, List.length_nil]
          omega
        refine ih (labels.child here (by omega) below) deeper fun u p j label front => same u p j label ?_
        simpa using front

theorem Labelling.congr (labels : Labelling next entry depth lab)
    (same : ∀ u p j, lab u = some p → p.length + 1 < depth → entry' u j = entry u j) :
    Labelling next entry' depth lab :=
  ⟨labels.short, fun label within below => labels.child label within (same _ _ _ label within ▸ below)⟩

theorem reach_blank (blank : ∀ i, next (entry t i) = none) {path : List I} (deep : 2 ≤ path.length) :
    reach next entry t path = none := by
  match path, deep with
  | i :: j :: rest, _ => rw [reach, blank i]; rfl

section Grow

variable [DecidableEq T]

/-- A new table without children may be hung at a free place. -/
theorem Labelling.grow (labels : Labelling next entry depth lab) (here : lab t₀ = some p₀)
    (within : p₀.length + 1 < depth) (fresh : lab t₁ = none) (hung : next (entry' t₀ i₀) = some t₁)
    (blank : ∀ i, next (entry' t₁ i) = none)
    (same : ∀ u p j, lab u = some p → ¬(u = t₀ ∧ j = i₀) → entry' u j = entry u j) :
    Labelling next entry' depth (Function.update lab t₁ (some (p₀ ++ [i₀]))) := by
  constructor
  · intro t p label
    by_cases new : t = t₁
    · rw [new, Function.update_self, Option.some.injEq] at label
      rw [← label]
      simpa using within
    · rw [Function.update_of_ne new] at label
      exact labels.short label
  · intro t p i t' label deep below
    by_cases new : t = t₁
    · rw [new, blank] at below
      cases below
    · rw [Function.update_of_ne new] at label
      by_cases place : t = t₀ ∧ i = i₀
      · obtain ⟨rfl, rfl⟩ := place
        obtain rfl : t₁ = t' := Option.some.inj (hung.symm.trans below)
        obtain rfl : p = p₀ := Option.some.inj (label.symm.trans here)
        exact Function.update_self _ _ _
      · have old := labels.child label deep (same t p i label place ▸ below)
        have other : t' ≠ t₁ := fun new => by rw [new, fresh] at old; cases old
        rwa [Function.update_of_ne other]

/-- Hanging a new table changes no word that a lookup found, and opens no way to a further table. -/
theorem Labelling.reach_grow (labels : Labelling next entry depth lab) (here : lab t₀ = some p₀)
    (free : next (entry t₀ i₀) = none) (hung : next (entry' t₀ i₀) = some t₁)
    (same : ∀ u p j, lab u = some p → ¬(u = t₀ ∧ j = i₀) → entry' u j = entry u j) (label : lab t = some q)
    {path : List I} (within : q.length + path.length ≤ depth) (other : q ++ path ≠ p₀ ++ [i₀]) :
    reach next entry' t path = reach next entry t path ∨
      ∃ rest, q ++ path = p₀ ++ [i₀] ++ rest ∧ reach next entry t path = none ∧
        reach next entry' t path = reach next entry' t₁ rest := by
  induction path generalizing t q with
  | nil => exact Or.inl rfl
  | cons i rest ih =>
    cases rest with
    | nil =>
      have off : ¬(t = t₀ ∧ i = i₀) := by
        rintro ⟨rfl, rfl⟩
        obtain rfl : q = p₀ := Option.some.inj (label.symm.trans here)
        exact other rfl
      exact Or.inl (by rw [reach, reach, same t q i label off])
    | cons j rest =>
      rw [reach, reach]
      by_cases place : t = t₀ ∧ i = i₀
      · obtain ⟨rfl, rfl⟩ := place
        obtain rfl : q = p₀ := Option.some.inj (label.symm.trans here)
        exact Or.inr ⟨j :: rest, by simp, by rw [free]; rfl, by rw [hung]; rfl⟩
      · rw [same t q i label place]
        cases below : next (entry t i) with
        | none => exact Or.inl rfl
        | some t' =>
          simp only [List.length_cons] at within
          have shape : q ++ i :: j :: rest = q ++ [i] ++ j :: rest := by simp
          have deeper : (q ++ [i]).length + (j :: rest).length ≤ depth := by
            simp only [List.length_append, List.length_cons, List.length_nil]
            omega
          rw [shape] at other ⊢
          exact ih (labels.child label (by omega) below) deeper other

end Grow

end RadixTree
