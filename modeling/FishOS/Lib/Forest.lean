import FishOS.Lib.RadixTree
import Mathlib.Data.List.Induction
import Mathlib.Data.Set.Basic

/-!
# Forests of tables

Several roots share one labelling. At the places of a set no two tables of one label have a
child in common, so a table that hangs there hangs below one root only, and a change below
one root is not seen from another.
-/

namespace RadixTree

variable {T I W : Type} {next : W → Option T} {entry entry₁ entry' : T → I → W} {depth : Nat}
  {lab lab₁ lab' : T → Option (List I)} {places : Set (List I)} {root other t t₀ t₁ u : T} {path q p₀ : List I} {i₀ : I}

/-- With a place, all places on the way to it. -/
def Closed (places : Set (List I)) : Prop := ∀ {q q'}, q <+: q' → q' ∈ places → q ∈ places

structure Unshared (next : W → Option T) (entry : T → I → W) (depth : Nat) (lab : T → Option (List I))
    (places : Set (List I)) : Prop where
  parent : ∀ {t t' p i c}, lab t = some p → lab t' = some p → p.length + 1 < depth → p ++ [i] ∈ places →
    next (entry t i) = some c → next (entry t' i) = some c → t = t'

/-- A change of tables below one root, where old tables get no new parents. -/
structure Below (next : W → Option T) (depth : Nat) (places : Set (List I)) (root : T) (entry : T → I → W)
    (lab : T → Option (List I)) (entry' : T → I → W) (lab' : T → Option (List I)) : Prop where
  word : ∀ {u q i}, lab u = some q → q ++ [i] ∈ places → follow next entry root q ≠ some u → entry' u i = entry u i
  link : ∀ {u q i c}, lab' u = some q → q.length + 1 < depth → q ++ [i] ∈ places → next (entry' u i) = some c →
    lab c ≠ none → lab u = some q ∧ next (entry u i) = some c

theorem reach_congr_of_follow (same : ∀ p u j, follow next entry t p = some u → p ++ [j] <+: path →
    entry' u j = entry u j) :
    reach next entry' t path = reach next entry t path := by
  induction path generalizing t with
  | nil => rfl
  | cons i rest ih =>
    have first : entry' t i = entry t i := same [] t i rfl ⟨rest, rfl⟩
    cases rest with
    | nil => rw [reach, reach, first]
    | cons j rest =>
      rw [reach, reach, first]
      cases below : next (entry t i) with
      | none => rfl
      | some t' =>
        apply ih
        intro p u k way front
        apply same (i :: p) u k
        · rw [follow, below]
          exact way
        · obtain ⟨more, whole⟩ := front
          exact ⟨more, by rw [← whole]; rfl⟩

/-- A table that hangs at a place hangs below one root only. -/
theorem Unshared.root_eq (unshared : Unshared next entry depth lab places) (closed : Closed places)
    (labels : Labelling next entry depth lab) (top : lab root = some []) (topOther : lab other = some [])
    (short : path.length < depth) (place : path ∈ places) (way : follow next entry root path = some t)
    (wayOther : follow next entry other path = some t) : root = other := by
  induction path using List.reverseRecOn generalizing t with
  | nil => exact Option.some.inj (way.trans wayOther.symm)
  | append_singleton front i ih =>
    rw [List.length_append, List.length_singleton] at short
    rw [follow_snoc] at way wayOther
    obtain ⟨u, above, below⟩ := Option.bind_eq_some_iff.mp way
    obtain ⟨v, aboveOther, belowOther⟩ := Option.bind_eq_some_iff.mp wayOther
    have inner : ([] : List I).length + front.length < depth := by
      rw [List.length_nil]
      omega
    have labelled := labels.follow_label top inner above
    have labelledOther := labels.follow_label topOther inner aboveOther
    obtain rfl := unshared.parent labelled labelledOther short place below belowOther
    exact ih (by omega) (closed (List.prefix_append front [i]) place) above aboveOther

theorem Unshared.congr (unshared : Unshared next entry depth lab places)
    (same : ∀ {u p j}, lab u = some p → p.length + 1 < depth → entry' u j = entry u j) :
    Unshared next entry' depth lab places := by
  constructor
  intro t t' p i c label label' short place below below'
  rw [same label short] at below
  rw [same label' short] at below'
  exact unshared.parent label label' short place below below'

namespace Below

theorem of_same (same : ∀ {u q j}, lab u = some q → entry' u j = entry u j)
    (labels : ∀ {u q}, lab' u = some q → lab u = some q) : Below next depth places root entry lab entry' lab' where
  word label _ _ := same label
  link label _ _ below _ := ⟨labels label, same (labels label) ▸ below⟩

/-- What hangs below the root after the change and is old hung there before. -/
theorem follow_back (change : Below next depth places root entry lab entry' lab') (closed : Closed places)
    (labels : Labelling next entry' depth lab') (top : lab' root = some []) (short : path.length < depth)
    (place : path ∈ places) (way : follow next entry' root path = some u) (old : lab u ≠ none) :
    follow next entry root path = some u := by
  induction path using List.reverseRecOn generalizing u with
  | nil => exact way
  | append_singleton front i ih =>
    rw [List.length_append, List.length_singleton] at short
    rw [follow_snoc] at way ⊢
    obtain ⟨v, above, below⟩ := Option.bind_eq_some_iff.mp way
    have inner : ([] : List I).length + front.length < depth := by
      rw [List.length_nil]
      omega
    have label := labels.follow_label top inner above
    obtain ⟨before, link⟩ := change.link label short place below old
    have known : lab v ≠ none := by
      rw [before]
      exact Option.some_ne_none _
    rw [ih (by omega) (closed (List.prefix_append front [i]) place) above known]
    exact link

theorem trans (first : Below next depth places root entry lab entry₁ lab₁)
    (second : Below next depth places root entry₁ lab₁ entry' lab') (closed : Closed places)
    (labels : Labelling next entry₁ depth lab₁) (top : lab₁ root = some [])
    (keeps : ∀ {t p}, lab t = some p → lab₁ t = some p) :
    Below next depth places root entry lab entry' lab' where
  word label place apart := by
    have later := keeps label
    rw [second.word later place, first.word label place apart]
    intro way
    apply apart
    apply first.follow_back closed labels top (labels.short later) (closed (List.prefix_append _ _) place) way
    rw [label]
    exact Option.some_ne_none _
  link {u q i c} label short place below old := by
    obtain ⟨p, label'⟩ := Option.ne_none_iff_exists'.mp old
    have known : lab₁ c ≠ none := by
      rw [keeps label']
      exact Option.some_ne_none _
    obtain ⟨before, link⟩ := second.link label short place below known
    exact first.link before short place link old

/-- A lookup from another root is not disturbed. -/
theorem reach (change : Below next depth places root entry lab entry' lab') (closed : Closed places)
    (unshared : Unshared next entry depth lab places) (labels : Labelling next entry depth lab)
    (top : lab root = some []) (topOther : lab other = some []) (apart : root ≠ other) (place : path ∈ places)
    (short : path.length ≤ depth) :
    reach next entry' other path = reach next entry other path := by
  apply reach_congr_of_follow
  intro p u j way front
  have length := front.length_le
  rw [List.length_append, List.length_singleton] at length
  have here := closed front place
  have inner : ([] : List I).length + p.length < depth := by
    rw [List.length_nil]
    omega
  apply change.word (labels.follow_label topOther inner way) here
  intro way'
  exact apart (unshared.root_eq closed labels top topOther (by omega) (closed (List.prefix_append p [j]) here) way' way)

/-- A change of words that lead to no table. -/
theorem set (way : follow next entry root p₀ = some t₀) (label : lab t₀ = some p₀) (deep : depth ≤ p₀.length + 1)
    (same : ∀ {u q j}, lab u = some q → u ≠ t₀ → entry' u j = entry u j) :
    Below next depth places root entry lab entry' lab where
  word here _ apart := by
    apply same here
    rintro rfl
    obtain rfl := Option.some.inj (label.symm.trans here)
    exact apart way
  link {u q i c} here short _ below _ := by
    refine ⟨here, ?_⟩
    rwa [same here] at below
    rintro rfl
    obtain rfl := Option.some.inj (label.symm.trans here)
    omega

end Below

section Hang

variable [DecidableEq T]

theorem Unshared.hang (unshared : Unshared next entry depth lab places) (labels : Labelling next entry depth lab)
    (fresh : lab t₁ = none) (hung : next (entry' t₀ i₀) = some t₁) (blank : ∀ i, next (entry' t₁ i) = none)
    (same : ∀ {u p j}, lab u = some p → ¬(u = t₀ ∧ j = i₀) → entry' u j = entry u j) :
    Unshared next entry' depth (Function.update lab t₁ (some (p₀ ++ [i₀]))) places := by
  have old : ∀ {u p i c}, Function.update lab t₁ (some (p₀ ++ [i₀])) u = some p → next (entry' u i) = some c →
      lab u = some p := by
    intro u p i c label below
    rwa [Function.update_of_ne] at label
    rintro rfl
    rw [blank] at below
    cases below
  -- the only way to the new table is the new word
  have only : ∀ {u p i}, lab u = some p → p.length + 1 < depth → next (entry' u i) = some t₁ → u = t₀ ∧ i = i₀ := by
    intro u p i label short below
    by_contra place
    rw [same label place] at below
    have child := labels.child label short below
    rw [fresh] at child
    cases child
  constructor
  intro t t' p i c label label' short place below below'
  have before := old label below
  have before' := old label' below'
  by_cases new : c = t₁
  · subst new
    exact (only before short below).1.trans (only before' short below').1.symm
  · have away : ∀ {u}, next (entry' u i) = some c → ¬(u = t₀ ∧ i = i₀) := by
      rintro u below ⟨rfl, rfl⟩
      exact new (Option.some.inj (below.symm.trans hung))
    rw [same before (away below)] at below
    rw [same before' (away below')] at below'
    exact unshared.parent before before' short place below below'

theorem Below.hang (way : follow next entry root p₀ = some t₀) (label : lab t₀ = some p₀) (fresh : lab t₁ = none)
    (hung : next (entry' t₀ i₀) = some t₁) (blank : ∀ i, next (entry' t₁ i) = none)
    (same : ∀ {u p j}, lab u = some p → ¬(u = t₀ ∧ j = i₀) → entry' u j = entry u j) :
    Below next depth places root entry lab entry' (Function.update lab t₁ (some (p₀ ++ [i₀]))) where
  word here _ apart := by
    apply same here
    rintro ⟨rfl, -⟩
    obtain rfl := Option.some.inj (label.symm.trans here)
    exact apart way
  link {u q i c} here short _ below old := by
    have before : lab u = some q := by
      rwa [Function.update_of_ne] at here
      rintro rfl
      rw [blank] at below
      cases below
    refine ⟨before, ?_⟩
    rwa [same before] at below
    rintro ⟨rfl, rfl⟩
    obtain rfl := Option.some.inj (below.symm.trans hung)
    exact old fresh

end Hang

end RadixTree
