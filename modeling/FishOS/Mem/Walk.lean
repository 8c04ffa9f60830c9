import FishOS.Mem.Tables

/-!
# Walking down

What the walks of `mem::vmm` do to the tables. A walk for a page changes entries on the way
to that page only, and adds tables only where an entry was not present.
-/

namespace FishOS.Mem

open RadixTree Pmm

variable {s s₁ s' : Phys} {lab lab' : Nat → Option (List (Fin 512))} {K : Set (List (Fin 512))} {t t' root : Nat}
  {p : List (Fin 512)} {i : Fin 512}

theorem pageTableNextLevel_present (below : next (word s.m t i) = some t') :
    pageTableNextLevel s t i = some (s, t') := by
  unfold next word at below
  unfold pageTableNextLevel
  split at below
  · rename_i present
    rw [if_pos present, Option.some.inj below]
  · cases below

theorem pageTableNextLevel_absent (free : next (word s.m t i) = none)
    (found : pageTableNextLevel s t i = some (s', t')) :
    ∃ s₁, s.allocZeroed = some (s₁, t') ∧
      s' = { s₁ with m := setEntry s₁.m t i (t' ||| pagePresent ||| pageWritable ||| pageUser) } := by
  unfold next word at free
  unfold pageTableNextLevel at found
  split at free
  · cases free
  · rename_i absent
    rw [if_neg absent] at found
    obtain ⟨⟨s₁, new_page⟩, allocated, same⟩ := Option.bind_eq_some_iff.mp found
    obtain ⟨rfl, rfl⟩ := Prod.mk.inj (Option.some.inj same)
    exact ⟨s₁, allocated, rfl⟩

theorem leaf_blank {m : Mem} (blank : ∀ j, word m t j = 0) (path : List (Fin 512)) : leaf m t path = 0 := by
  unfold leaf
  match path with
  | [] => rfl
  | [j] => exact blank j
  | j :: k :: rest => rw [reach_blank (fun j => (blank j).symm ▸ next_zero) (by simp)]; rfl

theorem Tables.hang (tables : Tables s lab) (here : lab t = some p) (short : p.length < 3)
    (free : next (word s.m t i) = none) (allocated : s.allocZeroed = some (s₁, t'))
    (same : s' = { s₁ with m := setEntry s₁.m t i (t' ||| pagePresent ||| pageWritable ||| pageUser) }) :
    ∃ lab', Step {p ++ [i]} s lab s' lab' ∧ lab' t' = some (p ++ [i]) ∧ next (word s'.m t i) = some t' := by
  obtain ⟨handed, step, cleared⟩ := allocZeroed_step (K := ∅) tables allocated
  have unlabelled := handed.unlabelled tables
  have other : ∀ {u q}, lab u = some q → u ≠ t' := by
    intro u q label same
    rw [same, unlabelled] at label
    cases label
  have words : ∀ {u} j, u % 0x1000 = 0 → word s'.m u j =
      if u = t ∧ j = i then t' ||| pagePresent ||| pageWritable ||| pageUser else word s₁.m u j := by
    intro u j aligned
    rw [same, word_setEntry s₁.m _ i j (tables.aligned here) aligned, Nat.mod_eq_of_lt (table_lt handed.bounded)]
  have hung : next (word s'.m t i) = some t' := by
    rw [words i (tables.aligned here), if_pos ⟨rfl, rfl⟩, next_table handed.aligned handed.bounded]
  have blank : ∀ j, word s'.m t' j = 0 := by
    intro j
    rw [words j handed.aligned, if_neg fun place => other here place.1.symm, cleared, word_memset_self]
  have off : ∀ u q j, lab u = some q → ¬(u = t ∧ j = i) → word s'.m u j = word s.m u j := by
    intro u q j label place
    rw [words j (tables.aligned label), if_neg place, step.only label fun _ absurd => nomatch absurd]
  have pmm : s'.pmm = s₁.pmm := by rw [same]
  refine ⟨Function.update lab t' (some (p ++ [i])), ?_, Function.update_self _ _ _, hung⟩
  have split : ∀ {u q}, Function.update lab t' (some (p ++ [i])) u = some q → u = t' ∨ lab u = some q := by
    intro u q label
    by_cases new : u = t'
    · exact Or.inl new
    · exact Or.inr (by rwa [Function.update_of_ne new] at label)
  exact
    { tables :=
        { labels := tables.labels.grow here (by omega) unlabelled hung (fun j => (blank j).symm ▸ next_zero) off
          aligned := fun label => (split label).elim (fun new => new ▸ handed.aligned) tables.aligned
          taken := fun label => pmm ▸ (split label).elim (fun new => new ▸ handed.taken) step.tables.taken
          cursor := pmm ▸ step.tables.cursor
          size := pmm ▸ step.tables.size }
      grows := pmm ▸ step.grows
      keeps := fun label => by rwa [Function.update_of_ne (other label)]
      fresh := fun label => (split label).elim (fun new => Or.inr (new ▸ handed.free)) Or.inl
      held := fun {u q j t''} label _ below => by
        apply off u q j label
        intro place
        rw [place.1, place.2, free] at below
        cases below
      only := fun {u q j} label away => by
        apply off u q j label
        rintro ⟨rfl, rfl⟩
        obtain rfl : p = q := Option.some.inj (here.symm.trans label)
        exact away _ rfl List.prefix_rfl
      leaf := fun {u q rest} label length _ => by
        have other : q ++ rest ≠ p ++ [i] := by
          intro same
          have lengths := congrArg List.length same
          simp only [List.length_append, List.length_cons, List.length_nil] at lengths
          omega
        unfold FishOS.Mem.leaf
        rcases tables.labels.reach_grow here free hung off label (Nat.le_of_eq length) other with
          same | ⟨rest', -, none, same⟩
        · rw [same]
        · rw [same, none]
          exact leaf_blank blank rest'
      data := fun {f x} data lower upper => by
        have table := data.ne here
        have aligned := data.aligned
        have tAligned := tables.aligned here
        rw [same]
        exact (setEntry_other _ _ (by omega)).trans (step.data data lower upper) }

theorem pageTableNextLevel_step (tables : Tables s lab) (here : lab t = some p) (short : p.length < 3)
    (found : pageTableNextLevel s t i = some (s', t')) :
    ∃ lab', Step {p ++ [i]} s lab s' lab' ∧ lab' t' = some (p ++ [i]) ∧ next (word s'.m t i) = some t' := by
  cases below : next (word s.m t i) with
  | none =>
    obtain ⟨s₁, allocated, same⟩ := pageTableNextLevel_absent below found
    exact tables.hang here short below allocated same
  | some u =>
    rw [pageTableNextLevel_present below] at found
    obtain ⟨rfl, rfl⟩ := Prod.mk.inj (Option.some.inj found)
    exact ⟨lab, .refl tables, tables.labels.child here (by omega) below, below⟩

theorem Step.follow (step : Step K s lab s' lab') (tables : Tables s lab) (top : lab root = some [])
    {front : List (Fin 512)} (short : front.length < 4) (way : follow next (word s.m) root front = some t) :
    follow next (word s'.m) root front = some t :=
  tables.labels.follow_held top (by simpa using short) way fun label inner below => step.held label (by omega) below

theorem lastTable_step {virt : Nat} (tables : Tables s lab) (top : lab root = some [])
    (found : lastTable s root virt = some (s', t)) :
    ∃ lab', Step {tablePath virt} s lab s' lab' ∧ follow next (word s'.m) root (tablePath virt) = some t := by
  unfold lastTable at found
  obtain ⟨⟨s₁, t₁⟩, found₁, found⟩ := Option.bind_eq_some_iff.mp found
  obtain ⟨⟨s₂, t₂⟩, found₂, found₃⟩ := Option.bind_eq_some_iff.mp found
  obtain ⟨lab₁, step₁, label₁, below₁⟩ :=
    pageTableNextLevel_step (i := level virt 39) tables top (by decide) found₁
  obtain ⟨lab₂, step₂, label₂, below₂⟩ :=
    pageTableNextLevel_step (i := level virt 30) step₁.tables label₁ (by simp) found₂
  obtain ⟨lab₃, step₃, -, below₃⟩ :=
    pageTableNextLevel_step (i := level virt 21) step₂.tables label₂ (by simp) found₃
  have within : ∀ front, front <+: tablePath virt → ∀ key ∈ ({front} : Set (List (Fin 512))),
      ∃ key' ∈ ({tablePath virt} : Set (List (Fin 512))), key <+: key' :=
    fun front prefixed key member => ⟨_, rfl, member ▸ prefixed⟩
  have step₁₂ := (step₁.mono (within _ ⟨[_, _], rfl⟩)).trans (step₂.mono (within _ ⟨[_], rfl⟩))
  have top₁ := step₁.keeps top
  have top₂ := step₂.keeps top₁
  have way₁ : follow next (word s₁.m) root ([] ++ [level virt 39]) = some t₁ := by
    rw [follow_snoc, RadixTree.follow, Option.bind_some, below₁]
  have way₂ : follow next (word s₂.m) root ([] ++ [level virt 39] ++ [level virt 30]) = some t₂ := by
    rw [follow_snoc, step₂.follow step₁.tables top₁ (by simp) way₁, Option.bind_some, below₂]
  have way₃ : follow next (word s'.m) root ([] ++ [level virt 39] ++ [level virt 30] ++ [level virt 21]) = some t := by
    rw [follow_snoc, step₃.follow step₂.tables top₂ (by simp) way₂, Option.bind_some, below₃]
  exact ⟨lab₃, step₁₂.trans step₃, way₃⟩

theorem lastTable_of_follow {virt : Nat} (way : follow next (word s.m) root (tablePath virt) = some t) :
    lastTable s root virt = some (s, t) := by
  unfold tablePath at way
  simp only [follow] at way
  obtain ⟨t₁, below₁, way⟩ := Option.bind_eq_some_iff.mp way
  obtain ⟨t₂, below₂, way⟩ := Option.bind_eq_some_iff.mp way
  obtain ⟨t₃, below₃, last⟩ := Option.bind_eq_some_iff.mp way
  obtain rfl := Option.some.inj last
  have first := pageTableNextLevel_present below₁
  have second := pageTableNextLevel_present below₂
  have third := pageTableNextLevel_present below₃
  unfold lastTable
  exact Option.bind_eq_some_iff.mpr ⟨_, first, Option.bind_eq_some_iff.mpr ⟨_, second, third⟩⟩

theorem reach_path {m : Mem} {virt : Nat} (way : follow next (word m) root (tablePath virt) = some t) :
    reach next (word m) root (path virt) = some (word m t (level virt 12)) := by
  have shape : path virt = tablePath virt ++ [level virt 12] := rfl
  rw [shape, reach_snoc, way]
  rfl

theorem leaf_of_reach {m : Mem} {q : List (Fin 512)} {w : Nat} (found : reach next (word m) root q = some w) :
    leaf m root q = w := by
  unfold leaf
  rw [found, Option.getD_some]

theorem leaf_path {m : Mem} {virt : Nat} (way : follow next (word m) root (tablePath virt) = some t) :
    leaf m root (path virt) = word m t (level virt 12) := leaf_of_reach (reach_path way)

theorem Tables.setLeaf {virt v : Nat} (tables : Tables s lab) (top : lab root = some [])
    (way : follow next (word s.m) root (tablePath virt) = some t) :
    Step {path virt} s lab { s with m := setEntry s.m t (level virt 12) v } lab ∧
      reach next (word (setEntry s.m t (level virt 12) v)) root (path virt) = some (v % 2 ^ 64) := by
  have here : lab t = some (tablePath virt) := tables.labels.follow_label top (by simp) way
  have words : ∀ {u q} j, lab u = some q → word (setEntry s.m t (level virt 12) v) u j =
      if u = t ∧ j = level virt 12 then v % 2 ^ 64 else word s.m u j := fun j label =>
    word_setEntry s.m v _ j (tables.aligned here) (tables.aligned label)
  have place : ∀ {u q j}, lab u = some q → u = t ∧ j = level virt 12 → q ++ [j] = path virt := by
    rintro u q j label ⟨rfl, rfl⟩
    rw [← Option.some.inj (here.symm.trans label)]
    rfl
  have inner : ∀ {u q j}, lab u = some q → q.length + 1 < 4 →
      word (setEntry s.m t (level virt 12) v) u j = word s.m u j := by
    intro u q j label short
    rw [words j label, if_neg]
    intro same
    have lengths := congrArg List.length (place label same)
    simp only [path, List.length_append, List.length_cons, List.length_nil] at lengths
    omega
  have step : Step {path virt} s lab { s with m := setEntry s.m t (level virt 12) v } lab :=
    { tables :=
        { labels := tables.labels.congr fun u q j label short => inner label short
          aligned := tables.aligned
          taken := tables.taken
          cursor := tables.cursor
          size := tables.size }
      grows := .refl _
      keeps := id
      fresh := Or.inl
      held := fun label short _ => inner label (by omega)
      only := fun {u q j} label away => by
        rw [words j label, if_neg]
        exact fun same => away _ rfl (place label same ▸ List.prefix_rfl)
      leaf := fun {u q rest} label length away => by
        unfold FishOS.Mem.leaf
        rw [tables.labels.reach_congr label (Nat.le_of_eq length)]
        intro u' q' j label' front
        rw [words j label', if_neg]
        intro same
        rw [place label' same] at front
        have whole := front.eq_of_length (by simpa [path] using length.symm)
        exact away _ rfl (whole ▸ List.prefix_rfl)
      data := by
        intro f x data lower upper
        have table := data.ne here
        have aligned := data.aligned
        have tAligned := tables.aligned here
        exact setEntry_other s.m _ (by omega) }
  refine ⟨step, ?_⟩
  rw [reach_path (step.follow tables top (by simp [tablePath]) way), words _ here, if_pos ⟨rfl, rfl⟩]

theorem tablePath_begins (virt : Nat) : ∀ key ∈ ({tablePath virt} : Set (List (Fin 512))),
    ∃ key' ∈ ({path virt} : Set (List (Fin 512))), key <+: key' :=
  fun _ member => ⟨_, rfl, member ▸ ⟨[level virt 12], rfl⟩⟩

theorem mapPage_step {phy virt flags : Nat} (tables : Tables s lab) (top : lab root = some [])
    (mapped : mapPage s root phy virt flags = some s') :
    ∃ lab', Step {path virt} s lab s' lab' ∧
      reach next (word s'.m) root (path virt) = some (leafWord phy flags % 2 ^ 64) := by
  unfold mapPage at mapped
  obtain ⟨⟨s₁, t⟩, found, same⟩ := Option.bind_eq_some_iff.mp mapped
  obtain rfl := Option.some.inj same
  obtain ⟨lab₁, step, way⟩ := lastTable_step tables top found
  obtain ⟨set, word⟩ := step.tables.setLeaf (v := leafWord phy flags) (step.keeps top) way
  exact ⟨lab₁, (step.mono (tablePath_begins virt)).trans set, word⟩

end FishOS.Mem
