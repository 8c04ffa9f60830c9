import FishOS.Mem.Walk
import Mathlib.Data.List.Induction

/-!
# The flat map

A pagemap that starts with a zero PML4 is a function on pages: an entry for a page is the
one of the last `map_page` for it, whatever tables were shared or added on the way.
-/

namespace FishOS.Mem

open RadixTree Pmm

structure MapPage where
  phy : Nat
  virt : Nat
  flags : Nat

structure MapPage.Legal (call : MapPage) : Prop where
  virt : call.virt < 2 ^ 64
  flags : call.flags < 2 ^ 64
  present : call.flags &&& pagePresent ≠ 0
  clear : call.flags &&& addressMask = 0

def mapAll (s : Phys) (pml4 : Nat) : List MapPage → Option Phys
  | [] => some s
  | call :: calls => do
    let s ← mapPage s pml4 call.phy call.virt call.flags
    mapAll s pml4 calls

/-- The abstract map: the most recent call for a page. -/
def latest (calls : List MapPage) (p : Nat) : Option MapPage := calls.reverse.find? fun call => page call.virt == p

/-- A PML4 of zeros in a frame that is in use. -/
structure ZeroPml4 (s : Phys) (pml4 : Nat) : Prop where
  aligned : pml4 % 0x1000 = 0
  taken : Taken s.pmm.bitmap (pml4 / 0x1000)
  zero : ∀ i, word s.m pml4 i = 0
  cursor : s.pmm.pageBitmapIndex ≤ s.pmm.bitmap.mSize
  size : s.pmm.bitmap.mSize ≤ 2 ^ 40

theorem latest_append (calls : List MapPage) (call : MapPage) (p : Nat) :
    latest (calls ++ [call]) p = if page call.virt = p then some call else latest calls p := by
  unfold latest
  rw [List.reverse_append, List.reverse_singleton, List.singleton_append, List.find?_cons]
  by_cases here : page call.virt = p
  · simp [here]
  · simp [here, beq_eq_false_iff_ne.mpr here]

theorem latest_mem {calls : List MapPage} {call : MapPage} {p : Nat} (found : latest calls p = some call) :
    call ∈ calls :=
  List.mem_reverse.mp (List.mem_of_find?_eq_some found)

theorem mapAll_append (s : Phys) (pml4 : Nat) (calls : List MapPage) (call : MapPage) :
    mapAll s pml4 (calls ++ [call]) = (mapAll s pml4 calls).bind fun s => mapPage s pml4 call.phy call.virt call.flags := by
  induction calls generalizing s with
  | nil =>
    exact Option.bind_fun_some _
  | cons first calls ih =>
    simp only [List.cons_append, mapAll, Option.bind_eq_bind, Option.bind_assoc]
    exact congrArg _ (funext fun s => ih s)

/-- After a run of calls an entry is the one of the latest call for its page, or the one from before. -/
theorem Tables.leaf_mapAll {s s' : Phys} {pml4 : Nat} {lab : Nat → Option (List (Fin 512))} (tables : Tables s lab)
    (top : lab pml4 = some []) {calls : List MapPage} (legal : ∀ call ∈ calls, call.Legal)
    (ran : mapAll s pml4 calls = some s') :
    (∃ lab, Tables s' lab ∧ lab pml4 = some []) ∧ ∀ v, leaf s'.m pml4 (path v) =
      ((latest calls (page v)).map fun call => leafWord call.phy call.flags).getD (leaf s.m pml4 (path v)) := by
  induction calls using List.reverseRecOn generalizing s' with
  | nil =>
    obtain rfl := Option.some.inj ran
    exact ⟨⟨lab, tables, top⟩, fun v => rfl⟩
  | append_singleton calls call ih =>
    rw [mapAll_append] at ran
    obtain ⟨s₁, ran, mapped⟩ := Option.bind_eq_some_iff.mp ran
    obtain ⟨⟨lab, tables, top⟩, entries⟩ :=
      ih (fun call member => legal call (List.mem_append_left _ member)) ran
    have ok := legal call (List.mem_append_right _ (List.mem_singleton_self _))
    obtain ⟨lab', step, stored⟩ := mapPage_step tables top mapped
    refine ⟨⟨lab', step.tables, step.keeps top⟩, ?_⟩
    intro v
    rw [latest_append]
    by_cases here : page call.virt = page v
    · rw [if_pos here, ← path_eq_iff.mpr here]
      rw [leaf_of_reach stored, Nat.mod_eq_of_lt (leafWord_lt ok.flags)]
      rfl
    · rw [if_neg here, ← entries v]
      refine step.leaf top rfl fun key member front => here ?_
      obtain rfl : key = path call.virt := member
      exact path_eq_iff.mp (front.eq_of_length rfl).symm

namespace ZeroPml4

variable {s s' : Phys} {pml4 : Nat}

theorem tables (start : ZeroPml4 s pml4) : Tables s fun t => if t = pml4 then some [] else none where
  labels :=
    { short := fun label => by
        split at label
        · rw [← Option.some.inj label]
          decide
        · cases label
      child := fun {t p i t'} label _ below => by
        split at label
        · rename_i root
          rw [root, start.zero, next_zero] at below
          cases below
        · exact nomatch label }
  aligned label := by
    split at label
    · rename_i root
      exact root ▸ start.aligned
    · cases label
  taken label := by
    split at label
    · rename_i root
      exact root ▸ start.taken
    · cases label
  cursor := start.cursor
  size := start.size

theorem leaf_mapAll (start : ZeroPml4 s pml4) {calls : List MapPage} (legal : ∀ call ∈ calls, call.Legal)
    (ran : mapAll s pml4 calls = some s') :
    (∃ lab, Tables s' lab ∧ lab pml4 = some []) ∧
      ∀ v, leaf s'.m pml4 (path v) = ((latest calls (page v)).map fun call => leafWord call.phy call.flags).getD 0 := by
  obtain ⟨well, entries⟩ := start.tables.leaf_mapAll (if_pos rfl) legal ran
  refine ⟨well, ?_⟩
  intro v
  rw [entries v, leaf_blank start.zero]

end ZeroPml4

theorem physicalAddr_step {s s' : Phys} {pml4 v result : Nat} {lab : Nat → Option (List (Fin 512))}
    (tables : Tables s lab) (top : lab pml4 = some []) (found : physicalAddr s pml4 v = some (s', result)) :
    result = leaf s.m pml4 (path v) &&& addressMask ∧
      ∀ w, leaf s'.m pml4 (path w) = leaf s.m pml4 (path w) := by
  unfold physicalAddr at found
  obtain ⟨⟨s₁, t⟩, walked, same⟩ := Option.bind_eq_some_iff.mp found
  obtain ⟨rfl, rfl⟩ := Prod.mk.inj (Option.some.inj same)
  obtain ⟨lab', step, way⟩ := lastTable_step tables top walked
  have kept : ∀ w, leaf s₁.m pml4 (path w) = leaf s.m pml4 (path w) := by
    intro w
    apply step.leaf top rfl
    intro key member front
    obtain rfl : key = tablePath v := member
    exact absurd front.length_le (by simp [path, tablePath])
  refine ⟨?_, kept⟩
  rw [← kept v, leaf_path way]
  rfl

theorem physicalAddr_mapped {s : Phys} {pml4 v : Nat} (mapped : leaf s.m pml4 (path v) ≠ 0) :
    physicalAddr s pml4 v = some (s, leaf s.m pml4 (path v) &&& addressMask) := by
  have shape : path v = tablePath v ++ [level v 12] := rfl
  cases way : follow next (word s.m) pml4 (tablePath v) with
  | none =>
    unfold leaf at mapped
    rw [shape, reach_snoc, way] at mapped
    exact absurd rfl mapped
  | some t =>
    unfold physicalAddr
    rw [leaf_path way, lastTable_of_follow way]
    rfl

/-- The four-level table refines the flat map, and pages do not disturb each other. -/
theorem mapAll_refines_latest {s s' : Phys} {pml4 : Nat} {calls : List MapPage} (start : ZeroPml4 s pml4)
    (legal : ∀ call ∈ calls, call.Legal) (ran : mapAll s pml4 calls = some s') :
    (∀ v call, latest calls (page v) = some call →
      physicalAddr s' pml4 v = some (s', call.phy &&& addressMask) ∧
        leaf s'.m pml4 (path v) &&& addressMask = call.phy &&& addressMask ∧
        leaf s'.m pml4 (path v) &&& flagsMask = call.flags) ∧
    (∀ v, latest calls (page v) = none → leaf s'.m pml4 (path v) = 0 ∧
      ∀ s'' result, physicalAddr s' pml4 v = some (s'', result) →
        result = 0 ∧ ∀ w, leaf s''.m pml4 (path w) = leaf s'.m pml4 (path w)) ∧
    (∀ (call : MapPage) (s'' : Phys), call.Legal → mapPage s' pml4 call.phy call.virt call.flags = some s'' →
      ∀ v, page v ≠ page call.virt → leaf s''.m pml4 (path v) = leaf s'.m pml4 (path v)) ∧
    ∀ v w, Canonical v → Canonical w → (page v = page w ↔ v / 0x1000 = w / 0x1000) := by
  obtain ⟨⟨lab, tables, top⟩, entries⟩ := start.leaf_mapAll legal ran
  refine ⟨?_, ?_, ?_, fun v w => page_eq_iff⟩
  · intro v call found
    have ok := legal call (latest_mem found)
    have entry : leaf s'.m pml4 (path v) = leafWord call.phy call.flags := by rw [entries, found]; rfl
    have walk := physicalAddr_mapped (entry ▸ leafWord_ne_zero ok.present)
    rw [entry, leafWord_address ok.clear] at walk
    rw [entry]
    exact ⟨walk, leafWord_address ok.clear, leafWord_flags ok.flags ok.clear⟩
  · intro v none
    have entry : leaf s'.m pml4 (path v) = 0 := by rw [entries, none]; rfl
    refine ⟨entry, ?_⟩
    intro s'' result found
    obtain ⟨read, kept⟩ := physicalAddr_step tables top found
    exact ⟨by rw [read, entry, Nat.zero_and], kept⟩
  · intro call s'' ok mapped v other
    have ran' : mapAll s pml4 (calls ++ [call]) = some s'' :=
      by rw [mapAll_append, ran, Option.bind_some, mapped]
    have legal' : ∀ c ∈ calls ++ [call], c.Legal := fun c member =>
      (List.mem_append.mp member).elim (legal c) fun last => List.mem_singleton.mp last ▸ ok
    rw [(start.leaf_mapAll legal' ran').2 v, entries v, latest_append, if_neg other.symm]

def smallPhys : Phys where
  m := fun _ => 0
  pmm := { bitmap := { mBuffer := fun i => if i = 0 then 3 else 0, mSize := 16 }, pageBitmapIndex := 0, totalAllocated := 0 }

theorem smallPhys_zeroPml4 : ZeroPml4 smallPhys 0x1000 where
  aligned := by decide
  taken := Or.inl (by decide)
  zero := fun _ => Mem.read64_blank _
  cursor := by decide
  size := by decide

theorem mapAll_refines_latest_remapped :
    ∃ s', mapAll smallPhys 0x1000 [⟨0x5000, 0x400000, 5⟩, ⟨0x6123, 0x400fff, 7⟩] = some s' ∧
      physicalAddr s' 0x1000 0x400800 = some (s', 0x6000) := by
  have returns : (mapAll smallPhys 0x1000 [⟨0x5000, 0x400000, 5⟩, ⟨0x6123, 0x400fff, 7⟩]).isSome :=
    by decide +kernel
  obtain ⟨s', ran⟩ := Option.isSome_iff_exists.mp returns
  have legal : ∀ call ∈ [(⟨0x5000, 0x400000, 5⟩ : MapPage), ⟨0x6123, 0x400fff, 7⟩], call.Legal := by
    simp only [List.mem_cons, List.not_mem_nil, or_false, forall_eq_or_imp, forall_eq]
    exact ⟨⟨by decide, by decide, by decide, by decide⟩, ⟨by decide, by decide, by decide, by decide⟩⟩
  exact ⟨s', ran, ((mapAll_refines_latest smallPhys_zeroPml4 legal ran).1 0x400800 ⟨0x6123, 0x400fff, 7⟩ rfl).1⟩

end FishOS.Mem
