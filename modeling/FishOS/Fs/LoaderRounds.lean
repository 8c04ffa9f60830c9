import FishOS.Fs.Unpack
import Mathlib.Logic.Relation

/-!
# The headers that the loader gets to

One round of the loop of `load_into`, and whether the loop ends. The memory is whatever lies at and
behind the module: the module alone, or also what follows it.
-/

namespace FishOS.Fs

open Klib Initramfs

namespace Initramfs

/-- The round of `load` for the header at `current`, and where the next header is. -/
def round (dir : Nat) (m : Nat → Option UInt8) (fresh : Nat → Nat → UInt8) (stop current : Nat) (v : Vfs) :
    Except LoadFault (Vfs × Option Nat) := do
  let found ← deref (readBytes m (current + magicField) 6)
  if found ≠ magic then .ok (v, none)
  else
    let size ← deref (octalToBin m (current + sizeField) 12)
    let name ← deref (stringAt m (2 ^ 64 - current) current)
    let v ← loadEntry v dir m (fresh current) current size name
    let next := (current + headerSize + alignUp size) % 2 ^ 64
    if next ≥ stop then .ok (v, none) else .ok (v, some next)

/-- From one header and tree to the next. -/
def Goes (dir : Nat) (m : Nat → Option UInt8) (fresh : Nat → Nat → UInt8) (stop : Nat) (s s' : Nat × Vfs) : Prop :=
  round dir m fresh stop s.1 s.2 = .ok (s'.2, some s'.1)

/-- The headers that the loader gets to from the first one, with the trees that it has then. -/
def Reaches (dir : Nat) (m : Nat → Option UInt8) (fresh : Nat → Nat → UInt8) (stop file_addr : Nat) (v : Vfs) :
    Nat × Vfs → Prop := Relation.ReflTransGen (Goes dir m fresh stop) (file_addr, v)

/-- The loop ends, as every header lies behind the one before. -/
structure LoaderEnds (dir : Nat) (m : Nat → Option UInt8) (fresh : Nat → Nat → UInt8) (stop file_addr : Nat)
    (v : Vfs) : Prop where
  ends : ∃ fuel, load dir m fresh stop fuel file_addr v ≠ .error .unfinished
  increases : ∀ s s', Reaches dir m fresh stop file_addr v s → Goes dir m fresh stop s s' → s.1 < s'.1

variable {dir stop current file_addr fuel next : Nat} {m : Nat → Option UInt8} {fresh : Nat → Nat → UInt8}
  {v v' : Vfs}

theorem load_succ (dir : Nat) (m : Nat → Option UInt8) (fresh : Nat → Nat → UInt8) (stop fuel current : Nat) (v : Vfs) :
    load dir m fresh stop (fuel + 1) current v = (round dir m fresh stop current v).bind fun r =>
      r.2.elim (.ok r.1) fun next => load dir m fresh stop fuel next r.1 := by
  rw [load, round]
  cases readBytes m (current + magicField) 6 with
  | none => rfl
  | some found =>
    rw [deref_some_bind, deref_some_bind]
    by_cases other : found ≠ magic
    · rw [if_pos other, if_pos other]
      rfl
    · rw [if_neg other, if_neg other]
      cases octalToBin m (current + sizeField) 12 with
      | none => rfl
      | some size =>
        rw [deref_some_bind, deref_some_bind]
        cases stringAt m (2 ^ 64 - current) current with
        | none => rfl
        | some name =>
          rw [deref_some_bind, deref_some_bind]
          cases loadEntry v dir m (fresh current) current size name with
          | error fault => rfl
          | ok v =>
            rw [Except.ok_bind, Except.ok_bind]
            dsimp only
            split <;> rfl

theorem round_next (ran : round dir m fresh stop current v = .ok (v', some next)) :
    ∃ size, octalToBin m (current + sizeField) 12 = some size ∧
      next = (current + headerSize + alignUp size) % 2 ^ 64 := by
  obtain ⟨found, _, ran⟩ := deref_bind_ok ran
  split at ran
  · cases ran
  · obtain ⟨size, octal, ran⟩ := deref_bind_ok ran
    obtain ⟨name, _, ran⟩ := deref_bind_ok ran
    obtain ⟨v₁, _, ran⟩ := Except.bind_ok ran
    dsimp only at ran
    split at ran
    · cases ran
    · obtain ⟨-, same⟩ := Prod.mk.inj (Except.ok.inj ran)
      exact ⟨size, octal, (Option.some.inj same).symm⟩

section Faults

/-! A round ends. -/

theorem deref_ne_unfinished {α : Type} (o : Option α) : deref o ≠ .error .unfinished := by
  cases o with
  | none => exact nofun
  | some a => exact nofun

theorem createIn_ne_unfinished (parent : Option Nat) (basename : CString) (type : NodeType) :
    createIn v dir parent basename type ≠ .error .unfinished :=
  Except.bind_ne_error (deref_ne_unfinished _) fun _ =>
    Except.bind_ne_error (deref_ne_unfinished _) fun _ => deref_ne_unfinished _

theorem createNode_ne_unfinished (block : Nat → UInt8) (size : Nat) (parent : Option Nat) (basename : CString) :
    createNode v dir m block current size parent basename ≠ .error .unfinished := by
  refine Except.bind_ne_error (deref_ne_unfinished _) fun typeflag => ?_
  split
  · exact Except.bind_ne_error (createIn_ne_unfinished _ _ _) fun _ =>
      Except.bind_ne_error (deref_ne_unfinished _) fun _ => Except.bind_ne_error (deref_ne_unfinished _) fun _ => nofun
  · split
    · exact Except.bind_ne_error (createIn_ne_unfinished _ _ _) fun _ => nofun
    · exact nofun

theorem loadEntry_ne_unfinished (block : Nat → UInt8) (size : Nat) (name : List UInt8) :
    loadEntry v dir m block current size name ≠ .error .unfinished := by
  unfold loadEntry
  split
  · refine Except.bind_ne_error (deref_ne_unfinished _) fun result => ?_
    split
    · exact nofun
    · split
      · exact nofun
      · exact createNode_ne_unfinished _ _ _ _
  · exact nofun

theorem round_ne_unfinished (dir : Nat) (m : Nat → Option UInt8) (fresh : Nat → Nat → UInt8) (stop current : Nat)
    (v : Vfs) : round dir m fresh stop current v ≠ .error .unfinished := by
  refine Except.bind_ne_error (deref_ne_unfinished _) fun found => ?_
  split
  · exact nofun
  · refine Except.bind_ne_error (deref_ne_unfinished _) fun size => Except.bind_ne_error (deref_ne_unfinished _) fun name =>
      Except.bind_ne_error (loadEntry_ne_unfinished _ _ _) fun v => ?_
    dsimp only
    split
    · exact nofun
    · exact nofun

end Faults

theorem alignUp_le {size : Nat} (word : size < 2 ^ 64) : alignUp size ≤ 2 ^ 64 - 512 := by
  unfold alignUp
  split
  · omega
  · omega

/-- The next header lies behind this one, unless the sum of the position and the sizes wraps. -/
theorem next_lt_iff {size : Nat} (word : size < 2 ^ 64) (below : current < 2 ^ 64) :
    current < (current + headerSize + alignUp size) % 2 ^ 64 ↔ current + headerSize + alignUp size < 2 ^ 64 := by
  have aligned := alignUp_le word
  unfold headerSize
  omega

theorem octalToBin_lt {str len size : Nat} (octal : octalToBin m str len = some size) : size < 2 ^ 64 := by
  have loop : ∀ (len str value : Nat), value < 2 ^ 64 → ∀ size, octalLoop m str value len = some size → size < 2 ^ 64 := by
    intro len
    induction len with
    | zero =>
      intro str value small size octal
      obtain ⟨_, _, rfl⟩ := Option.map_eq_some_iff.mp octal
      exact small
    | succ len ih =>
      intro str value small size octal
      obtain ⟨c, _, octal⟩ := Option.bind_eq_some_iff.mp octal
      split at octal
      · refine ih _ _ ?_ size octal
        unfold octalDigit
        omega
      · obtain rfl := Option.some.inj octal
        exact small
  exact loop len str 0 (by decide) size octal

variable {s : Nat × Vfs}

theorem Reaches.below (reached : Reaches dir m fresh stop file_addr v s) (below : file_addr < 2 ^ 64) : s.1 < 2 ^ 64 := by
  cases reached with
  | refl => exact below
  | tail _ goes =>
    obtain ⟨size, -, next⟩ := round_next goes
    rw [next]
    exact Nat.mod_lt _ (Nat.two_pow_pos 64)

/-- A loop of which no round goes back ends. -/
theorem ends_of_increases (below : file_addr < 2 ^ 64)
    (increases : ∀ s s', Reaches dir m fresh stop file_addr v s → Goes dir m fresh stop s s' → s.1 < s'.1) :
    ∃ fuel, load dir m fresh stop fuel file_addr v ≠ .error .unfinished := by
  have ends : ∀ n s, Reaches dir m fresh stop file_addr v s → 2 ^ 64 - s.1 ≤ n →
      ∃ fuel, load dir m fresh stop fuel s.1 s.2 ≠ .error .unfinished := by
    intro n
    induction n with
    | zero =>
      intro s reached short
      have inside := reached.below below
      omega
    | succ n ih =>
      intro s reached short
      cases ran : round dir m fresh stop s.1 s.2 with
      | error fault =>
        refine ⟨1, fun same => round_ne_unfinished dir m fresh stop s.1 s.2 ?_⟩
        rw [load_succ, ran] at same
        rw [ran]
        exact congrArg Except.error (Except.error.inj same)
      | ok r =>
        obtain ⟨v', next⟩ := r
        cases next with
        | none =>
          refine ⟨1, ?_⟩
          rw [load_succ, ran]
          exact nofun
        | some next =>
          have goes : Goes dir m fresh stop s (next, v') := ran
          have further := increases s (next, v') reached goes
          obtain ⟨fuel, ends⟩ := ih (next, v') (reached.tail goes) (by dsimp only at further ⊢; omega)
          refine ⟨fuel + 1, ?_⟩
          rw [load_succ, ran]
          exact ends
  exact ends (2 ^ 64) (file_addr, v) .refl (Nat.sub_le _ _)

/-- The loader ends, from header to header further behind, if and only if no header that it goes on
from has a size that takes the next position around the end of the address space. -/
theorem loader_ends_iff (dir : Nat) (m : Nat → Option UInt8) (fresh : Nat → Nat → UInt8) (stop : Nat) (v : Vfs)
    (below : file_addr < 2 ^ 64) :
    LoaderEnds dir m fresh stop file_addr v ↔
      ∀ s s' size, Reaches dir m fresh stop file_addr v s → Goes dir m fresh stop s s' →
        octalToBin m (s.1 + sizeField) 12 = some size → s.1 + headerSize + alignUp size < 2 ^ 64 := by
  constructor
  · intro ends s s' size reached goes octal
    obtain ⟨size', octal', next⟩ := round_next goes
    obtain rfl := Option.some.inj (octal.symm.trans octal')
    have further := ends.increases s s' reached goes
    rw [next] at further
    exact (next_lt_iff (octalToBin_lt octal) (reached.below below)).mp further
  · intro fits
    have increases : ∀ s s', Reaches dir m fresh stop file_addr v s → Goes dir m fresh stop s s' → s.1 < s'.1 := by
      intro s s' reached goes
      obtain ⟨size, octal, next⟩ := round_next goes
      rw [next]
      exact (next_lt_iff (octalToBin_lt octal) (reached.below below)).mpr (fits s s' size reached goes octal)
    exact ⟨ends_of_increases below increases, increases⟩

theorem round_top {size : Nat} (found : readBytes m (current + magicField) 6 = some magic)
    (octal : octalToBin m (current + sizeField) 12 = some size) (room : current + 3 ≤ 2 ^ 64)
    (named : readBytes m current 3 = some (topName ++ [0])) :
    round dir m fresh stop current v =
      if (current + headerSize + alignUp size) % 2 ^ 64 ≥ stop then .ok (v, none)
      else .ok (v, some ((current + headerSize + alignUp size) % 2 ^ 64)) := by
  obtain ⟨limit, long⟩ : ∃ limit, 2 ^ 64 - current = limit + 3 := ⟨2 ^ 64 - current - 3, by omega⟩
  have name : stringAt m (limit + 3) current = some topName := by
    obtain ⟨a, first, named⟩ := Option.bind_eq_some_iff.mp named
    obtain ⟨_, rest, same⟩ := Option.bind_eq_some_iff.mp named
    obtain ⟨b, second, rest⟩ := Option.bind_eq_some_iff.mp rest
    obtain ⟨_, rest, same'⟩ := Option.bind_eq_some_iff.mp rest
    obtain ⟨c, third, rest⟩ := Option.bind_eq_some_iff.mp rest
    obtain rfl := Option.some.inj rest
    obtain rfl := Option.some.inj same'
    obtain ⟨rfl, rfl, rfl, -⟩ : a = 0x2E ∧ b = 0x2F ∧ c = 0 ∧ True := by simpa [topName] using same
    simp [stringAt, first, second, third, topName]
  have entered : loadEntry v dir m (fresh current) current size topName = .ok v := by
    unfold loadEntry
    rw [strcmp_self]
    rfl
  unfold round
  rw [found, deref_some_bind, if_neg (not_not.mpr rfl), octal, deref_some_bind, long, name, deref_some_bind, entered,
    Except.ok_bind]

/-- An archive entry for the top directory with these characters in the size field. -/
def topHeader (size : List UInt8) : List UInt8 :=
  topName ++ List.replicate 122 0 ++ size ++ List.replicate (133 - size.length) 0 ++ magic ++ List.replicate 249 0

theorem Goes.eq {s' s'' : Nat × Vfs} (goes : Goes dir m fresh stop s s') (goes' : Goes dir m fresh stop s s'') :
    s'' = s' := by
  obtain ⟨tree, position⟩ := Prod.mk.inj (Except.ok.inj (goes.symm.trans goes'))
  exact Prod.ext (Option.some.inj position).symm tree.symm

/-- A top directory without data, and zeros behind it. -/
theorem loader_ends_iff_top : ∃ v, Vfs.Built (fun _ => none) v ∧
    LoaderEnds 0 (moduleBytes 0x1000 (topHeader [] ++ List.replicate 512 0)) (fun _ _ => 0) 0x1400 0x1000 v := by
  obtain ⟨_, _, made⟩ := Vfs.init_spec fun _ => none
  refine ⟨_, .init made, ?_⟩
  generalize Vfs.mk _ _ _ = v
  let m := moduleBytes 0x1000 (topHeader [] ++ List.replicate 512 0)
  have first : Goes 0 m (fun _ _ => 0) 0x1400 (0x1000, v) (0x1200, v) := by
    have octal : octalToBin m (0x1000 + sizeField) 12 = some 0 := by decide +kernel
    exact (round_top (by decide +kernel) octal (by decide) (by decide +kernel)).trans (if_neg (by decide))
  have second : ∀ s', ¬Goes 0 m (fun _ _ => 0) 0x1400 (0x1200, v) s' := by
    intro s' goes
    have other : readBytes m (0x1200 + magicField) 6 = some (List.replicate 6 0) := by decide +kernel
    unfold Goes round at goes
    rw [other, deref_some_bind, if_pos (by decide)] at goes
    cases (Prod.mk.inj (Except.ok.inj goes)).2
  refine (loader_ends_iff _ _ _ _ _ (by decide)).mpr fun s s' size reached goes octal => ?_
  rcases reached.cases_head with rfl | ⟨next, went, reached⟩
  · have zero : octalToBin m (0x1000 + sizeField) 12 = some 0 := by decide +kernel
    obtain rfl := Option.some.inj (octal.symm.trans zero)
    show 0x1000 + headerSize + alignUp 0 < 2 ^ 64
    decide
  · obtain rfl := Goes.eq first went
    rcases reached.cases_head with rfl | ⟨next, went, _⟩
    · exact absurd goes (second s')
    · exact absurd went (second next)

/-- The size field `(00` stands for 2^64 - 512, which leads back to the same header. -/
theorem load_into_stuck : ∃ v, Vfs.Built (fun _ => none) v ∧
    (∀ fuel, loadInto v 0 0x1000 (topHeader [0x28, 0x30, 0x30]) (fun _ _ => 0) fuel = .error .unfinished) ∧
    Goes 0 (moduleBytes 0x1000 (topHeader [0x28, 0x30, 0x30])) (fun _ _ => 0) 0x1200 (0x1000, v) (0x1000, v) ∧
    ¬LoaderEnds 0 (moduleBytes 0x1000 (topHeader [0x28, 0x30, 0x30])) (fun _ _ => 0) 0x1200 0x1000 v := by
  obtain ⟨_, _, made⟩ := Vfs.init_spec fun _ => none
  refine ⟨_, .init made, ?_⟩
  generalize Vfs.mk _ _ _ = v
  have goes : Goes 0 (moduleBytes 0x1000 (topHeader [0x28, 0x30, 0x30])) (fun _ _ => 0) 0x1200 (0x1000, v) (0x1000, v) := by
    have octal : octalToBin (moduleBytes 0x1000 (topHeader [0x28, 0x30, 0x30])) (0x1000 + sizeField) 12 =
        some (2 ^ 64 - 512) := by
      decide +kernel
    exact (round_top (by decide +kernel) octal (by decide) (by decide +kernel)).trans (if_neg (by decide))
  refine ⟨fun fuel => ?_, goes, fun ends => absurd (ends.increases _ _ .refl goes) (Nat.lt_irrefl _)⟩
  have stop : (0x1000 + (topHeader [0x28, 0x30, 0x30]).length) % 2 ^ 64 = 0x1200 := by decide +kernel
  unfold loadInto
  rw [stop]
  induction fuel with
  | zero => rfl
  | succ fuel ih =>
    rw [load_succ, goes]
    exact ih

end Initramfs

end FishOS.Fs
