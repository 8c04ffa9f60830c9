import FishOS.Fs.Cwd
import FishOS.Fs.FreshNodes

/-!
# The buffer of getcwd

Where `syscall_getcwd` writes and what it leaves there, in a tree over any heap.
-/

namespace FishOS.Fs

open Klib

/-- The absolute path of a node with these names on the way to it. -/
def pathText (names : List CString) : List UInt8 := if names = [] then [slash] else absolutePath names

/-- Whatever the memory holds, nothing outside the buffer changes; and if the call returns 0, then
the buffer has the path and a NUL behind it. -/
structure GetcwdRespects (v : Vfs) (cwd : Nat) (m : Mem) (buf size : Nat) (path : List UInt8) : Prop where
  outside : ∀ m m' result, v.syscallGetcwd cwd m buf size = some (m', result) →
    ∀ x, x < buf ∨ buf + size ≤ x → m' x = m x
  held : ∃ m' result, v.syscallGetcwd cwd m buf size = some (m', result) ∧
    (result = 0 → ∀ k c, (path ++ [0])[k]? = some c → k < size ∧ m' (buf + k) = c)

variable {m m' : Mem} {buf size i : Nat} {chars : List UInt8}

theorem storeChars_error_full (stored : storeChars buf size chars (m, i) = .error m') : size ≤ i + chars.length := by
  induction chars generalizing m i with
  | nil => cases stored
  | cons c chars ih =>
    rw [storeChars] at stored
    rw [List.length_cons]
    split at stored
    · omega
    · have rest := ih stored
      omega

theorem storeChars_error_outside (inside : i < size) (stored : storeChars buf size chars (m, i) = .error m') :
    ∀ x, x < buf ∨ buf + size ≤ x → m' x = m x := by
  induction chars generalizing m i with
  | nil => cases stored
  | cons c chars ih =>
    intro x apart
    have here : m.write8 (buf + i) c x = m x := Mem.write8_other m (by omega)
    rw [storeChars] at stored
    split at stored
    · obtain rfl := Except.error.inj stored
      exact here
    · rename_i fits
      rw [ih (Nat.not_le.mp fits) stored x apart, here]

namespace Vfs

variable {v : Vfs} {heap : Nat → Option Nat} {r d cwd : Nat} {dir : Node} {names names' : List CString}

theorem Tree.path_unique (tree : v.Tree) (path : v.PathOf d names) (path' : v.PathOf d names') : names' = names := by
  induction path generalizing names' with
  | root root =>
    cases path' with
    | root => rfl
    | entry _ read directory notDot notDotdot found =>
      obtain ⟨node, childRead, _, up, _⟩ := tree.entry_read read directory notDot notDotdot found
      obtain ⟨top, topRead, _, noParent, _⟩ := tree.root_unique root
      obtain rfl := Option.some.inj (childRead.symm.trans topRead)
      rw [noParent] at up
      cases up
  | entry _ read directory notDot notDotdot found ih =>
    obtain ⟨node, childRead, _, up, named⟩ := tree.entry_read read directory notDot notDotdot found
    cases path' with
    | root root =>
      obtain ⟨top, topRead, _, noParent, _⟩ := tree.root_unique root
      obtain rfl := Option.some.inj (childRead.symm.trans topRead)
      rw [noParent] at up
      cases up
    | entry above' read' directory' notDot' notDotdot' found' =>
      obtain ⟨node', childRead', _, up', named'⟩ := tree.entry_read read' directory' notDot' notDotdot' found'
      obtain rfl := Option.some.inj (childRead.symm.trans childRead')
      obtain rfl := Option.some.inj (up.symm.trans up')
      rw [ih above', ← named, ← named']

theorem Tree.parentNames_text (tree : v.Tree) (directory : v.IsDirectory cwd) :
    ∃ collected names, v.parentNames v.nodes.length cwd = some collected ∧ v.PathOf cwd names ∧
      absolutePath collected.reverse = pathText names := by
  obtain ⟨r, top, root, topRead, _, parent, name⟩ := tree.root
  obtain ⟨dir, read, type⟩ := directory
  have inside := (List.getElem?_eq_some_iff.mp read).1
  by_cases below : cwd = r
  · subst below
    refine ⟨[emptyName], [], ?_, .root root, rfl⟩
    obtain ⟨fuel, same⟩ : ∃ n, v.nodes.length = n + 1 := ⟨v.nodes.length - 1, by omega⟩
    rw [same, parentNames, topRead, Option.bind_eq_bind, Option.bind_some, parent, name]
  · obtain ⟨collected, found, nonempty, path⟩ :=
      tree.parentNames_path root read type below v.nodes.length (Nat.le_of_lt inside)
    refine ⟨collected, collected.reverse, found, path, ?_⟩
    unfold pathText
    rw [if_neg (by simpa using nonempty)]

theorem parentNames_cleared (v : Vfs) (fuel p : Nat) : v.cleared.parentNames fuel p = v.parentNames fuel p := by
  induction fuel generalizing p with
  | zero => rfl
  | succ fuel ih =>
    have reads : ∀ q : Nat, v.cleared.nodes[q]? = (v.nodes[q]?).map Node.cleared := fun q => List.getElem?_map ..
    rw [parentNames, parentNames, reads]
    cases v.nodes[p]? with
    | none => rfl
    | some node =>
      simp only [Option.map_some, Option.bind_eq_bind, Option.bind_some, parent_cleared, name_cleared]
      cases node.parent with
      | none => rfl
      | some parent =>
        dsimp only
        rw [reads]
        cases v.nodes[parent]? with
        | none => rfl
        | some above =>
          simp only [Option.map_some, Option.bind_some, parent_cleared]
          cases above.parent with
          | none => rfl
          | some _ => rw [ih]

theorem pathOf_cleared : v.cleared.PathOf d names ↔ v.PathOf d names := by
  constructor
  · intro path
    induction path with
    | root root => exact .root root
    | entry _ read directory notDot notDotdot found ih =>
      obtain ⟨old, oldRead, rfl⟩ := of_read_cleared read
      rw [type_cleared] at directory
      rw [children_cleared] at found
      exact .entry ih oldRead directory notDot notDotdot found
  · intro path
    induction path with
    | root root => exact .root root
    | entry _ read directory notDot notDotdot found ih =>
      exact .entry ih (read_cleared read) (by rwa [type_cleared]) notDot notDotdot (by rwa [children_cleared])

theorem pathText_ne_nil (names : List CString) : pathText names ≠ [] := by
  unfold pathText
  split
  · exact List.cons_ne_nil _ _
  · rename_i nonempty
    exact absolutePath_ne_nil nonempty

section

variable {collected : List CString} (found : v.parentNames v.nodes.length cwd = some collected)
include found

theorem getcwd_ok {j : Nat} (stored : storeChars buf size (absolutePath collected.reverse) (m, 0) = .ok (m', j)) :
    v.syscallGetcwd cwd m buf size = some (m', 0) := by
  unfold syscallGetcwd
  rw [found, Option.bind_eq_bind, Option.bind_some, foldlM_storeName, stored]

theorem getcwd_error (stored : storeChars buf size (absolutePath collected.reverse) (m, 0) = .error m') :
    v.syscallGetcwd cwd m buf size = some (m', -erange) := by
  unfold syscallGetcwd
  rw [found, Option.bind_eq_bind, Option.bind_some, foldlM_storeName, stored]

/-- The first character is stored before the size is looked at. -/
theorem getcwd_outside_iff (nonempty : absolutePath collected.reverse ≠ []) :
    (∀ m m' result, v.syscallGetcwd cwd m buf size = some (m', result) →
      ∀ x, x < buf ∨ buf + size ≤ x → m' x = m x) ↔ size ≠ 0 := by
  constructor
  · rintro respects rfl
    obtain ⟨c, rest, path⟩ := List.exists_cons_of_ne_nil nonempty
    let m : Mem := fun _ => c + 1
    have stored : storeChars buf 0 (absolutePath collected.reverse) (m, 0) = .error (m.write8 buf c) := by
      rw [path, storeChars, if_pos (Nat.zero_le _), Nat.add_zero]
    have kept := respects m _ _ (getcwd_error found stored) buf (.inr (Nat.le_refl _))
    rw [Mem.write8_same] at kept
    have next : c.toNat = (c + 1).toNat := congrArg UInt8.toNat kept
    have bound := c.toNat_lt
    rw [UInt8.toNat_add, UInt8.toNat_one] at next
    omega
  · intro some m m' result called x apart
    cases stored : storeChars buf size (absolutePath collected.reverse) (m, 0) with
    | ok s =>
      obtain ⟨m₁, j⟩ := s
      obtain ⟨rfl, rfl⟩ := Prod.mk.inj (Option.some.inj ((getcwd_ok found stored).symm.trans called))
      obtain ⟨stop, fits, -, outside⟩ := storeChars_ok stored
      exact outside x (by have room := fits.resolve_left nonempty; omega)
    | error m₁ =>
      obtain ⟨rfl, rfl⟩ := Prod.mk.inj (Option.some.inj ((getcwd_error found stored).symm.trans called))
      exact storeChars_error_outside (Nat.pos_of_ne_zero some) stored x apart

/-- The end of the string is what the buffer held there. -/
theorem getcwd_held_iff {path : List UInt8} (text : absolutePath collected.reverse = path) (nonempty : path ≠ []) :
    (∃ m' result, v.syscallGetcwd cwd m buf size = some (m', result) ∧
      (result = 0 → ∀ k c, (path ++ [0])[k]? = some c → k < size ∧ m' (buf + k) = c)) ↔
      (path.length < size → m (buf + path.length) = 0) := by
  cases stored : storeChars buf size (absolutePath collected.reverse) (m, 0) with
  | error m₁ =>
    have full : ¬path.length < size := by
      have full := storeChars_error_full stored
      rw [text] at full
      omega
    refine iff_of_true ⟨m₁, _, getcwd_error found stored, fun zero => absurd zero (by decide)⟩ (absurd · full)
  | ok s =>
    obtain ⟨m₁, j⟩ := s
    have called := getcwd_ok found stored
    rw [text] at stored
    obtain ⟨rfl, fits, inside, outside⟩ := storeChars_ok stored
    rw [Nat.zero_add] at fits outside
    have room := fits.resolve_left nonempty
    have kept := outside (buf + path.length) (.inr (Nat.le_refl _))
    constructor
    · rintro ⟨m', result, called', holds⟩ _
      obtain ⟨rfl, rfl⟩ := Prod.mk.inj (Option.some.inj (called.symm.trans called'))
      rw [← kept]
      exact (holds rfl path.length 0 (by simp)).2
    · intro nul
      refine ⟨m₁, 0, called, fun _ k c found => ?_⟩
      rw [List.getElem?_append] at found
      split at found
      · rename_i char
        have written := inside k c found
        rw [Nat.add_zero] at written
        exact ⟨by omega, written⟩
      · rename_i behind
        obtain ⟨last, rfl⟩ := List.getElem?_eq_some_iff.mp found
        rw [List.length_singleton] at last
        obtain rfl : k = path.length := by omega
        rw [List.getElem_singleton]
        exact ⟨room, kept.trans (nul room)⟩

end

/-- In every tree, `getcwd` respects the buffer if and only if the buffer has a byte, and, if the path
fits, there is a NUL already behind the place where it ends. -/
theorem getcwd_respects_iff (built : Built heap v) (directory : v.IsDirectory cwd) (m : Mem) (buf size : Nat) :
    ∃ names, (∀ names', v.PathOf cwd names' ↔ names' = names) ∧
      (GetcwdRespects v cwd m buf size (pathText names) ↔
        size ≠ 0 ∧ ((pathText names).length < size → m (buf + (pathText names).length) = 0)) := by
  have tree := built.cleared.tree fun _ => rfl
  obtain ⟨dir, read, type⟩ := directory
  obtain ⟨collected, names, found, path, text⟩ :=
    tree.parentNames_text ⟨dir.cleared, read_cleared read, by rwa [type_cleared]⟩
  rw [parentNames_cleared, length_cleared] at found
  refine ⟨names, fun names' => ⟨fun path' => tree.path_unique path (pathOf_cleared.mpr path'), ?_⟩, ?_⟩
  · rintro rfl
    exact pathOf_cleared.mp path
  · have nonempty := pathText_ne_nil names
    rw [← getcwd_held_iff found text nonempty, ← getcwd_outside_iff found (text ▸ nonempty)]
    exact ⟨fun respects => ⟨respects.outside, respects.held⟩, fun both => ⟨both.1, both.2⟩⟩

/-- The directory `bin`, and a buffer of 64 zeros. -/
theorem getcwd_respects_iff_bin : ∃ v, Built (fun _ => none) v ∧
    ∃ names, v.PathOf 3 names ∧ GetcwdRespects v 3 (fun _ => 0) 0x1000 64 (pathText names) := by
  obtain ⟨v, built, _, directory, _⟩ := exists_binTree
  obtain ⟨names, path, respects⟩ := getcwd_respects_iff built directory (fun _ => 0) 0x1000 64
  exact ⟨v, built, names, (path names).mpr rfl, respects.mpr ⟨by decide, fun _ => rfl⟩⟩

/-- At the root, a size of 0 still puts `/` into the buffer, and a buffer of two bytes that are not
zero gets `/` without a NUL, with the result 0. -/
theorem getcwd_leaves_buffer : ∃ v, Built (fun _ => none) v ∧ v.PathOf 0 [] ∧ v.IsDirectory 0 ∧
    (∃ m', v.syscallGetcwd 0 (fun _ => 1) 0x1000 0 = some (m', -erange) ∧ m' 0x1000 = slash) ∧
    (∃ m', v.syscallGetcwd 0 (fun _ => 1) 0x1000 2 = some (m', 0) ∧ m' 0x1001 = 1) ∧
    ¬GetcwdRespects v 0 (fun _ => 1) 0x1000 0 (pathText []) ∧ ¬GetcwdRespects v 0 (fun _ => 1) 0x1000 2 (pathText []) := by
  obtain ⟨dots, _, made⟩ := init_spec fun _ => none
  refine ⟨_, .init made, .root rfl, ⟨_, rfl, rfl⟩, ⟨_, rfl, by decide⟩, ⟨_, rfl, by decide⟩, ?_, ?_⟩
  · intro respects
    exact absurd (respects.outside (fun _ => 1) _ _ rfl 0x1000 (.inr (Nat.le_refl _))) (by decide)
  · intro respects
    obtain ⟨m', result, called, held⟩ := respects.held
    obtain ⟨rfl, rfl⟩ := Prod.mk.inj (Option.some.inj called)
    exact absurd (held rfl 1 0 rfl).2 (by decide)

end Vfs

end FishOS.Fs
