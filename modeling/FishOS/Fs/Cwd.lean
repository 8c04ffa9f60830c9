import FishOS.Fs.Lookup

/-!
# The working directory

`syscall_getcwd` and `syscall_chdir`. A working directory lies at most as deep as there are nodes,
and the heap has no room for 2^31 of them, so the `int` that counts the names does not overflow.
-/

namespace FishOS.Fs

open Klib

def erange : Int := 3

def enoent : Int := 1043

def enotdir : Int := 1053

/-- A run of `buf[buf_index++] = c` with the test behind it. An error is `-ERANGE`. -/
def storeChars (buf size : Nat) : List UInt8 → Mem × Nat → Except Mem (Mem × Nat)
  | [], s => .ok s
  | c :: chars, (m, buf_index) =>
    let m := m.write8 (buf + buf_index) c
    let buf_index := buf_index + 1
    if buf_index ≥ size then .error m else storeChars buf size chars (m, buf_index)

def storeName (buf size : Nat) (s : Mem × Nat) (name : CString) : Except Mem (Mem × Nat) := do
  let s ← storeChars buf size [slash] s
  storeChars buf size name.chars s

/-- The bytes that a pointer to this buffer reaches. -/
def bytesAt (m : Mem) (buf size : Nat) : List UInt8 := (List.range size).map fun i => m (buf + i)

namespace Vfs

/-- The names that the loop of `getcwd` pushes, from the working directory upwards. -/
def parentNames (v : Vfs) : Nat → Nat → Option (List CString)
  | 0, _ => none
  | fuel + 1, current => do
    let node ← v.nodes[current]?
    match node.parent with
    | none => some [node.name]
    | some parent => do
      let parent_node ← v.nodes[parent]?
      match parent_node.parent with
      | none => some [node.name]
      | some _ => do
        let names ← v.parentNames fuel parent
        some (node.name :: names)

def syscallGetcwd (v : Vfs) (cwd : Nat) (m : Mem) (buf size : Nat) : Option (Mem × Int) := do
  let parent_names ← v.parentNames v.nodes.length cwd
  match parent_names.reverse.foldlM (storeName buf size) (m, 0) with
  | .ok (m, _) => some (m, 0)
  | .error m => some (m, -erange)

/-- The working directory afterwards, and the result. -/
def syscallChdir (v : Vfs) (cwd : Nat) (path : List UInt8) : Option (Nat × Int) := do
  let first ← path.head?
  let starting_point := if first ≠ slash then some cwd else none
  let result ← v.pathToNode path starting_point
  match result.target with
  | none => some (cwd, -enoent)
  | some target => do
    let node ← v.nodes[target]?
    if node.type ≠ .directory then some (cwd, -enotdir) else some (target, 0)

/-- The working directories that a task gets to from the root by calls of `chdir`. -/
inductive CwdReachable (v : Vfs) : Nat → Prop where
  | start {r : Nat} (root : v.root = some r) : CwdReachable v r
  | chdir {d d' : Nat} {path : List UInt8} {result : Int} (before : CwdReachable v d)
      (called : v.syscallChdir d path = some (d', result)) : CwdReachable v d'

/-- The names of the entries on the way from the root to a node. -/
inductive PathOf (v : Vfs) : Nat → List CString → Prop where
  | root {r : Nat} (root : v.root = some r) : PathOf v r []
  | entry {d p : Nat} {dir : Node} {name : CString} {names : List CString} (above : PathOf v d names)
      (read : v.nodes[d]? = some dir) (directory : dir.type = .directory) (notDot : name ≠ dotName)
      (notDotdot : name ≠ dotdotName) (found : dir.children.get name = some p) : PathOf v p (names ++ [name])

/-- `getcwd` returns, and if it returns 0 then `chdir` on the buffer leads to where the task is. -/
def GetcwdInverse (v : Vfs) (cwd : Nat) (m : Mem) (buf size : Nat) : Prop :=
  ∃ m' result, v.syscallGetcwd cwd m buf size = some (m', result) ∧
    (result = 0 → v.syscallChdir cwd (bytesAt m' buf size) = some (cwd, 0))

end Vfs

/-- The absolute path of components that `getcwd` writes. -/
def absolutePath (names : List CString) : List UInt8 := names.flatMap fun name => slash :: name.chars

variable {m m' : Mem} {buf size i j : Nat} {chars : List UInt8}

theorem absolutePath_eq (name : CString) (names : List CString) :
    absolutePath (name :: names) = slash :: joinPath (name :: names) false := by
  induction names generalizing name with
  | nil => simp [absolutePath, joinPath, List.intercalate]
  | cons next names ih =>
    have rest := ih next
    unfold absolutePath at rest ⊢
    rw [List.flatMap_cons, rest, Vfs.joinPath_cons, List.cons_append]

theorem absolutePath_ne_nil {names : List CString} (nonempty : names ≠ []) : absolutePath names ≠ [] := by
  obtain ⟨name, rest, rfl⟩ := List.exists_cons_of_ne_nil nonempty
  rw [absolutePath_eq]
  exact List.cons_ne_nil _ _

theorem storeChars_append (a b : List UInt8) (s : Mem × Nat) :
    storeChars buf size (a ++ b) s = (storeChars buf size a s).bind (storeChars buf size b) := by
  induction a generalizing s with
  | nil => rfl
  | cons c a ih =>
    rw [List.cons_append, storeChars, storeChars]
    split
    · rfl
    · exact ih _

theorem storeName_eq (s : Mem × Nat) (name : CString) :
    storeName buf size s name = storeChars buf size (slash :: name.chars) s :=
  (storeChars_append [slash] name.chars s).symm

theorem foldlM_storeName (names : List CString) (s : Mem × Nat) :
    names.foldlM (storeName buf size) s = storeChars buf size (absolutePath names) s := by
  induction names generalizing s with
  | nil => rfl
  | cons name names ih =>
    have cut : absolutePath (name :: names) = (slash :: name.chars) ++ absolutePath names := rfl
    rw [List.foldlM_cons, storeName_eq, cut, storeChars_append]
    cases storeChars buf size (slash :: name.chars) s with
    | error m => rfl
    | ok s => exact ih s

theorem storeChars_ok (stored : storeChars buf size chars (m, i) = .ok (m', j)) :
    j = i + chars.length ∧ (chars = [] ∨ j < size) ∧
      (∀ k c, chars[k]? = some c → m' (buf + i + k) = c) ∧
      ∀ x, x < buf + i ∨ buf + j ≤ x → m' x = m x := by
  induction chars generalizing m i with
  | nil =>
    obtain ⟨rfl, rfl⟩ := Prod.mk.inj (Except.ok.inj stored)
    refine ⟨rfl, .inl rfl, ?_, fun x _ => rfl⟩
    intro k c found
    cases found
  | cons c chars ih =>
    rw [storeChars] at stored
    split at stored
    · cases stored
    · rename_i room
      obtain ⟨stop, fits, inside, outside⟩ := ih stored
      refine ⟨by rw [List.length_cons]; omega, .inr ?_, ?_, ?_⟩
      · rcases fits with rfl | fits
        · rw [List.length_nil] at stop
          omega
        · exact fits
      · intro k b found
        cases k with
        | zero =>
          obtain rfl := Option.some.inj found
          rw [outside _ (.inl (by omega))]
          exact Mem.write8_same m _ _
        | succ k =>
          have next := inside k b found
          have place : buf + (i + 1) + k = buf + i + (k + 1) := by omega
          rwa [place] at next
      · intro x apart
        rw [outside x (by omega)]
        exact Mem.write8_other m (by omega)

theorem storeChars_error (m : Mem) (buf : Nat) (room : ¬(chars = [] ∨ i + chars.length < size)) :
    ∃ m', storeChars buf size chars (m, i) = .error m' := by
  induction chars generalizing m i with
  | nil => exact absurd (.inl rfl) room
  | cons c chars ih =>
    rw [List.length_cons] at room
    rw [storeChars]
    split
    · exact ⟨_, rfl⟩
    · rename_i fits
      apply ih
      rintro (rfl | below)
      · exact room (.inr (by rw [List.length_nil]; omega))
      · exact room (.inr (by omega))

/-- A buffer of zeros with characters written at its start. -/
theorem bytesAt_eq (zero : ∀ k < size, m (buf + k) = 0)
    (stored : storeChars buf size chars (m, 0) = .ok (m', j)) (nonempty : chars ≠ []) :
    ∃ junk, bytesAt m' buf size = chars ++ 0 :: junk := by
  obtain ⟨stop, fits, inside, outside⟩ := storeChars_ok stored
  have room : j < size := fits.resolve_left nonempty
  have zeros : 0 :: List.replicate (size - j - 1) (0 : UInt8) = List.replicate (size - j) 0 := by
    rw [← List.replicate_succ]
    congr 1
    omega
  refine ⟨List.replicate (size - j - 1) 0, ?_⟩
  rw [zeros]
  apply List.ext_getElem?
  intro k
  unfold bytesAt
  by_cases below : k < size
  · rw [List.getElem?_map, List.getElem?_range below, Option.map_some]
    by_cases char : k < chars.length
    · rw [List.getElem?_append_left char, List.getElem?_eq_getElem char]
      have written := inside k chars[k] (List.getElem?_eq_getElem char)
      rw [← written, Nat.add_zero]
    · rw [List.getElem?_append_right (by omega), List.getElem?_replicate_of_lt (by omega), outside _ (.inr (by omega)),
        zero k below]
  · rw [List.getElem?_eq_none (by simpa using below), List.getElem?_eq_none]
    rw [List.length_append, List.length_replicate]
    omega

namespace Vfs

variable {v : Vfs} {d r cwd : Nat} {dir node : Node}

theorem CwdReachable.directory (tree : v.Tree) (reachable : CwdReachable v cwd) : v.IsDirectory cwd := by
  induction reachable with
  | start root =>
    obtain ⟨r, dir, root', read, type, _⟩ := tree.root
    obtain rfl := Option.some.inj (root.symm.trans root')
    exact ⟨dir, read, type⟩
  | chdir before called ih =>
    obtain ⟨first, _, called⟩ := Option.bind_eq_some_iff.mp called
    obtain ⟨found, _, called⟩ := Option.bind_eq_some_iff.mp called
    split at called
    · obtain ⟨rfl, _⟩ := Prod.mk.inj (Option.some.inj called)
      exact ih
    · obtain ⟨node, read, called⟩ := Option.bind_eq_some_iff.mp called
      split at called
      · obtain ⟨rfl, _⟩ := Prod.mk.inj (Option.some.inj called)
        exact ih
      · rename_i directory
        obtain ⟨rfl, _⟩ := Prod.mk.inj (Option.some.inj called)
        exact ⟨node, read, by simpa using directory⟩

theorem Tree.root_unique (tree : v.Tree) (root : v.root = some r) :
    ∃ dir, v.nodes[r]? = some dir ∧ dir.type = .directory ∧ dir.parent = none ∧ dir.name = emptyName := by
  obtain ⟨r', dir, root', rest⟩ := tree.root
  obtain rfl := Option.some.inj (root.symm.trans root')
  exact ⟨dir, rest⟩

/-- The names that `getcwd` collects below the root are those of the path, from its end. -/
theorem Tree.parentNames_path (tree : v.Tree) (root : v.root = some r) (read : v.nodes[d]? = some dir)
    (directory : dir.type = .directory) (below : d ≠ r) (fuel : Nat) (enough : d ≤ fuel) :
    ∃ names, v.parentNames fuel d = some names ∧ names ≠ [] ∧ v.PathOf d names.reverse := by
  induction d using Nat.strong_induction_on generalizing dir fuel with
  | _ d ih =>
    have plain : dir.type ≠ .none := by rw [directory]; exact nofun
    have up := (tree.plain d dir read plain).parent
    cases parent : dir.parent with
    | none =>
      rw [parent] at up
      exact absurd (Option.some.inj (up.symm.trans root)) below
    | some q =>
      rw [parent] at up
      obtain ⟨older, nameOk, holder, holderRead, holderType, found⟩ := up
      obtain ⟨fuel, rfl⟩ : ∃ n, fuel = n + 1 := ⟨fuel - 1, by omega⟩
      rw [parentNames, read, Option.bind_eq_bind, Option.bind_some, parent]
      dsimp only
      rw [holderRead, Option.bind_eq_bind, Option.bind_some]
      have holderPlain := tree.plain q holder holderRead (by rw [holderType]; exact nofun)
      cases above : holder.parent with
      | none =>
        have top := holderPlain.parent
        rw [above] at top
        exact ⟨[dir.name], rfl, by simp,
          .entry (.root top) holderRead holderType nameOk.notDot nameOk.notDotdot found⟩
      | some _ =>
        have inner : q ≠ r := by
          rintro rfl
          obtain ⟨top, topRead, _, topParent, _⟩ := tree.root_unique root
          obtain rfl := Option.some.inj (holderRead.symm.trans topRead)
          rw [topParent] at above
          cases above
        obtain ⟨names, collected, _, path⟩ := ih q older holderRead holderType inner fuel (by omega)
        refine ⟨dir.name :: names, ?_, by simp, ?_⟩
        · dsimp only
          rw [collected]
          rfl
        · rw [List.reverse_cons]
          exact .entry path holderRead holderType nameOk.notDot nameOk.notDotdot found

/-- An entry other than the dot entries is a node that names its directory. -/
theorem Tree.entry_read (tree : v.Tree) {p : Nat} {name : CString} (read : v.nodes[d]? = some dir)
    (directory : dir.type = .directory) (notDot : name ≠ dotName) (notDotdot : name ≠ dotdotName)
    (found : dir.children.get name = some p) :
    ∃ node, v.nodes[p]? = some node ∧ node.type ≠ .none ∧ node.parent = some d ∧ node.name = name :=
  (((tree.directory d dir read directory).child name p found).resolve_left notDot).resolve_left notDotdot

theorem Tree.walk_path (tree : v.Tree) (root : v.root = some r) {names : List CString} (path : v.PathOf d names) :
    v.walk r names = some d ∧ ∀ name ∈ names, Component name := by
  induction path with
  | root top =>
    obtain rfl := Option.some.inj (top.symm.trans root)
    exact ⟨rfl, fun name member => nomatch member⟩
  | entry _ read directory notDot notDotdot found ih =>
    obtain ⟨walked, components⟩ := ih
    obtain ⟨node, childRead, plain, up, named⟩ := tree.entry_read read directory notDot notDotdot found
    have parent := (tree.plain _ node childRead plain).parent
    rw [up] at parent
    obtain ⟨_, nameOk, _⟩ := parent
    rw [named] at nameOk
    constructor
    · rw [walk_snoc, walked, Option.bind_some, lookup_eq read directory, found, Option.bind_some,
        tree.reduce_plain childRead plain]
    · intro k member
      rcases List.mem_append.mp member with above | last
      · exact components k above
      · rw [List.mem_singleton.mp last]
        exact ⟨nameOk.nonempty, nameOk.slashFree⟩

/-- `chdir` on the absolute path of a directory. -/
theorem Tree.chdir_walk (tree : v.Tree) (root : v.root = some r) {names : List CString}
    (nonempty : names ≠ []) (components : ∀ name ∈ names, Component name) (walked : v.walk r names = some d)
    (directory : v.IsDirectory d) (cwd : Nat) (junk : List UInt8) :
    v.syscallChdir cwd (absolutePath names ++ 0 :: junk) = some (d, 0) := by
  obtain ⟨first, rest, rfl⟩ := List.exists_cons_of_ne_nil nonempty
  obtain ⟨rootDir, rootRead, _⟩ := tree.root_unique root
  obtain ⟨dir, read, type⟩ := directory
  obtain ⟨result, looped, target⟩ := tree.loop_walk junk nonempty components false rootRead
    (length_le_joinPath (first :: rest) false)
  have returned := pathToNode_absolute junk root (noNul_joinPath (first :: rest) false)
  unfold syscallChdir
  rw [absolutePath_eq, List.cons_append, List.head?_cons, Option.bind_eq_bind, Option.bind_some]
  dsimp only
  rw [if_neg (by simp), ← List.cons_append, returned, looped, Option.bind_eq_bind, Option.bind_some, target, walked]
  dsimp only
  rw [read, Option.bind_eq_bind, Option.bind_some, if_neg (by simp [type])]

/-- At the root, `chdir("/")` looks up an entry with an empty name. -/
theorem Tree.chdir_root (tree : v.Tree) (root : v.root = some r) (cwd : Nat) (junk : List UInt8) :
    v.syscallChdir cwd ([slash] ++ 0 :: junk) = some (cwd, -enoent) := by
  obtain ⟨rootDir, rootRead, rootType, _⟩ := tree.root_unique root
  have absent := tree.empty_absent rootRead rootType
  have noNul : (0 : UInt8) ∉ [] := List.not_mem_nil
  have returned := pathToNode_absolute junk root noNul
  have looped := pathToNodeLoop_last 0 emptyName junk rootRead rootType (by decide) false
  rw [absent] at looped
  unfold syscallChdir
  rw [List.singleton_append, List.head?_cons, Option.bind_eq_bind, Option.bind_some]
  dsimp only
  rw [if_neg (by simp)]
  have called : v.pathToNode (slash :: 0 :: junk) none = some ⟨some r, none, some emptyName⟩ :=
    returned.trans looped
  rw [called]
  rfl

/-- `chdir` on a `getcwd` buffer finds the directory again exactly below the root: a buffer that has
room for `/` gets it at the root, and `chdir` looks for an entry with an empty name there. -/
theorem getcwd_inverse_iff (built : Built (fun _ => none) v) (root : v.root = some r)
    (reachable : CwdReachable v cwd) {m : Mem} {buf size : Nat} (zero : ∀ k < size, m (buf + k) = 0) :
    v.GetcwdInverse cwd m buf size ↔ cwd ≠ r ∨ size ≤ 1 := by
  have tree := built.tree fun _ => rfl
  have directory := reachable.directory tree
  obtain ⟨dir, read, type⟩ := directory
  obtain ⟨inside, _⟩ := List.getElem?_eq_some_iff.mp read
  by_cases below : cwd = r
  · subst below
    obtain ⟨top, topRead, _, parent, name⟩ := tree.root_unique root
    have names : v.parentNames v.nodes.length cwd = some [emptyName] := by
      obtain ⟨fuel, same⟩ : ∃ n, v.nodes.length = n + 1 := ⟨v.nodes.length - 1, by omega⟩
      rw [same, parentNames, topRead, Option.bind_eq_bind, Option.bind_some, parent, name]
    have path : absolutePath [emptyName] = [slash] := rfl
    unfold GetcwdInverse syscallGetcwd
    rw [names, Option.bind_eq_bind, Option.bind_some, List.reverse_singleton, foldlM_storeName, path]
    by_cases room : size ≤ 1
    · refine ⟨fun _ => .inr room, fun _ => ?_⟩
      have full : ¬([slash] = [] ∨ 0 + [slash].length < size) := by simpa using room
      obtain ⟨m', stored⟩ := storeChars_error m buf full
      rw [stored]
      exact ⟨m', -erange, rfl, fun zero => absurd zero (by decide)⟩
    · constructor
      · rintro ⟨m', result, called, back⟩
        have stored : storeChars buf size [slash] (m, 0) = .ok (m.write8 (buf + 0) slash, 1) := by
          rw [storeChars, if_neg (by omega)]
          rfl
        rw [stored] at called
        obtain ⟨rfl, rfl⟩ := Prod.mk.inj (Option.some.inj called)
        obtain ⟨junk, bytes⟩ := bytesAt_eq zero stored (by simp)
        have returned := back rfl
        rw [bytes, tree.chdir_root root cwd junk] at returned
        exact absurd (Prod.mk.inj (Option.some.inj returned)).2 (by decide)
      · rintro (other | small)
        · exact absurd rfl other
        · exact absurd small room
  · obtain ⟨names, collected, nonempty, path⟩ := tree.parentNames_path root read type below v.nodes.length (by omega)
    obtain ⟨walked, components⟩ := tree.walk_path root path
    refine ⟨fun _ => .inl below, fun _ => ?_⟩
    unfold GetcwdInverse syscallGetcwd
    rw [collected, Option.bind_eq_bind, Option.bind_some, foldlM_storeName]
    cases stored : storeChars buf size (absolutePath names.reverse) (m, 0) with
    | error m' => exact ⟨m', -erange, rfl, fun zero => absurd zero (by decide)⟩
    | ok s =>
      obtain ⟨m', j⟩ := s
      refine ⟨m', 0, rfl, fun _ => ?_⟩
      obtain ⟨junk, bytes⟩ := bytesAt_eq zero stored (absolutePath_ne_nil (by simpa using nonempty))
      rw [bytes]
      exact tree.chdir_walk root (by simpa using nonempty) components walked ⟨dir, read, type⟩ cwd junk

/-- `/bin` in a buffer of 64 zeros. -/
theorem getcwd_inverse_iff_bin : ∃ v, Built (fun _ => none) v ∧ v.IsDirectory 3 ∧
    v.GetcwdInverse 3 (fun _ => 0) 0x1000 64 := by
  obtain ⟨v, built, root, directory, walked⟩ := exists_binTree
  have called := (built.tree fun _ => rfl).chdir_walk root (by simp) component_bin walked directory 0 []
  have reachable : CwdReachable v 3 := .chdir (.start root) called
  exact ⟨v, built, directory, (getcwd_inverse_iff built root reachable fun _ _ => rfl).mpr (.inl (by decide))⟩

/-- `getcwd` puts `/` into a buffer of 64 zeros at the root, and `chdir("/")` does not find it. -/
theorem chdir_root_lost : ∃ v, Built (fun _ => none) v ∧ CwdReachable v 0 ∧ ∃ m',
    v.syscallGetcwd 0 (fun _ => 0) 0x1000 64 = some (m', 0) ∧
      v.syscallChdir 0 (bytesAt m' 0x1000 64) = some (0, -enoent) := by
  obtain ⟨dots, _, made⟩ := init_spec fun _ => none
  have tree := init_tree rfl made
  refine ⟨_, .init made, .start rfl, Mem.write8 (fun _ => 0) 0x1000 slash, rfl, ?_⟩
  have bytes : bytesAt (Mem.write8 (fun _ => 0) 0x1000 slash) 0x1000 64 = [slash] ++ 0 :: List.replicate 62 0 := by
    decide
  rw [bytes]
  exact tree.chdir_root rfl 0 _

end Vfs

end FishOS.Fs
