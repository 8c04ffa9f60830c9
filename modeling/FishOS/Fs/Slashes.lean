import FishOS.Fs.DescriptorTable

/-!
# Extra slashes

Between two slashes that follow each other, and behind the slash of the root path, `path_to_node`
cuts off a component with an empty name. No directory has an entry of that name.
-/

namespace FishOS.Fs

open Klib

/-- One slash of `path` is replaced by several. -/
def Several (path slashed : CString) : Prop :=
  ∃ before after k, path.chars = before ++ slash :: after ∧
    slashed.chars = before ++ List.replicate (k + 2) slash ++ after

def rootPath : CString := ⟨[slash], by decide⟩

namespace Vfs

/-- The target of `path_to_node(path, nullptr)`. -/
def absoluteTarget (v : Vfs) (path : CString) : Option (Option Nat) :=
  (v.pathToNode (path.chars ++ [0]) none).map PathToNodeResult.target

variable {v : Vfs} {d r : Nat} {dir node : Node} {path before after first rest junk : List UInt8} {fuel : Nat}

theorem doubled_behind (split : slash :: (first ++ slash :: rest) = before ++ slash :: slash :: after)
    (slashFree : slash ∉ first) (named : first ≠ []) :
    ∃ before', slash :: rest = before' ++ slash :: slash :: after := by
  cases before with
  | nil =>
    obtain ⟨c, first, rfl⟩ := List.exists_cons_of_ne_nil named
    obtain ⟨-, same⟩ := List.cons.inj split
    obtain ⟨rfl, -⟩ := List.cons.inj same
    exact absurd (.head _) slashFree
  | cons c before =>
    obtain ⟨-, same⟩ := List.cons.inj split
    rcases List.append_eq_append_iff.mp same with ⟨between, -, behind⟩ | ⟨between, split, behind⟩
    · exact ⟨between, behind⟩
    · cases between with
      | nil => exact ⟨[], behind.symm⟩
      | cons x between =>
        obtain ⟨rfl, -⟩ := List.cons.inj behind
        exact absurd (split ▸ List.mem_append_right _ (.head _)) slashFree

/-- The loop on a path that, with the slash in front of it, has two slashes side by side. By induction
on the components in front of them. -/
theorem Tree.loop_doubled (tree : v.Tree) (junk : List UInt8) (noNul : 0 ∉ path)
    (doubled : slash :: path = before ++ slash :: slash :: after) (read : v.nodes[d]? = some dir)
    (enough : path.length < fuel) :
    ∃ result, v.pathToNodeLoop fuel (path ++ 0 :: junk) path.length d = some result ∧ result.target = none := by
  induction fuel generalizing path before d dir with
  | zero => cases enough
  | succ fuel ih =>
    by_cases directory : dir.type = .directory
    · have cut : slash ∈ path := by
        cases before with
        | nil =>
          obtain ⟨-, rfl⟩ := List.cons.inj doubled
          exact .head _
        | cons c before =>
          obtain ⟨-, rfl⟩ := List.cons.inj doubled
          simp
      obtain ⟨first, rest, rfl, slashFree⟩ := List.eq_append_cons_of_mem cut
      have nameNoNul : 0 ∉ first := fun member => noNul (List.mem_append_left _ member)
      have restNoNul : 0 ∉ rest := fun member => noNul (List.mem_append_right _ (.tail _ member))
      rw [List.length_append, List.length_cons] at enough
      by_cases named : first = []
      · -- the component between the two slashes
        subst named
        have absent := tree.empty_absent read directory
        by_cases more : rest = []
        · have last := pathToNodeLoop_last fuel emptyName junk read directory (by decide) true
          rw [absent] at last
          subst more
          exact ⟨_, last, rfl⟩
        · have next := pathToNodeLoop_more fuel emptyName junk read directory (by decide) more
          rw [absent] at next
          exact ⟨_, next, rfl⟩
      · obtain ⟨before', behind⟩ := doubled_behind doubled slashFree named
        have more : rest ≠ [] := by
          rintro rfl
          have lengths := congrArg List.length behind
          simp only [List.length_cons, List.length_append, List.length_nil] at lengths
          omega
        have next := pathToNodeLoop_more fuel ⟨first, nameNoNul⟩ junk read directory slashFree more
        rw [List.append_assoc, List.cons_append, next]
        cases found : dir.children.get ⟨first, nameNoNul⟩ with
        | none => exact ⟨_, rfl, rfl⟩
        | some p =>
          obtain ⟨t, target, reduced, targetRead, _⟩ := tree.reduce_found read directory found
          dsimp only
          rw [reduced]
          exact ih restNoNul behind targetRead (by omega)
    · exact ⟨_, pathToNodeLoop_other read directory _ _, rfl⟩

theorem Tree.root_lost (tree : v.Tree) : v.absoluteTarget rootPath = some none := by
  obtain ⟨r, dir, root, read, directory, _⟩ := tree.root
  have returned := pathToNode_absolute [] root (List.not_mem_nil (a := (0 : UInt8)))
  have looped := pathToNodeLoop_last 0 emptyName [] read directory (by decide) false
  rw [tree.empty_absent read directory] at looped
  exact congrArg (Option.map PathToNodeResult.target) (returned.trans looped)

/-- No path with several slashes in a place of one leads anywhere. -/
theorem Tree.several_lost {path slashed : CString} (tree : v.Tree) (absolute : path.chars.head? = some slash)
    (several : Several path slashed) :
    slashed.chars.head? = some slash ∧ v.absoluteTarget slashed = some none := by
  obtain ⟨before, after, k, single, several⟩ := several
  have doubled : slashed.chars = before ++ slash :: slash :: (List.replicate k slash ++ after) := by
    rw [several, List.append_assoc]
    rfl
  have head : slashed.chars.head? = some slash := by
    rw [single] at absolute
    rw [doubled]
    cases before with
    | nil => rfl
    | cons c before => exact absolute
  obtain ⟨rest, split⟩ : ∃ rest, slashed.chars = slash :: rest :=
    ⟨slashed.chars.tail, (List.cons_head?_tail (by simpa using head)).symm⟩
  have noNul : 0 ∉ rest := fun member => slashed.noNul (split ▸ List.mem_cons_of_mem _ member)
  obtain ⟨r, dir, root, read, _⟩ := tree.root
  obtain ⟨result, looped, lost⟩ := tree.loop_doubled [] noNul (split.symm.trans doubled) read (Nat.lt_succ_self _)
  refine ⟨head, ?_⟩
  unfold absoluteTarget
  rw [split, pathToNode_absolute [] root noNul, looped]
  exact congrArg some lost

end Vfs

/-- Who looks an absolute path up. -/
inductive Caller where
  | pathToNode
  | openPath
  | chdir

namespace World

/-- The root path leads to the root. -/
def RootResolves (w : World) : Prop := ∃ r, w.vfs.root = some r ∧ w.vfs.absoluteTarget rootPath = some (some r)

/-- A caller gets the same from both paths. -/
def SameTarget (w : World) (path slashed : CString) : Caller → Prop
  | .pathToNode => w.vfs.absoluteTarget slashed = w.vfs.absoluteTarget path
  | .openPath => ∀ target, w.Resolves atFdcwd (pathBytes slashed) target ↔ w.Resolves atFdcwd (pathBytes path) target
  | .chdir => w.syscallChdir (pathBytes slashed) = w.syscallChdir (pathBytes path)

variable {w : World} {path slashed : CString} {target : Nat}

theorem head?_pathBytes (absolute : path.chars.head? = some slash) : (pathBytes path).head? = some slash := by
  unfold pathBytes
  rw [List.head?_append, absolute]
  rfl

theorem resolves_absolute (absolute : path.chars.head? = some slash) :
    w.Resolves atFdcwd (pathBytes path) target ↔ w.vfs.absoluteTarget path = some (some target) := by
  have started : w.startingPoint atFdcwd (pathBytes path) = .ok (.ok none) := by
    unfold startingPoint
    rw [head?_pathBytes absolute]
    exact if_pos rfl
  unfold Resolves Vfs.absoluteTarget
  constructor
  · rintro ⟨start, found, started', searched, here⟩
    obtain rfl := Except.ok.inj (Except.ok.inj (started.symm.trans started'))
    exact (congrArg (Option.map Vfs.PathToNodeResult.target) searched).trans (congrArg some here)
  · intro mapped
    obtain ⟨found, searched, here⟩ := Option.map_eq_some_iff.mp mapped
    exact ⟨none, found, started, searched, here⟩

theorem chdir_absolute (absolute : path.chars.head? = some slash) {result : Vfs.PathToNodeResult}
    (searched : w.vfs.pathToNode (pathBytes path) none = some result) (cwd : Nat) :
    w.vfs.syscallChdir cwd (pathBytes path) =
      match result.target with
      | none => some (cwd, -enoent)
      | some target => (w.vfs.nodes[target]?).bind fun node =>
          if node.type ≠ .directory then some (cwd, -enotdir) else some (target, 0) := by
  unfold Vfs.syscallChdir
  rw [head?_pathBytes absolute, Option.bind_eq_bind, Option.bind_some]
  dsimp only
  rw [if_neg (by simp), searched]
  rfl

theorem chdir_lost (absolute : path.chars.head? = some slash) (lost : w.vfs.absoluteTarget path = some none) :
    w.syscallChdir (pathBytes path) = .ok (w, -enoent) := by
  obtain ⟨result, searched, none⟩ := Option.map_eq_some_iff.mp lost
  have called := chdir_absolute absolute searched w.task.cwd
  rw [none] at called
  unfold syscallChdir
  rw [called]

/-- `chdir` on a path that leads somewhere does not answer that it is missing. -/
theorem chdir_found (absolute : path.chars.head? = some slash)
    (exist : w.vfs.absoluteTarget path = some (some target)) :
    w.syscallChdir (pathBytes path) ≠ .ok (w, -enoent) := by
  obtain ⟨result, searched, some⟩ := Option.map_eq_some_iff.mp exist
  obtain ⟨node, read⟩ := Vfs.pathToNode_target searched some
  have called := chdir_absolute absolute searched w.task.cwd
  rw [some] at called
  dsimp only at called
  rw [read, Option.bind_some] at called
  intro missing
  unfold syscallChdir at missing
  rw [called] at missing
  split at missing
  · cases missing
  · rename_i answer
    have results := congrArg Prod.snd (Except.ok.inj missing)
    dsimp only at results
    split at answer
    · obtain ⟨-, rfl⟩ := Prod.mk.inj (Option.some.inj answer)
      exact absurd results (by decide)
    · obtain ⟨-, rfl⟩ := Prod.mk.inj (Option.some.inj answer)
      exact absurd results (by decide)

/-- No extra slash is harmless: the root path leads nowhere, and neither does an existing path with one
of its slashes replaced by several. -/
theorem extra_slashes_never_harmless (built : Vfs.Built (fun _ => none) w.vfs) :
    ¬w.RootResolves ∧ ∀ path slashed target, path.chars.head? = some slash →
      w.vfs.absoluteTarget path = some (some target) → Several path slashed → ∀ caller, ¬w.SameTarget path slashed caller := by
  have tree := built.tree fun _ => rfl
  constructor
  · rintro ⟨r, _, resolved⟩
    rw [tree.root_lost] at resolved
    cases resolved
  · intro path slashed target absolute exist several caller same
    obtain ⟨absolute', lost⟩ := tree.several_lost absolute several
    cases caller with
    | pathToNode =>
      have both : w.vfs.absoluteTarget slashed = w.vfs.absoluteTarget path := same
      rw [lost, exist] at both
      cases both
    | openPath =>
      have reached := (same target).mpr ((resolves_absolute absolute).mpr exist)
      rw [resolves_absolute absolute', lost] at reached
      cases reached
    | chdir =>
      have both : w.syscallChdir (pathBytes slashed) = w.syscallChdir (pathBytes path) := same
      exact chdir_found absolute exist (both.symm.trans (chdir_lost absolute' lost))

/-- The path `/bin`, and `//bin`. -/
def slashBin : CString := ⟨slash :: Vfs.binName.chars, by decide⟩

def slashSlashBin : CString := ⟨slash :: slash :: Vfs.binName.chars, by decide⟩

theorem several_bin : Several slashBin slashSlashBin := ⟨[], Vfs.binName.chars, 0, rfl, rfl⟩

theorem exists_bin : ∃ w : World, Vfs.Built (fun _ => none) w.vfs ∧ w.vfs.root = some 0 ∧
    w.vfs.absoluteTarget slashBin = some (some 3) := by
  obtain ⟨v, built, root, _, walked⟩ := Vfs.exists_binTree
  obtain ⟨w, rfl, _, _⟩ := exists_start built root
  have tree := built.tree fun _ => rfl
  obtain ⟨r, dir, root', read, _⟩ := tree.root
  obtain rfl := Option.some.inj (root.symm.trans root')
  obtain ⟨result, looped, target⟩ := tree.loop_walk [] (List.cons_ne_nil _ _) Vfs.component_bin false read
    (Vfs.length_le_joinPath [Vfs.binName] false)
  rw [Vfs.joinPath_bare] at looped
  have found : w.vfs.pathToNode (slashBin.chars ++ [0]) none = some result :=
    (Vfs.pathToNode_absolute [] root Vfs.binName.noNul).trans looped
  refine ⟨w, built, root, ?_⟩
  unfold Vfs.absoluteTarget
  rw [found, Option.map_some, target, walked]

theorem extra_slashes_never_harmless_bin : ∃ w : World, w.vfs.absoluteTarget slashBin = some (some 3) ∧
    ∀ caller, ¬w.SameTarget slashBin slashSlashBin caller := by
  obtain ⟨w, built, _, exist⟩ := exists_bin
  exact ⟨w, exist, (extra_slashes_never_harmless built).2 slashBin slashSlashBin 3 rfl exist several_bin⟩

/-- Neither `/` nor `//bin` leads anywhere, beside `/bin` that does. -/
theorem slashes_lose_path : ∃ w : World, Vfs.Built (fun _ => none) w.vfs ∧ w.vfs.root = some 0 ∧
    w.vfs.absoluteTarget rootPath = some none ∧ w.vfs.absoluteTarget slashBin = some (some 3) ∧
    w.vfs.absoluteTarget slashSlashBin = some none ∧ w.syscallChdir (pathBytes slashSlashBin) = .ok (w, -enoent) ∧
    ¬w.Resolves atFdcwd (pathBytes slashSlashBin) 3 := by
  obtain ⟨w, built, root, exist⟩ := exists_bin
  have tree := built.tree fun _ => rfl
  obtain ⟨absolute, lost⟩ := tree.several_lost rfl several_bin
  refine ⟨w, built, root, tree.root_lost, exist, lost, chdir_lost absolute lost, ?_⟩
  rw [resolves_absolute absolute, lost]
  simp

end World

end FishOS.Fs
