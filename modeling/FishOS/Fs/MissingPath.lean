import FishOS.Fs.Growth

/-!
# The parent of a missing path

A lookup that ends at a missing component returns the directory and the component that it was at,
the last one or an earlier one. Only for the last one do the two name the path that was looked up.
-/

namespace FishOS.Fs

open Klib

namespace Vfs

/-- A lookup without a target names the last component and the directory in front of it, so that
a creation there leads to a node at the whole path. -/
structure NamesParent (v : Vfs) (start : Nat) (names : List CString) (parent : Nat) (basename : Option CString) : Prop where
  last : basename = names.getLast?
  directory : v.walk start names.dropLast = some parent
  created : ∀ name type v' node, basename = some name → v.create (some .tmpfs) (some parent) name type = some (v', some node) →
    v'.walk start names = some node

def MissNamesParent (v : Vfs) (start : Nat) (names : List CString) (trailing : Bool) : Prop :=
  ∀ result parent, v.pathToNode (joinPath names trailing ++ [0]) (some start) = some result → result.target = none →
    result.targetParent = some parent → v.NamesParent start names parent result.basename

/-- A component in front of the last one is missing from a directory that the path leads to. -/
def StopsEarly (v : Vfs) (start : Nat) (names : List CString) : Prop :=
  ∃ before name after d dir, names = before ++ name :: after ∧ after ≠ [] ∧ v.walk start before = some d ∧
    v.nodes[d]? = some dir ∧ dir.type = .directory ∧ dir.children.get name = none

variable {v : Vfs} {d q start : Nat} {dir : Node} {name k : CString} {names before after : List CString}
  {trailing : Bool} {result : PathToNodeResult}

theorem walk_dropLast_absent (walked : v.walk d before = some q) (absent : v.lookup q k = none) (more : after ≠ []) :
    v.walk d (before ++ k :: after).dropLast = none := by
  rw [List.dropLast_append_of_ne_nil (List.cons_ne_nil _ _), List.dropLast_cons_of_ne_nil more]
  exact walk_absent walked absent _

theorem Tree.create_walk (tree : v.Tree) (null : ∀ p, v.heap p = none) (component : Component name)
    (walked : v.walk start before = some d) (read : v.nodes[d]? = some dir) (directory : dir.type = .directory)
    (absent : dir.children.get name = none) {type : NodeType} {v' : Vfs} {node : Nat}
    (created : v.create (some .tmpfs) (some d) name type = some (v', some node)) :
    v'.walk start (before ++ [name]) = some node := by
  have fs : dir.fs = some .tmpfs := (tree.plain d dir read (by rw [directory]; exact nofun)).fs
  have plain : type ≠ .none := by
    rintro rfl
    cases created
  obtain ⟨children, fresh, called, creation, _⟩ :=
    tree.create read directory component.nonempty component.slashFree absent (null _) plain
  rw [fs, created] at called
  obtain ⟨rfl, rfl⟩ : v' = v.grown d children fresh ∧ node = v.nodes.length := by simpa using called
  exact creation.walk_new walked

theorem Outcome.namesParent (tree : v.Tree) (null : ∀ p, v.heap p = none)
    (components : ∀ name ∈ names, Component name) (outcome : Outcome v start names result)
    (whole : ¬v.StopsEarly start names) (missed : result.target = none) {parent : Nat}
    (named : result.targetParent = some parent) : v.NamesParent start names parent result.basename := by
  cases outcome with
  | found walked => cases missed
  | blocked split more walked other => cases named
  | @missing before after name d' dir split walked read directory absent =>
    obtain rfl := Option.some.inj named
    have last : after = [] := by
      by_contra more
      exact whole ⟨before, name, after, d', dir, split, more, walked, read, directory, absent⟩
    subst last
    subst split
    refine ⟨by simp, by simpa using walked, ?_⟩
    rintro _ type v' node ⟨⟩ created
    exact tree.create_walk null (components name (by simp)) walked read directory absent created

/-- A missing path names its true parent exactly when no component in front of the last one is
missing from a directory. -/
theorem miss_names_parent_iff (built : Built (fun _ => none) v) (inside : v.IsDirectory start) (nonempty : names ≠ [])
    (components : ∀ name ∈ names, Component name) (trailing : Bool) :
    v.MissNamesParent start names trailing ↔ ¬v.StopsEarly start names := by
  have tree := built.tree fun _ => rfl
  have null : ∀ p, v.heap p = none := fun p => congrFun built.heap_eq p
  obtain ⟨result, returned, outcome⟩ := tree.pathToNode_outcome inside nonempty components trailing
  constructor
  · rintro names_parent ⟨before, name, after, d, dir, split, more, walked, read, directory, absent⟩
    rw [split] at outcome
    obtain rfl := outcome.eq_missing walked read directory absent
    have resolved := (names_parent _ d returned rfl rfl).directory
    rw [split, walk_dropLast_absent walked (lookup_absent read absent) more] at resolved
    cases resolved
  · intro whole result' parent returned' missed named
    obtain rfl := Option.some.inj (returned.symm.trans returned')
    exact outcome.namesParent tree null components whole missed named

theorem not_stopsEarly_single (v : Vfs) (start : Nat) (name : CString) : ¬v.StopsEarly start [name] := by
  rintro ⟨before, k, after, d, dir, split, more, _⟩
  cases before with
  | nil => exact more (List.cons.inj split).2.symm
  | cons _ before => cases before <;> simp at split

/-- The path `bin` in the directory `bin`. -/
theorem miss_names_parent_iff_bin : ∃ v, Built (fun _ => none) v ∧ v.MissNamesParent 3 [binName] false := by
  obtain ⟨v, built, _, directory, _⟩ := exists_binTree
  exact ⟨v, built, (miss_names_parent_iff built directory (List.cons_ne_nil _ _) component_bin false).mpr
    (not_stopsEarly_single v 3 binName)⟩

def shName : CString := ⟨[0x73, 0x68], by decide⟩

/-- In a root without `bin`, the lookup of `bin/sh` returns the root and the name `bin`, and a file created
there lies at `bin`. -/
theorem miss_names_wrong_parent : ∃ v v', Built (fun _ => none) v ∧ v.IsDirectory 0 ∧
    v.pathToNode (joinPath [binName, shName] false ++ [0]) (some 0) = some ⟨some 0, none, some binName⟩ ∧
    v.create (some .tmpfs) (some 0) binName .file = some (v', some v.nodes.length) ∧
    v'.walk 0 [binName] = some v.nodes.length ∧ v'.walk 0 [binName, shName] = none ∧
    ¬v.MissNamesParent 0 [binName, shName] false := by
  obtain ⟨dots, dotted, made⟩ := init_spec fun _ => none
  obtain ⟨dots', dotted', _, get⟩ := dotChildren_spec 0
  obtain rfl := Option.some.inj (dotted.symm.trans dotted')
  obtain ⟨v, made, dir, read, directory, absent, fs, length, null⟩ : ∃ v, init (fun _ => none) = some v ∧
      ∃ dir, v.nodes[0]? = some dir ∧ dir.type = .directory ∧ dir.children.get binName = none ∧
        dir.fs = some .tmpfs ∧ v.nodes.length = 3 ∧ v.heap v.nodes.length = none :=
    ⟨_, made, _, rfl, rfl, (get binName).trans (by decide), rfl, rfl, rfl⟩
  have built : Built (fun _ => none) v := .init made
  have tree := built.tree fun _ => rfl
  have components : ∀ name ∈ [binName, shName], Component name := by
    intro name member
    rcases List.mem_pair.mp member with rfl | rfl
    · exact ⟨by decide, by decide⟩
    · exact ⟨by decide, by decide⟩
  obtain ⟨children, fresh, called, creation, _, node, first, type, _⟩ :=
    tree.create read directory (by decide) (by decide) absent null (show NodeType.file ≠ .none from nofun)
  rw [fs] at called
  obtain ⟨result, returned, outcome⟩ := tree.pathToNode_outcome ⟨dir, read, directory⟩ (by simp) components false
  have start : v.walk 0 [] = some 0 := rfl
  have missed : Outcome v 0 ([] ++ binName :: [shName]) result := outcome
  obtain rfl := missed.eq_missing start read directory absent
  have walked : (v.grown 0 children fresh).walk 0 [binName] = some v.nodes.length := creation.walk_new start
  have file : (v.grown 0 children fresh).nodes[v.nodes.length]? = some node := (nodes_grown_new 0).trans first
  have behind : (v.grown 0 children fresh).lookup v.nodes.length shName = none :=
    Tree.lookup_other file (by rw [type]; exact nofun)
  refine ⟨v, _, built, ⟨dir, read, directory⟩, returned, called, walked, ?_, ?_⟩
  · exact walk_absent walked behind []
  · intro names_parent
    have last := (names_parent _ 0 returned rfl rfl).last
    exact absurd last (by decide)

end Vfs

end FishOS.Fs
