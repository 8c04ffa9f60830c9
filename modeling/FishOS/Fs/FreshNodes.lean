import FishOS.Fs.Lookup
import FishOS.Fs.Unpack

/-!
# New nodes in recycled memory

Trees over any heap. Apart from the redirects that the constructor leaves as they were, a tree does
not depend on what the heap held: `cleared` is the tree that a heap of null pointers would give.
-/

namespace FishOS.Fs

open Klib

def Node.cleared (node : Node) : Node := if node.type = .none then node else { node with redirect := none }

namespace Vfs

def cleared (v : Vfs) : Vfs := { v with nodes := v.nodes.map Node.cleared, heap := fun _ => none }

/-- Every node that is no dot entry resolves to itself, and the dot entries of every directory
resolve in one step. -/
structure NodesResolve (v : Vfs) : Prop where
  plain : ∀ p (node : Node), v.nodes[p]? = some node → node.type ≠ .none → v.reduceNode p = some p
  dot : ∀ d (dir : Node), v.nodes[d]? = some dir → dir.type = .directory →
    ∃ p, dir.children.get dotName = some p ∧ v.Redirects p d ∧ v.reduceNode p = some d
  dotdot : ∀ d (dir : Node), v.nodes[d]? = some dir → dir.type = .directory →
    ∃ p, dir.children.get dotdotName = some p ∧ v.Redirects p (dir.parent.getD d) ∧
      v.reduceNode p = some (dir.parent.getD d)

variable {v v' : Vfs} {heap : Nat → Option Nat} {fs : Option FileSystem} {parent made : Option Nat} {p q t : Nat}
  {node dir : Node} {name : CString} {children : HashMap Nat} {fresh : List Node}

@[simp] theorem type_cleared (node : Node) : node.cleared.type = node.type := by
  unfold Node.cleared
  split <;> rfl

@[simp] theorem fs_cleared (node : Node) : node.cleared.fs = node.fs := by
  unfold Node.cleared
  split <;> rfl

@[simp] theorem parent_cleared (node : Node) : node.cleared.parent = node.parent := by
  unfold Node.cleared
  split <;> rfl

@[simp] theorem name_cleared (node : Node) : node.cleared.name = node.name := by
  unfold Node.cleared
  split <;> rfl

@[simp] theorem children_cleared (node : Node) : node.cleared.children = node.children := by
  unfold Node.cleared
  split <;> rfl

theorem cleared_with (node : Node) (children : HashMap Nat) :
    ({ node with children := children } : Node).cleared = { node.cleared with children := children } := by
  unfold Node.cleared
  split <;> rfl

theorem read_cleared (read : v.nodes[p]? = some node) : v.cleared.nodes[p]? = some node.cleared := by
  unfold cleared
  rw [List.getElem?_map, read, Option.map_some]

theorem of_read_cleared (read : v.cleared.nodes[p]? = some node) :
    ∃ old, v.nodes[p]? = some old ∧ old.cleared = node := by
  unfold cleared at read
  dsimp only at read
  rw [List.getElem?_map] at read
  exact Option.map_eq_some_iff.mp read

theorem length_cleared (v : Vfs) : v.cleared.nodes.length = v.nodes.length := List.length_map _

theorem cleared_grown : (v.grown q children fresh).cleared = v.cleared.grown q children (fresh.map Node.cleared) := by
  unfold cleared grown
  dsimp only
  rw [List.map_append]
  congr 2
  apply List.ext_getElem?
  intro i
  rw [List.getElem?_map, List.getElem?_modify, List.getElem?_modify, List.getElem?_map]
  cases v.nodes[i]? with
  | none => rfl
  | some node =>
    by_cases here : q = i
    · simp [here, cleared_with]
    · simp [here]

theorem directoryNodes_cleared (v : Vfs) (fs : Option FileSystem) (parent : Option Nat) (name : CString)
    (children : HashMap Nat) :
    (v.directoryNodes fs parent name children).map Node.cleared = v.cleared.directoryNodes fs parent name children := by
  unfold directoryNodes
  rw [length_cleared]
  rfl

theorem create_cleared {type : NodeType} (tree : v.cleared.Tree) (read : v.nodes[q]? = some dir)
    (directory : dir.type = .directory) (absent : dir.children.get name = none)
    (call : v.create dir.fs (some q) name type = some (v', made)) :
    v.cleared.create dir.cleared.fs (some q) name type = some (v'.cleared, made) := by
  have ok := tree.directory q dir.cleared (read_cleared read) (by rwa [type_cleared])
  have sound := ok.sound
  rw [children_cleared] at sound
  obtain ⟨children, inserted, -⟩ := HashMap.get_insert sound absent v.nodes.length
  have inserted' : dir.cleared.children.insert name v.cleared.nodes.length = some children := by
    rw [children_cleared, length_cleared, inserted]
  rw [fs_cleared]
  cases type with
  | none =>
    obtain ⟨rfl, rfl⟩ := Prod.mk.inj (Option.some.inj call)
    rfl
  | file =>
    obtain ⟨rfl, rfl⟩ := Prod.mk.inj (Option.some.inj ((create_file_eq read inserted).symm.trans call))
    rw [create_file_eq (read_cleared read) inserted', cleared_grown, length_cleared]
    rfl
  | directory =>
    obtain ⟨dots, dotted, -⟩ := dotChildren_spec v.nodes.length
    have dotted' : dotChildren v.cleared.nodes.length = some dots := by rw [length_cleared, dotted]
    obtain ⟨rfl, rfl⟩ := Prod.mk.inj (Option.some.inj ((create_directory_eq read inserted dotted).symm.trans call))
    rw [create_directory_eq (read_cleared read) inserted' dotted', cleared_grown, directoryNodes_cleared, length_cleared]

theorem Built.cleared (built : Built heap v) : Built (fun _ => none) v.cleared := by
  induction built with
  | init made =>
    obtain ⟨dots, dotted, same⟩ := init_spec heap
    obtain ⟨dots', dotted', same'⟩ := init_spec fun _ => none
    obtain rfl := Option.some.inj (same.symm.trans made)
    obtain rfl := Option.some.inj (dotted.symm.trans dotted')
    exact .init same'
  | create before read directory nonempty slashFree fresh made ih =>
    have tree := ih.tree fun _ => rfl
    have made' := create_cleared tree read directory fresh made
    exact .create ih (read_cleared read) (by rwa [type_cleared]) nonempty slashFree (by rwa [children_cleared]) made'

/-- What the constructor does not set is what the heap block held. -/
theorem Built.heapRedirects (built : Built heap v) : v.HeapRedirects 0 := by
  induction built with
  | init made =>
    obtain ⟨dots, -, same⟩ := init_spec heap
    obtain rfl := Option.some.inj (same.symm.trans made)
    intro p node _ read plain
    rcases p with _ | _ | _ | p
    · obtain rfl := Option.some.inj read
      rfl
    · obtain rfl := Option.some.inj read
      exact absurd rfl plain
    · obtain rfl := Option.some.inj read
      exact absurd rfl plain
    · cases read
  | create before read directory nonempty slashFree fresh made ih => exact ih.create made

theorem Built.redirect (built : Built heap v) (read : v.nodes[p]? = some node) (plain : node.type ≠ .none) :
    node.redirect = heap p := (built.heapRedirects p node (Nat.zero_le p) read plain).trans (congrFun built.heap_eq p)

/-- Only a dot entry still has a redirect in the cleared tree. -/
theorem Redirects.of_cleared (redirects : v.cleared.Redirects p t) : v.Redirects p t := by
  obtain ⟨node, read, redirect⟩ := redirects
  obtain ⟨old, oldRead, rfl⟩ := of_read_cleared read
  refine ⟨old, oldRead, ?_⟩
  unfold Node.cleared at redirect
  split at redirect
  · exact redirect
  · cases redirect

/-- In every tree, whatever the heap held: nodes resolve to themselves and dot entries to directories
if and only if the block of every node but the dot entries held a null pointer where `redirect` lies. -/
theorem fresh_nodes_resolve_iff (built : Built heap v) :
    v.NodesResolve ↔ ∀ p (node : Node), v.nodes[p]? = some node → node.type ≠ .none → heap p = none := by
  constructor
  · intro resolve p node read plain
    obtain ⟨node', read', null⟩ := reduceDepth_null (resolve.plain p node read plain)
    obtain rfl := Option.some.inj (read.symm.trans read')
    rw [← built.redirect read plain, null]
  · intro null
    have tree := built.cleared.tree fun _ => rfl
    have cleared : ∀ {p : Nat} {node : Node}, v.nodes[p]? = some node → node.type ≠ .none → node.redirect = none :=
      fun read plain => (built.redirect read plain).trans (null _ _ read plain)
    have plain : ∀ {dir : Node}, dir.type = .directory → dir.type ≠ .none := fun directory => by
      rw [directory]
      exact nofun
    refine ⟨fun p node read type => reduceNode_null read (cleared read type), ?_, ?_⟩
    · intro d dir read directory
      obtain ⟨p, found, redirects⟩ := (tree.directory d _ (read_cleared read) (by rwa [type_cleared])).dot
      rw [children_cleared] at found
      exact ⟨p, found, redirects.of_cleared,
        reduceNode_redirects redirects.of_cleared read (cleared read (plain directory))⟩
    · intro d dir read directory
      obtain ⟨p, found, redirects⟩ := (tree.directory d _ (read_cleared read) (by rwa [type_cleared])).dotdot
      obtain ⟨holder, holderRead, holderType⟩ := tree.parent_read (read_cleared read) (by rwa [type_cleared])
      rw [children_cleared] at found
      rw [parent_cleared] at redirects holderRead
      obtain ⟨old, oldRead, rfl⟩ := of_read_cleared holderRead
      rw [type_cleared] at holderType
      exact ⟨p, found, redirects.of_cleared,
        reduceNode_redirects redirects.of_cleared oldRead (cleared oldRead (plain holderType))⟩

/-- A heap of null pointers. -/
theorem fresh_nodes_resolve_iff_bin : ∃ v, Built (fun _ => none) v ∧ v.IsDirectory 3 ∧ v.NodesResolve := by
  obtain ⟨v, built, _, directory, _⟩ := exists_binTree
  exact ⟨v, built, directory, (fresh_nodes_resolve_iff built).mpr fun _ _ _ _ => rfl⟩

/-- The block of a new file held a pointer to the root, and the file resolves to the root. -/
theorem recycled_node_resolves_elsewhere : ∃ heap v, Built heap v ∧
    (∃ node, v.nodes[3]? = some node ∧ node.type = .file) ∧ v.reduceNode 3 = some 0 ∧ ¬v.NodesResolve := by
  let heap : Nat → Option Nat := fun p => if p = 3 then some 0 else none
  obtain ⟨dots, dotted, made⟩ := init_spec heap
  obtain ⟨dots', dotted', sound, get⟩ := dotChildren_spec 0
  obtain rfl := Option.some.inj (dotted.symm.trans dotted')
  have absent : dots.get binName = none := (get binName).trans (by decide)
  obtain ⟨children, inserted, -⟩ := HashMap.get_insert sound absent 3
  obtain ⟨v, made, dir, read, directory, null, same, length⟩ : ∃ v, init heap = some v ∧
      ∃ dir, v.nodes[0]? = some dir ∧ dir.type = .directory ∧ dir.redirect = none ∧ dir.children = dots ∧
        v.nodes.length = 3 :=
    ⟨_, made, _, rfl, rfl, rfl, rfl, rfl⟩
  have inserted' : dir.children.insert binName v.nodes.length = some children := by rw [same, length, inserted]
  have built := Built.create (.init made) read directory (by decide) (by decide) (by rw [same, absent])
    (create_file_eq read inserted')
  let file := v.plainNode v.nodes.length .file dir.fs (some 0) binName (HashMap.create 16)
  have placed : (v.grown 0 children [file]).nodes[3]? = some file := by
    rw [← length]
    exact nodes_grown_new 0
  have type : file.type ≠ .none := nofun
  have redirects := (built.redirect placed type).trans (show heap 3 = some 0 from rfl)
  have resolved := reduceNode_redirects ⟨_, placed, redirects⟩ (nodes_grown_old read) null
  refine ⟨heap, _, built, ⟨_, placed, rfl⟩, resolved, fun resolve => ?_⟩
  have itself := resolve.plain 3 _ placed type
  rw [resolved] at itself
  cases itself

end Vfs

end FishOS.Fs
