import FishOS.Fs.Lookup
import Mathlib.Data.List.Induction

/-!
# Walks in a growing tree

A walk by names other than the dot entries goes from directories to their children, so that at most
one of them leads to a node. A creation keeps the walks, and adds one to the new node.
-/

namespace FishOS.Fs

open Klib

namespace Vfs

variable {v v' : Vfs} {d p q t parent : Nat} {dir node : Node} {name k : CString}
  {names others before after : List CString} {children : HashMap Nat} {fresh : List Node} {result : PathToNodeResult}

/-- What a name in a directory leads to is the child of that name. -/
theorem Tree.lookup_child (tree : v.Tree) (ok : NameOk k) (stepped : v.lookup d k = some t) :
    ∃ node, v.nodes[t]? = some node ∧ node.type ≠ .none ∧ node.parent = some d ∧ node.name = k ∧ d < t := by
  obtain ⟨dir, read, stepped⟩ := Option.bind_eq_some_iff.mp stepped
  split at stepped
  · rename_i directory
    obtain ⟨p, found, reduced⟩ := Option.bind_eq_some_iff.mp stepped
    rcases (tree.directory d dir read directory).child k p found with dot | dotdot | ⟨node, childRead, type, up, name⟩
    · exact absurd dot ok.notDot
    · exact absurd dotdot ok.notDotdot
    · rw [tree.reduce_plain childRead type] at reduced
      obtain rfl := Option.some.inj reduced
      have older := (tree.plain p node childRead type).parent
      rw [up] at older
      exact ⟨node, childRead, type, up, name, older.1⟩
  · cases stepped

theorem Tree.walk_le (tree : v.Tree) (ok : ∀ name ∈ names, NameOk name) (walked : v.walk d names = some t) :
    d ≤ t := by
  induction names generalizing d with
  | nil =>
    obtain rfl := Option.some.inj walked
    exact Nat.le_refl _
  | cons name names ih =>
    obtain ⟨next, stepped, walked⟩ := Option.bind_eq_some_iff.mp walked
    obtain ⟨_, _, _, _, _, older⟩ := tree.lookup_child (ok name (.head _)) stepped
    have rest := ih (fun name member => ok name (.tail _ member)) walked
    exact Nat.le_trans (Nat.le_of_lt older) rest

theorem Tree.walk_first (tree : v.Tree) (nonempty : names ≠ []) (ok : ∀ name ∈ names, NameOk name)
    (walked : v.walk d names = some t) :
    ∃ p node, v.nodes[p]? = some node ∧ node.type ≠ .none ∧ node.parent = some d ∧ d < p ∧ p ≤ t := by
  obtain ⟨name, names, rfl⟩ := List.exists_cons_of_ne_nil nonempty
  obtain ⟨p, stepped, walked⟩ := Option.bind_eq_some_iff.mp walked
  obtain ⟨node, read, type, up, _, older⟩ := tree.lookup_child (ok name (.head _)) stepped
  exact ⟨p, node, read, type, up, older, tree.walk_le (fun name member => ok name (.tail _ member)) walked⟩

/-- By the last names, from the parent pointers. -/
theorem Tree.walk_unique (tree : v.Tree) (ok : ∀ name ∈ names, NameOk name)
    (others_ok : ∀ name ∈ others, NameOk name) (walked : v.walk d names = some t)
    (walked' : v.walk d others = some t) : names = others := by
  induction names using List.reverseRecOn generalizing others t with
  | nil =>
    obtain rfl := Option.some.inj walked
    by_contra different
    obtain ⟨_, _, _, _, _, younger, older⟩ := tree.walk_first (Ne.symm different) others_ok walked'
    omega
  | append_singleton names name ih =>
    rcases List.eq_nil_or_concat' others with rfl | ⟨others, other, rfl⟩
    · obtain rfl := Option.some.inj walked'
      obtain ⟨_, _, _, _, _, younger, older⟩ := tree.walk_first (by simp) ok walked
      omega
    · rw [walk_snoc] at walked walked'
      obtain ⟨q, above, stepped⟩ := Option.bind_eq_some_iff.mp walked
      obtain ⟨q', above', stepped'⟩ := Option.bind_eq_some_iff.mp walked'
      have last : ∀ {names : List CString} {name : CString}, name ∈ names ++ [name] :=
        List.mem_append_right _ (.head _)
      obtain ⟨node, read, _, up, rfl, _⟩ := tree.lookup_child (ok name last) stepped
      obtain ⟨node', read', _, up', rfl, _⟩ := tree.lookup_child (others_ok other last) stepped'
      obtain rfl := Option.some.inj (read.symm.trans read')
      obtain rfl := Option.some.inj (up.symm.trans up')
      rw [ih (fun name member => ok name (List.mem_append_left _ member))
        (fun name member => others_ok name (List.mem_append_left _ member)) above above']

theorem walk_absent (walked : v.walk d before = some q) (absent : v.lookup q k = none) (after : List CString) :
    v.walk d (before ++ k :: after) = none := by
  rw [walk_append, walked, Option.bind_some, walk_cons, absent, Option.bind_none]

theorem lookup_absent (read : v.nodes[q]? = some dir) (absent : dir.children.get k = none) :
    v.lookup q k = none := by
  unfold lookup
  rw [read, Option.bind_eq_bind, Option.bind_some, absent]
  split
  · rfl
  · rfl

theorem lookup_outside (other : ¬v.IsDirectory q) : v.lookup q k = none := by
  cases stepped : v.lookup q k with
  | none => rfl
  | some t =>
    obtain ⟨dir, read, stepped⟩ := Option.bind_eq_some_iff.mp stepped
    split at stepped
    · rename_i directory
      exact absurd ⟨dir, read, directory⟩ other
    · cases stepped

/-- Two walks along a path that both get no further end at the same place. -/
theorem walk_stuck {before' after' : List CString} {q' : Nat} (split : before ++ k :: after = before' ++ after')
    (walked : v.walk d before = some q) (absent : v.lookup q k = none) (walked' : v.walk d before' = some q')
    (stuck : ∀ x rest, after' = x :: rest → v.lookup q' x = none) :
    q' = q ∧ after' = k :: after := by
  rcases List.append_eq_append_iff.mp split with ⟨between, rfl, rest⟩ | ⟨between, rfl, rest⟩
  · cases between with
    | nil =>
      rw [List.append_nil, walked] at walked'
      exact ⟨(Option.some.inj walked').symm, rest.symm⟩
    | cons x between =>
      obtain ⟨rfl, _⟩ := List.cons.inj rest
      rw [walk_absent walked absent] at walked'
      cases walked'
  · cases between with
    | nil =>
      rw [List.append_nil, walked'] at walked
      exact ⟨Option.some.inj walked, rest⟩
    | cons x between =>
      rw [walk_absent walked' (stuck x _ rest)] at walked
      cases walked

/-- A lookup ends at the first component that is not there. -/
theorem Outcome.eq_missing (outcome : Outcome v d (before ++ k :: after) result)
    (walked : v.walk d before = some q) (read : v.nodes[q]? = some dir) (directory : dir.type = .directory)
    (absent : dir.children.get k = none) :
    result = ⟨some q, none, some k⟩ := by
  have none := lookup_absent read absent
  generalize names_eq : before ++ k :: after = names at outcome
  cases outcome with
  | found walked' =>
    rw [← names_eq, walk_absent walked none] at walked'
    cases walked'
  | @missing before' after' name q' dir' split walked' read' directory' absent' =>
    obtain ⟨rfl, rest⟩ := walk_stuck (names_eq.trans split) walked none walked' (by
      intro x rest same
      obtain ⟨rfl, _⟩ := List.cons.inj same
      exact lookup_absent read' absent')
    obtain ⟨rfl, _⟩ := List.cons.inj rest
    rfl
  | blocked split more walked' other =>
    obtain ⟨rfl, _⟩ := walk_stuck (names_eq.trans split) walked none walked' fun _ _ _ => lookup_outside other
    exact absurd ⟨dir, read, directory⟩ other

theorem reduceDepth_grown {depth more : Nat} (reduced : v.reduceDepth depth p = some t)
    (enough : depth ≤ more) :
    (v.grown parent children fresh).reduceDepth more p = some t := by
  induction depth generalizing more p with
  | zero => cases reduced
  | succ depth ih =>
    obtain ⟨more, rfl⟩ : ∃ n, more = n + 1 := ⟨more - 1, by omega⟩
    obtain ⟨node, read, reduced⟩ := Option.bind_eq_some_iff.mp reduced
    rw [reduceDepth, nodes_grown_old read, Option.bind_eq_bind, Option.bind_some, redirect_ite]
    split at reduced
    · exact ih reduced (by omega)
    · exact reduced

theorem reduceNode_grown (reduced : v.reduceNode p = some t) :
    (v.grown parent children fresh).reduceNode p = some t := by
  apply reduceDepth_grown reduced
  unfold grown
  dsimp only
  rw [List.length_append, List.length_modify]
  omega

theorem modify_grown (f : Node → Node) :
    (v.grown parent children fresh).modify v.nodes.length f = v.grown parent children (fresh.modify 0 f) := by
  have place := modify_append_right (l := v.nodes.modify parent fun n => { n with children := children })
    (r := fresh) (i := 0) (f := f)
  rw [List.length_modify, Nat.add_zero] at place
  unfold modify grown
  dsimp only
  rw [place]

theorem IsDirectory.grown (directory : v.IsDirectory d) : (v.grown parent children fresh).IsDirectory d := by
  obtain ⟨dir, read, type⟩ := directory
  refine ⟨_, nodes_grown_old read, ?_⟩
  rw [type_ite]
  exact type

namespace Creation

variable (c : Creation v parent dir name children fresh)
include c

theorem lookup_grown (stepped : v.lookup d k = some t) :
    (v.grown parent children fresh).lookup d k = some t := by
  obtain ⟨old, read, stepped⟩ := Option.bind_eq_some_iff.mp stepped
  split at stepped
  · rename_i directory
    obtain ⟨p, found, reduced⟩ := Option.bind_eq_some_iff.mp stepped
    have directory' : (if d = parent then { old with children := children } else old : Node).type = .directory := by
      rw [type_ite]
      exact directory
    rw [lookup_eq (nodes_grown_old read) directory', c.keeps read found, Option.bind_some]
    exact reduceNode_grown reduced
  · cases stepped

theorem walk_grown (walked : v.walk d names = some t) :
    (v.grown parent children fresh).walk d names = some t := by
  induction names generalizing d with
  | nil => exact walked
  | cons k names ih =>
    obtain ⟨next, stepped, walked⟩ := Option.bind_eq_some_iff.mp walked
    rw [walk_cons, c.lookup_grown stepped]
    exact ih walked

theorem walk_new (walked : v.walk d names = some parent) :
    (v.grown parent children fresh).walk d (names ++ [name]) = some v.nodes.length := by
  obtain ⟨node, read, type, _⟩ := c.first_read
  have found : children.get name = some v.nodes.length := by rw [c.get, if_pos rfl]
  have here : (v.grown parent children fresh).nodes[parent]? = some { dir with children := children } := by
    rw [nodes_grown_old c.read, if_pos rfl]
  rw [walk_snoc, c.walk_grown walked, Option.bind_some, lookup_eq here c.directory]
  dsimp only
  rw [found, Option.bind_some, c.grown_tree.reduce_plain read type]

theorem modify_data (f : NodeData → NodeData) :
    Creation v parent dir name children (fresh.modify 0 fun n => { n with data := f n.data }) where
  tree := c.tree
  read := c.read
  directory := c.directory
  nameOk := c.nameOk
  absent := c.absent
  sound := c.sound
  get := c.get
  new := by
    obtain ⟨⟨node, read, first⟩, others, dots⟩ := c.new
    obtain ⟨rest, rfl⟩ : ∃ rest, fresh = node :: rest := by
      cases fresh with
      | nil => cases read
      | cons x rest =>
        obtain rfl := Option.some.inj read
        exact ⟨rest, rfl⟩
    refine ⟨⟨_, rfl, first⟩, ?_, ?_⟩
    · intro i other found plain
      cases i with
      | zero => rfl
      | succ i => exact others (i + 1) other found plain
    · intro other found directory
      obtain rfl := Option.some.inj found
      exact dots node rfl directory

end Creation

end Vfs

end FishOS.Fs
