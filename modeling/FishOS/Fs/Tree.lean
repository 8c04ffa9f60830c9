import FishOS.Fs.Vfs

/-!
# Directory trees

What holds of the nodes of every tree that is built by creating nodes: the dot entries redirect to
their directory and its parent, a child and its directory point at each other, and parents are older
than their children.
-/

namespace FishOS.Fs

open Klib

theorem modify_append_left {α : Type} {l r : List α} {i : Nat} {f : α → α} (inside : i < l.length) :
    (l ++ r).modify i f = l.modify i f ++ r := by
  apply List.ext_getElem?
  grind

theorem modify_append_right {α : Type} {l r : List α} {i : Nat} {f : α → α} :
    (l ++ r).modify (l.length + i) f = l ++ r.modify i f := by
  apply List.ext_getElem?
  grind

namespace Vfs

/-- A node as its constructor leaves it at `p`, with the children it gets later. -/
def plainNode (v : Vfs) (p : Nat) (type : NodeType) (fs : Option FileSystem) (parent : Option Nat) (name : CString)
    (children : HashMap Nat) : Node :=
  { type := type, fs := fs, data := NodeData.create, redirect := v.heap p, parent := parent, name := name,
    children := children }

def dotNode (fs : Option FileSystem) (dir target : Nat) (name : CString) : Node :=
  { type := .none, fs := fs, data := NodeData.create, redirect := some target, parent := some dir, name := name,
    children := HashMap.create 16 }

/-- The children of a new directory at `p`. -/
def dotChildren (p : Nat) : Option (HashMap Nat) := do
  let children ← (HashMap.create 16).insert dotName (p + 1)
  children.insert dotdotName (p + 2)

/-- The nodes after children of `parent` have been replaced and new nodes have been allocated. -/
def grown (v : Vfs) (parent : Nat) (children : HashMap Nat) (fresh : List Node) : Vfs :=
  { v with nodes := (v.nodes.modify parent fun n => { n with children := children }) ++ fresh }

variable {v v' : Vfs} {fs : Option FileSystem} {parent p q : Nat} {dir node : Node} {name k : CString}
  {children : HashMap Nat} {fresh : List Node} {heap : Nat → Option Nat}

theorem get_create (k : CString) : (HashMap.create 16 : HashMap Nat).get k = none := by
  have sound : (HashMap.create 16 : HashMap Nat).Sound := HashMap.create_sound (by decide)
  rw [HashMap.get_eq_none_iff sound.distinct, HashMap.entries_create]
  exact List.not_mem_nil

theorem dotChildren_spec (p : Nat) : ∃ children, dotChildren p = some children ∧ children.Sound ∧
    ∀ k, children.get k =
      if k = dotdotName then some (p + 2) else if k = dotName then some (p + 1) else none := by
  obtain ⟨first, inserted, sound, get⟩ :=
    HashMap.get_insert (HashMap.create_sound (by decide)) (get_create dotName) (p + 1)
  have fresh : first.get dotdotName = none := by rw [get, get_create]; rfl
  obtain ⟨children, inserted', sound', get'⟩ := HashMap.get_insert sound fresh (p + 2)
  refine ⟨children, ?_, sound', ?_⟩
  · unfold dotChildren
    rw [inserted]
    exact inserted'
  · intro k
    rw [get', get, get_create]

theorem create_file_eq (read : v.nodes[parent]? = some dir)
    (inserted : dir.children.insert name v.nodes.length = some children) :
    v.create fs (some parent) name .file = some (v.grown parent children
      [v.plainNode v.nodes.length .file fs (some parent) name (HashMap.create 16)], some v.nodes.length) := by
  obtain ⟨inside, _⟩ := List.getElem?_eq_some_iff.mp read
  simp [create, newNode, insertChild, List.getElem?_append_left inside, read, inserted, modify, grown, plainNode,
    modify_append_left inside]

/-- The nodes that a new directory takes. -/
def directoryNodes (v : Vfs) (fs : Option FileSystem) (parent : Option Nat) (name : CString) (children : HashMap Nat) :
    List Node :=
  let p := v.nodes.length
  [v.plainNode p .directory fs parent name children, dotNode fs p p dotName, dotNode fs p (parent.getD p) dotdotName]

theorem createDotentries_eq (v : Vfs) (fs : Option FileSystem) (parent : Option Nat) (name : CString)
    (dots : dotChildren v.nodes.length = some children) :
    (v.newNode .directory fs parent name).1.createDotentries v.nodes.length =
      some { v with nodes := v.nodes ++ v.directoryNodes fs parent name children } := by
  unfold dotChildren at dots
  obtain ⟨first, inserted, inserted'⟩ := Option.bind_eq_some_iff.mp dots
  have head : ∀ (nodes : List Node) (f : Node → Node), (v.nodes ++ nodes).modify v.nodes.length f =
      v.nodes ++ nodes.modify 0 f := fun nodes f => modify_append_right (i := 0)
  simp [createDotentries, newNode, insertChild, directoryNodes, plainNode, dotNode, modify, inserted, inserted', head,
    modify_append_right]

theorem create_directory_eq (read : v.nodes[parent]? = some dir)
    (inserted : dir.children.insert name v.nodes.length = some children) {dots : HashMap Nat}
    (dotted : dotChildren v.nodes.length = some dots) :
    v.create fs (some parent) name .directory = some (v.grown parent children
      (v.directoryNodes fs (some parent) name dots), some v.nodes.length) := by
  obtain ⟨inside, _⟩ := List.getElem?_eq_some_iff.mp read
  have made := createDotentries_eq v fs (some parent) name dotted
  simp only [newNode] at made
  simp [create, newNode, made, insertChild, List.getElem?_append_left inside, read, inserted, modify, grown,
    modify_append_left inside]

theorem nodes_grown_old (read : v.nodes[q]? = some node) :
    (v.grown parent children fresh).nodes[q]? =
      some (if q = parent then { node with children := children } else node) := by
  obtain ⟨inside, _⟩ := List.getElem?_eq_some_iff.mp read
  unfold grown
  dsimp only
  rw [List.getElem?_append_left (by simpa using inside), List.getElem?_modify, read]
  by_cases same : q = parent
  · simp [same]
  · simp [same, Ne.symm same]

section

/-! A node that may have got other children is as before otherwise. -/

variable (c : Prop) [Decidable c] (node : Node) (children : HashMap Nat)

@[simp] theorem type_ite :
    (if c then { node with children := children } else node : Node).type = node.type := by
  split
  · rfl
  · rfl

@[simp] theorem fs_ite : (if c then { node with children := children } else node : Node).fs = node.fs := by
  split
  · rfl
  · rfl

@[simp] theorem data_ite :
    (if c then { node with children := children } else node : Node).data = node.data := by
  split
  · rfl
  · rfl

@[simp] theorem redirect_ite :
    (if c then { node with children := children } else node : Node).redirect = node.redirect := by
  split
  · rfl
  · rfl

@[simp] theorem parent_ite :
    (if c then { node with children := children } else node : Node).parent = node.parent := by
  split
  · rfl
  · rfl

@[simp] theorem name_ite :
    (if c then { node with children := children } else node : Node).name = node.name := by
  split
  · rfl
  · rfl

end

theorem nodes_grown_new (i : Nat) : (v.grown parent children fresh).nodes[v.nodes.length + i]? = fresh[i]? := by
  unfold grown
  dsimp only
  rw [List.getElem?_append_right (by simp)]
  simp

theorem nodes_grown_cases (read : (v.grown parent children fresh).nodes[q]? = some node) :
    (∃ old, v.nodes[q]? = some old ∧ node = if q = parent then { old with children := children } else old) ∨
      ∃ i, q = v.nodes.length + i ∧ fresh[i]? = some node := by
  by_cases inside : q < v.nodes.length
  · refine .inl ⟨v.nodes[q], List.getElem?_eq_getElem inside, ?_⟩
    rw [nodes_grown_old (List.getElem?_eq_getElem inside)] at read
    exact (Option.some.inj read).symm
  · have place : q = v.nodes.length + (q - v.nodes.length) := by omega
    rw [place, nodes_grown_new] at read
    exact .inr ⟨_, place, read⟩

def Redirects (v : Vfs) (p target : Nat) : Prop := ∃ node, v.nodes[p]? = some node ∧ node.redirect = some target

def IsDirectory (v : Vfs) (p : Nat) : Prop := ∃ node, v.nodes[p]? = some node ∧ node.type = .directory

/-- A name that a node can be created under. -/
structure NameOk (name : CString) : Prop where
  nonempty : name.chars ≠ []
  slashFree : slash ∉ name.chars
  notDot : name ≠ dotName
  notDotdot : name ≠ dotdotName

structure DirectoryOk (v : Vfs) (d : Nat) (dir : Node) : Prop where
  sound : dir.children.Sound
  dot : ∃ p, dir.children.get dotName = some p ∧ v.Redirects p d
  dotdot : ∃ p, dir.children.get dotdotName = some p ∧ v.Redirects p (dir.parent.getD d)
  child : ∀ k p, dir.children.get k = some p → k = dotName ∨ k = dotdotName ∨
    ∃ node, v.nodes[p]? = some node ∧ node.type ≠ .none ∧ node.parent = some d ∧ node.name = k

/-- A node other than a dot entry. Only the root has no parent. -/
structure PlainOk (v : Vfs) (p : Nat) (node : Node) : Prop where
  redirect : node.redirect = none
  fs : node.fs = some .tmpfs
  parent : match node.parent with
    | none => v.root = some p
    | some q => q < p ∧ NameOk node.name ∧
      ∃ dir, v.nodes[q]? = some dir ∧ dir.type = .directory ∧ dir.children.get node.name = some p

structure Tree (v : Vfs) : Prop where
  root : ∃ r dir, v.root = some r ∧ v.nodes[r]? = some dir ∧ dir.type = .directory ∧ dir.parent = none ∧
    dir.name = emptyName
  directory : ∀ d dir, v.nodes[d]? = some dir → dir.type = .directory → DirectoryOk v d dir
  plain : ∀ p node, v.nodes[p]? = some node → node.type ≠ .none → PlainOk v p node

/-- The nodes that a creation adds: the new node, and its dot entries if it is a directory. -/
structure Fresh (v : Vfs) (parent : Nat) (name : CString) (fresh : List Node) : Prop where
  first : ∃ node, fresh[0]? = some node ∧ node.type ≠ .none ∧ node.redirect = none ∧ node.fs = some .tmpfs ∧
    node.parent = some parent ∧ node.name = name
  others : ∀ i node, fresh[i]? = some node → node.type ≠ .none → i = 0
  dots : ∀ node, fresh[0]? = some node → node.type = .directory → node.children.Sound ∧
    (∀ k, node.children.get k = if k = dotdotName then some (v.nodes.length + 2) else
      if k = dotName then some (v.nodes.length + 1) else none) ∧
    (∃ dot, fresh[1]? = some dot ∧ dot.redirect = some v.nodes.length) ∧
    ∃ dotdot, fresh[2]? = some dotdot ∧ dotdot.redirect = some parent

theorem Redirects.grown {target : Nat} (redirects : v.Redirects p target) :
    (v.grown parent children fresh).Redirects p target := by
  obtain ⟨node, read, redirect⟩ := redirects
  refine ⟨_, nodes_grown_old read, ?_⟩
  rw [redirect_ite]
  exact redirect

theorem DirectoryOk.child_grown {d : Nat} (ok : DirectoryOk v d dir) (found : dir.children.get k = some p) :
    k = dotName ∨ k = dotdotName ∨ ∃ node, (v.grown parent children fresh).nodes[p]? = some node ∧
      node.type ≠ .none ∧ node.parent = some d ∧ node.name = k := by
  rcases ok.child k p found with dot | dotdot | ⟨node, read, type, up, name⟩
  · exact .inl dot
  · exact .inr (.inl dotdot)
  · refine .inr (.inr ⟨_, nodes_grown_old read, ?_⟩)
    rw [type_ite, parent_ite, name_ite]
    exact ⟨type, up, name⟩

/-- A node is created in a directory of the tree under a fresh name. -/
structure Creation (v : Vfs) (parent : Nat) (dir : Node) (name : CString) (children : HashMap Nat)
    (fresh : List Node) : Prop where
  tree : v.Tree
  read : v.nodes[parent]? = some dir
  directory : dir.type = .directory
  nameOk : NameOk name
  absent : dir.children.get name = none
  sound : children.Sound
  get : ∀ k, children.get k = if k = name then some v.nodes.length else dir.children.get k
  new : Fresh v parent name fresh

namespace Creation

variable {old : Node} (c : Creation v parent dir name children fresh)
include c

theorem inside : parent < v.nodes.length := (List.getElem?_eq_some_iff.mp c.read).1

theorem keeps (read : v.nodes[q]? = some old) (found : old.children.get k = some p) :
    (if q = parent then { old with children := children } else old : Node).children.get k = some p := by
  split
  · rename_i same
    rw [same, c.read] at read
    obtain rfl := Option.some.inj read
    rw [c.get, if_neg, found]
    rintro rfl
    rw [c.absent] at found
    cases found
  · exact found

theorem first_read : ∃ node, (v.grown parent children fresh).nodes[v.nodes.length]? = some node ∧
    node.type ≠ .none ∧ node.parent = some parent ∧ node.name = name := by
  obtain ⟨node, read, type, _, _, parent, name⟩ := c.new.first
  exact ⟨node, (nodes_grown_new 0).trans read, type, parent, name⟩

theorem directory_old {d : Nat} (read : v.nodes[d]? = some old) (type : old.type = .directory) :
    DirectoryOk (v.grown parent children fresh) d
      (if d = parent then { old with children := children } else old) := by
  have ok := c.tree.directory d old read type
  obtain ⟨dot, dotFound, dotRedirects⟩ := ok.dot
  obtain ⟨dotdot, dotdotFound, dotdotRedirects⟩ := ok.dotdot
  refine ⟨?_, ⟨dot, c.keeps read dotFound, dotRedirects.grown⟩, ⟨dotdot, c.keeps read dotdotFound, ?_⟩, ?_⟩
  · split
    · exact c.sound
    · exact ok.sound
  · rw [parent_ite]
    exact dotdotRedirects.grown
  · intro k p found
    split at found
    · rename_i same
      subst same
      rw [c.read] at read
      obtain rfl := Option.some.inj read
      dsimp only at found
      rw [c.get] at found
      split at found
      · rename_i same
        obtain rfl := Option.some.inj found
        obtain ⟨node, read, type, up, name⟩ := c.first_read
        exact .inr (.inr ⟨node, read, type, up, name.trans same.symm⟩)
      · exact ok.child_grown found
    · exact ok.child_grown found

theorem directory_new (read : fresh[0]? = some node) (type : node.type = .directory) :
    DirectoryOk (v.grown parent children fresh) v.nodes.length node := by
  obtain ⟨sound, get, ⟨dot, dotRead, dotRedirect⟩, ⟨dotdot, dotdotRead, dotdotRedirect⟩⟩ :=
    c.new.dots node read type
  obtain ⟨first, firstRead, _, _, _, up, _⟩ := c.new.first
  obtain rfl := Option.some.inj (read.symm.trans firstRead)
  have different : dotName ≠ dotdotName := by decide
  refine ⟨sound, ⟨_, ?_, dot, (nodes_grown_new 1).trans dotRead, dotRedirect⟩,
    ⟨_, ?_, dotdot, (nodes_grown_new 2).trans dotdotRead, ?_⟩, ?_⟩
  · rw [get, if_neg different, if_pos rfl]
  · rw [get, if_pos rfl]
  · rw [up]
    exact dotdotRedirect
  · intro k p found
    rw [get] at found
    split at found
    · rename_i same
      exact .inr (.inl same)
    · split at found
      · rename_i same
        exact .inl same
      · cases found

theorem plain_old (read : v.nodes[q]? = some old) (type : old.type ≠ .none) :
    PlainOk (v.grown parent children fresh) q
      (if q = parent then { old with children := children } else old) := by
  obtain ⟨redirect, fs, up⟩ := c.tree.plain q old read type
  refine ⟨?_, ?_, ?_⟩
  · rw [redirect_ite]
    exact redirect
  · rw [fs_ite]
    exact fs
  · rw [parent_ite, name_ite]
    cases at_parent : old.parent with
    | none =>
      rw [at_parent] at up
      exact up
    | some r =>
      rw [at_parent] at up
      obtain ⟨older, ok, holder, holderRead, holderType, found⟩ := up
      refine ⟨older, ok, _, nodes_grown_old holderRead, ?_, c.keeps holderRead found⟩
      rw [type_ite]
      exact holderType

theorem plain_new (read : fresh[0]? = some node) :
    PlainOk (v.grown parent children fresh) v.nodes.length node := by
  obtain ⟨first, firstRead, _, redirect, fs, up, name⟩ := c.new.first
  obtain rfl := Option.some.inj (read.symm.trans firstRead)
  refine ⟨redirect, fs, ?_⟩
  rw [up, name]
  refine ⟨c.inside, c.nameOk, _, nodes_grown_old c.read, ?_, ?_⟩
  · rw [if_pos rfl]
    exact c.directory
  · rw [if_pos rfl]
    exact (c.get _).trans (if_pos rfl)

theorem grown_tree : (v.grown parent children fresh).Tree where
  root := by
    obtain ⟨r, dir, root, read, type, up, name⟩ := c.tree.root
    refine ⟨r, _, root, nodes_grown_old read, ?_⟩
    rw [type_ite, parent_ite, name_ite]
    exact ⟨type, up, name⟩
  directory := by
    intro d node read type
    rcases nodes_grown_cases read with ⟨old, readOld, rfl⟩ | ⟨i, rfl, new⟩
    · rw [type_ite] at type
      exact c.directory_old readOld type
    · obtain rfl := c.new.others i node new (by rw [type]; exact nofun)
      exact c.directory_new new type
  plain := by
    intro p node read type
    rcases nodes_grown_cases read with ⟨old, readOld, rfl⟩ | ⟨i, rfl, new⟩
    · rw [type_ite] at type
      exact c.plain_old readOld type
    · obtain rfl := c.new.others i node new type
      exact c.plain_new new

end Creation

theorem DirectoryOk.nameOk {d : Nat} (ok : DirectoryOk v d dir) (nonempty : name.chars ≠ [])
    (slashFree : slash ∉ name.chars) (absent : dir.children.get name = none) : NameOk name := by
  obtain ⟨_, dot, _⟩ := ok.dot
  obtain ⟨_, dotdot, _⟩ := ok.dotdot
  refine ⟨nonempty, slashFree, ?_, ?_⟩
  · rintro rfl
    rw [absent] at dot
    cases dot
  · rintro rfl
    rw [absent] at dotdot
    cases dotdot

/-- The nodes that `create` allocates. -/
def nodesFor (type : NodeType) : Nat := if type = .directory then 3 else 1

/-- `tmpfs::create` in a directory of a tree, when the heap block of the new node holds a null pointer
where `redirect` lies. -/
theorem Tree.create (tree : v.Tree) (read : v.nodes[parent]? = some dir) (directory : dir.type = .directory)
    (nonempty : name.chars ≠ []) (slashFree : slash ∉ name.chars) (absent : dir.children.get name = none)
    (null : v.heap v.nodes.length = none) {type : NodeType} (plain : type ≠ .none) :
    ∃ children fresh, v.create dir.fs (some parent) name type =
        some (v.grown parent children fresh, some v.nodes.length) ∧
      Creation v parent dir name children fresh ∧ fresh.length = nodesFor type ∧
      ∃ node, fresh[0]? = some node ∧ node.type = type ∧ node.data = NodeData.create := by
  have ok := tree.directory parent dir read directory
  have fs : dir.fs = some .tmpfs := (tree.plain parent dir read (by rw [directory]; exact nofun)).fs
  obtain ⟨children, inserted, sound, get⟩ := HashMap.get_insert ok.sound absent v.nodes.length
  have creation : ∀ {fresh : List Node}, Fresh v parent name fresh → Creation v parent dir name children fresh :=
    fun new => ⟨tree, read, directory, ok.nameOk nonempty slashFree absent, absent, sound, get, new⟩
  cases type with
  | none => exact absurd rfl plain
  | file =>
    refine ⟨children, _, create_file_eq read inserted, creation ⟨?_, ?_, ?_⟩, rfl, _, rfl, rfl, rfl⟩
    · exact ⟨_, rfl, nofun, null, fs, rfl, rfl⟩
    · intro i node found _
      cases i with
      | zero => rfl
      | succ i => cases found
    · intro node found type
      obtain rfl := Option.some.inj found
      cases type
  | directory =>
    obtain ⟨dots, dotted, dotsSound, dotsGet⟩ := dotChildren_spec v.nodes.length
    refine ⟨children, _, create_directory_eq read inserted dotted, creation ⟨?_, ?_, ?_⟩, rfl, _, rfl, rfl, rfl⟩
    · exact ⟨_, rfl, nofun, null, fs, rfl, rfl⟩
    · intro i node found type
      rcases i with _ | _ | _ | i
      · rfl
      · obtain rfl := Option.some.inj found
        exact absurd rfl type
      · obtain rfl := Option.some.inj found
        exact absurd rfl type
      · cases found
    · intro node found _
      obtain rfl := Option.some.inj found
      exact ⟨dotsSound, dotsGet, ⟨_, rfl, rfl⟩, ⟨_, rfl, rfl⟩⟩

theorem init_spec (heap : Nat → Option Nat) : ∃ dots, dotChildren 0 = some dots ∧
    Vfs.init heap = some { nodes := directoryNodes { nodes := [], root := none, heap := heap } (some .tmpfs) none emptyName dots,
                           root := some 0, heap := heap } := by
  obtain ⟨dots, dotted, _, _⟩ := dotChildren_spec 0
  have made :=
    createDotentries_eq { nodes := [], root := none, heap := heap } (some .tmpfs) none emptyName dotted
  simp only [newNode, List.nil_append, List.length_nil] at made
  refine ⟨dots, dotted, ?_⟩
  simp [Vfs.init, Vfs.create, newNode, made]

theorem init_tree (null : heap 0 = none) (made : Vfs.init heap = some v) : v.Tree := by
  obtain ⟨dots, dotted, same⟩ := init_spec heap
  obtain ⟨dots', dotted', sound, get⟩ := dotChildren_spec 0
  obtain rfl := Option.some.inj (dotted.symm.trans dotted')
  obtain rfl := Option.some.inj (same.symm.trans made)
  have different : dotName ≠ dotdotName := by decide
  have plain : ∀ (i : Nat) (node : Node),
      (directoryNodes { nodes := [], root := none, heap := heap } (some .tmpfs) none emptyName dots)[i]? =
        some node →
      node.type ≠ .none → i = 0 ∧ node = plainNode { nodes := [], root := none, heap := heap } 0 .directory
        (some .tmpfs) none emptyName dots := by
    intro i node read type
    rcases i with _ | _ | _ | i
    · exact ⟨rfl, (Option.some.inj read).symm⟩
    · obtain rfl := Option.some.inj read
      exact absurd rfl type
    · obtain rfl := Option.some.inj read
      exact absurd rfl type
    · cases read
  refine ⟨⟨0, _, rfl, rfl, rfl, rfl, rfl⟩, ?_, ?_⟩
  · intro d dir read type
    obtain ⟨rfl, rfl⟩ := plain d dir read (by rw [type]; exact nofun)
    refine ⟨sound, ⟨1, ?_, _, rfl, rfl⟩, ⟨2, ?_, _, rfl, rfl⟩, ?_⟩
    · exact (get _).trans (by rw [if_neg different, if_pos rfl])
    · exact (get _).trans (if_pos rfl)
    · intro k p found
      have found : dots.get k = some p := found
      rw [get] at found
      split at found
      · rename_i same
        exact .inr (.inl same)
      · split at found
        · rename_i same
          exact .inl same
        · cases found
  · intro p node read type
    obtain ⟨rfl, rfl⟩ := plain p node read type
    exact ⟨null, rfl, rfl⟩

section Preserved

/-! What allocating a node, entering a child and redirecting a dot entry preserve, a creation preserves. -/

variable {P : Vfs → Prop}
  (allocated : ∀ {v : Vfs} {new : Option FileSystem} type parent name, P v →
    (new = fs ∨ ∃ node ∈ v.nodes, node.fs = new) → P (v.newNode type new parent name).1)
  (entered : ∀ {v : Vfs} p children, P v → P (v.modify p fun n => { n with children := children }))
  (redirected : ∀ {v : Vfs} p target, P v → (∀ node, v.nodes[p]? = some node → node.type = .none) →
    P (v.modify p fun n => { n with redirect := target }))

include entered in
theorem insertChild_preserves {child : Nat} (holds : P v) (call : v.insertChild p name child = some v') :
    P v' := by
  obtain ⟨_, _, call⟩ := Option.bind_eq_some_iff.mp call
  obtain ⟨_, _, call⟩ := Option.bind_eq_some_iff.mp call
  obtain rfl := Option.some.inj call
  exact entered p _ holds

include allocated entered redirected

theorem createDotentries_preserves (holds : P v) (call : v.createDotentries p = some v') : P v' := by
  obtain ⟨node, read, call⟩ := Option.bind_eq_some_iff.mp call
  obtain ⟨_, first, second⟩ := Option.bind_eq_some_iff.mp call
  have member := List.mem_of_getElem? read
  have dot := allocated .none (some p) dotName holds (.inr ⟨node, member, rfl⟩)
  have dotdot := allocated .none (some p) dotdotName dot (.inr ⟨node, List.mem_append_left _ member, rfl⟩)
  apply insertChild_preserves entered _ second
  apply insertChild_preserves entered _ first
  apply redirected
  · apply redirected
    · exact dotdot
    · intro dot read
      simp at read
      rw [← read]
  · intro dot read
    simp [modify] at read
    rw [← read]

theorem create_preserves {type : NodeType} {parent made : Option Nat} (holds : P v)
    (call : v.create fs parent name type = some (v', made)) : P v' := by
  cases type with
  | none =>
    obtain ⟨rfl, _⟩ := Prod.mk.inj (Option.some.inj call)
    exact holds
  | file =>
    obtain ⟨_, _, call⟩ := Option.bind_eq_some_iff.mp call
    obtain ⟨_, inserted, call⟩ := Option.bind_eq_some_iff.mp call
    obtain ⟨rfl, _⟩ := Prod.mk.inj (Option.some.inj call)
    exact insertChild_preserves entered (allocated .file parent name holds (.inl rfl)) inserted
  | directory =>
    obtain ⟨_, dotted, call⟩ := Option.bind_eq_some_iff.mp call
    have dots := createDotentries_preserves allocated entered redirected
      (allocated .directory parent name holds (.inl rfl)) dotted
    cases parent with
    | none =>
      obtain ⟨rfl, _⟩ := Prod.mk.inj (Option.some.inj call)
      exact dots
    | some parent =>
      obtain ⟨_, inserted, call⟩ := Option.bind_eq_some_iff.mp call
      obtain ⟨rfl, _⟩ := Prod.mk.inj (Option.some.inj call)
      exact insertChild_preserves entered dots inserted

end Preserved

theorem create_heap {type : NodeType} {parent made : Option Nat}
    (call : v.create fs parent name type = some (v', made)) :
    v'.heap = v.heap :=
  create_preserves (P := fun v₁ => v₁.heap = v.heap) (fun _ _ _ heap _ => heap) (fun _ _ heap => heap)
    (fun _ _ heap _ => heap) rfl call

theorem Built.heap_eq (built : Built heap v) : v.heap = heap := by
  induction built with
  | init made =>
    obtain ⟨_, _, same⟩ := init_spec heap
    obtain rfl := Option.some.inj (same.symm.trans made)
    rfl
  | create before read directory nonempty slashFree fresh made ih => exact (create_heap made).trans ih

/-- Every tree that is built when redirects of new nodes are null has the shape. -/
theorem Built.tree (null : ∀ p, heap p = none) (built : Built heap v) : v.Tree := by
  induction built with
  | init made => exact init_tree (null 0) made
  | @create v v' parent dir name type node before read directory nonempty slashFree fresh made ih =>
    by_cases plain : type = .none
    · subst plain
      obtain ⟨rfl, _⟩ := Prod.mk.inj (Option.some.inj made)
      exact ih
    · have holds : v.heap v.nodes.length = none := by rw [before.heap_eq, null]
      obtain ⟨children, new, same, creation, _⟩ := ih.create read directory nonempty slashFree fresh holds plain
      obtain ⟨rfl, _⟩ := Prod.mk.inj (Option.some.inj (same.symm.trans made))
      exact creation.grown_tree

end Vfs

end FishOS.Fs
