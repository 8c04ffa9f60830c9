import FishOS.Fs.Tmpfs
import FishOS.Klib.HashMap

/-!
# The virtual file system

`fs::vfs` over nodes that are only ever allocated: a node pointer is the index of the node in the
order of allocation. Every null pointer or stray pointer that is followed, and every read behind
the end of a string, is `none`.
-/

namespace FishOS.Fs

open Klib

inductive NodeType where
  | none
  | file
  | directory
  deriving DecidableEq

/-- The instance of `tmpfs` that `vfs::init` makes; there is no other file system. -/
inductive FileSystem where
  | tmpfs
  deriving DecidableEq

/-- `data` is set for files, and `children` is there in directories. -/
structure Node where
  type : NodeType
  fs : Option FileSystem
  data : NodeData
  redirect : Option Nat
  parent : Option Nat
  name : CString
  children : HashMap Nat

/-- No constructor sets `redirect`: a new node has there the pointer that its heap block held. -/
structure Vfs where
  nodes : List Node
  root : Option Nat
  heap : Nat → Option Nat

def slash : UInt8 := 0x2F

def emptyName : CString := ⟨[], by decide⟩

def dotName : CString := ⟨[0x2E], by decide⟩

def dotdotName : CString := ⟨[0x2E, 0x2E], by decide⟩

namespace Vfs

def newNode (v : Vfs) (type : NodeType) (fs : Option FileSystem) (parent : Option Nat) (name : CString) : Vfs × Nat :=
  let node : Node :=
    { type := type, fs := fs, data := NodeData.create, redirect := v.heap v.nodes.length, parent := parent, name := name,
      children := HashMap.create 16 }
  ({ v with nodes := v.nodes ++ [node] }, v.nodes.length)

def modify (v : Vfs) (p : Nat) (f : Node → Node) : Vfs := { v with nodes := v.nodes.modify p f }

def insertChild (v : Vfs) (dir : Nat) (name : CString) (node : Nat) : Option Vfs := do
  let dir_node ← v.nodes[dir]?
  let children ← dir_node.children.insert name node
  some (v.modify dir fun n => { n with children := children })

/-- `DirectoryNode::create_dotentries`. -/
def createDotentries (v : Vfs) (this : Nat) : Option Vfs := do
  let node ← v.nodes[this]?
  let (v, dot) := v.newNode .none node.fs (some this) dotName
  let (v, dotdot) := v.newNode .none node.fs (some this) dotdotName
  let v := v.modify dot fun n => { n with redirect := some this }
  let v := v.modify dotdot fun n => { n with redirect := some (node.parent.getD this) }
  let v ← v.insertChild this dotName dot
  v.insertChild this dotdotName dotdot

/-- `tmpfs::create`. -/
def create (v : Vfs) (fs : Option FileSystem) (parent : Option Nat) (name : CString) :
    NodeType → Option (Vfs × Option Nat)
  | .file => do
    let (v, node) := v.newNode .file fs parent name
    let parent ← parent
    let v ← v.insertChild parent name node
    some (v, some node)
  | .directory => do
    let (v, node) := v.newNode .directory fs parent name
    let v ← v.createDotentries node
    match parent with
    | some parent => do
      let v ← v.insertChild parent name node
      some (v, some node)
    | none => some (v, some node)
  | .none => some (v, none)

/-- `vfs::init` on what the heap holds. -/
def init (heap : Nat → Option Nat) : Option Vfs := do
  let (v, root) ← create { nodes := [], root := none, heap := heap } (some .tmpfs) none emptyName .directory
  some { v with root := root }

/-- The file system trees that come from `init` by creating nodes in directories, under names
without a slash that the directory does not have yet. -/
inductive Built (heap : Nat → Option Nat) : Vfs → Prop where
  | init {v : Vfs} (made : init heap = some v) : Built heap v
  | create {v v' : Vfs} {parent : Nat} {dir : Node} {name : CString} {type : NodeType} {node : Option Nat}
      (before : Built heap v) (read : v.nodes[parent]? = some dir) (directory : dir.type = .directory)
      (nonempty : name.chars ≠ []) (slashFree : slash ∉ name.chars) (fresh : dir.children.get name = none)
      (made : v.create dir.fs (some parent) name type = some (v', node)) : Built heap v'

/-- `reduce_node` with a bound on the length of the redirect chain. -/
def reduceDepth (v : Vfs) : Nat → Nat → Option Nat
  | 0, _ => none
  | depth + 1, p => do
    let node ← v.nodes[p]?
    match node.redirect with
    | some redirect => v.reduceDepth depth redirect
    | none => some p

/-- A longer chain runs in a circle. -/
def reduceNode (v : Vfs) (p : Nat) : Option Nat := v.reduceDepth (v.nodes.length + 1) p

structure PathToNodeResult where
  targetParent : Option Nat
  target : Option Nat
  basename : Option CString
  deriving DecidableEq

/-- The loop of `path_to_node`. Every round but the last cuts a component and a slash off. -/
def pathToNodeLoop (v : Vfs) : Nat → List UInt8 → Nat → Nat → Option PathToNodeResult
  | 0, _, _, _ => none
  | fuel + 1, path, path_len, current_node => do
    let dir_node ← v.nodes[current_node]?
    if dir_node.type ≠ .directory then some ⟨none, none, none⟩
    else
      let found ← strchr slash path
      let s := found.getD path_len
      let last := found = none ∨ s + 1 = path_len
      let entry_name_len := s
      if path.length < entry_name_len then none
      else
        let entry_name := CString.ofBytes (path.take entry_name_len)
        match dir_node.children.get entry_name with
        | none => some ⟨some current_node, none, some entry_name⟩
        | some next_node => do
          let target ← v.reduceNode next_node
          if last then some ⟨some current_node, some target, some entry_name⟩
          else v.pathToNodeLoop fuel (path.drop (entry_name_len + 1)) (path_len - (entry_name_len + 1)) target

def pathToNode (v : Vfs) (path : List UInt8) (starting_point : Option Nat) : Option PathToNodeResult := do
  let path_len ← strlen path
  if path_len = 0 then some ⟨none, none, none⟩
  else match starting_point with
    | some starting_point => v.pathToNodeLoop (path_len + 1) path path_len starting_point
    | none =>
      if path.head? ≠ some slash then some ⟨none, none, none⟩
      else do
        let root ← v.root
        v.pathToNodeLoop path_len (path.drop 1) (path_len - 1) root

end Vfs

end FishOS.Fs
