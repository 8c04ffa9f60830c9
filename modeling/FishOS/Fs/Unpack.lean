import FishOS.Fs.Archive
import FishOS.Fs.Growth
import FishOS.Lib.Fallible

/-!
# Unpacking an archive

Every entry takes nodes of its own, so the places of the nodes are known before the loader starts.
What the loader does with one entry in a tree is said once, for names that end and for names that
run on.
-/

namespace FishOS.Fs

open Klib Initramfs

/-- The entries beside the indices of their nodes, when `next` is the first that is free. -/
def places : Nat → List Entry → List (Nat × Entry)
  | _, [] => []
  | next, e :: entries => (if e.names = [] then [] else [(next, e)]) ++ places (next + e.taken) entries

namespace Vfs

/-- The node `p` is what the entry says, at the path that it names. -/
structure BuiltAs (v : Vfs) (dir p : Nat) (e : Entry) : Prop where
  node : ∃ node, v.nodes[p]? = some node ∧ node.type = e.type ∧
    (e.type = .file → node.data.size = e.data.length ∧ ∀ i c, e.data[i]? = some c → node.data.storage i = c)
  path : v.walk dir e.names = some p

/-- The tree has the nodes that the entries take besides those of `v`, and they are built. -/
structure Rebuilt (v v' : Vfs) (dir : Nat) (entries : List Entry) : Prop where
  length : v'.nodes.length = v.nodes.length + (entries.map Entry.taken).sum
  built : ∀ s ∈ places v.nodes.length entries, BuiltAs v' dir s.1 s.2

def EmptyDirectory (v : Vfs) (d : Nat) : Prop :=
  ∃ dir, v.nodes[d]? = some dir ∧ dir.type = .directory ∧ ∀ k p, dir.children.get k = some p → k = dotName ∨ k = dotdotName

/-- The nodes from `n` on that are no dot entries have the redirects that their blocks held. -/
def HeapRedirects (n : Nat) (v : Vfs) : Prop :=
  ∀ p node, n ≤ p → v.nodes[p]? = some node → node.type ≠ .none → node.redirect = v.heap p

end Vfs

variable {v v' v₀ : Vfs} {dir q n p t a stop fuel next : Nat} {m : Nat → Option UInt8} {block : Nat → UInt8}
  {fresh : Nat → Nat → UInt8} {e : Entry} {entries done : List Entry} {holder : Node} {k : CString}

theorem places_append (next : Nat) (done entries : List Entry) :
    places next (done ++ entries) = places next done ++ places (next + (done.map Entry.taken).sum) entries := by
  induction done generalizing next with
  | nil => rfl
  | cons e done ih =>
    rw [List.cons_append, places, places, ih, List.map_cons, List.sum_cons, List.append_assoc, Nat.add_assoc]

theorem le_of_mem_places {s : Nat × Entry} (member : s ∈ places next entries) : next ≤ s.1 := by
  induction entries generalizing next with
  | nil => cases member
  | cons e entries ih =>
    rcases List.mem_append.mp member with first | rest
    · split at first
      · cases first
      · rw [List.mem_singleton.mp first]
    · exact Nat.le_trans (Nat.le_add_right _ _) (ih rest)

theorem mem_of_mem_places {s : Nat × Entry} (member : s ∈ places next entries) :
    s.2 ∈ entries ∧ s.2.names ≠ [] := by
  induction entries generalizing next with
  | nil => cases member
  | cons e entries ih =>
    rcases List.mem_append.mp member with first | rest
    · split at first
      · cases first
      · rename_i named
        rw [List.mem_singleton.mp first]
        exact ⟨.head _, named⟩
    · exact ⟨.tail _ (ih rest).1, (ih rest).2⟩

theorem exists_place (member : e ∈ entries) (named : e.names ≠ []) (next : Nat) :
    ∃ p, (p, e) ∈ places next entries := by
  induction entries generalizing next with
  | nil => cases member
  | cons e' entries ih =>
    rcases List.mem_cons.mp member with rfl | member
    · refine ⟨next, List.mem_append_left _ ?_⟩
      rw [if_neg named]
      exact .head _
    · obtain ⟨p, found⟩ := ih member (next + e'.taken)
      exact ⟨p, List.mem_append_right _ found⟩

theorem deref_ok {α : Type} {o : Option α} {a : α} (returned : deref o = .ok a) : o = some a := by
  cases o with
  | none => cases returned
  | some a' => exact congrArg some (Except.ok.inj returned)

theorem deref_bind_ok {α β : Type} {o : Option α} {f : α → Except LoadFault β} {b : β}
    (returned : deref o >>= f = .ok b) : ∃ a, o = some a ∧ f a = .ok b := by
  obtain ⟨a, read, returned⟩ := Except.bind_ok returned
  exact ⟨a, deref_ok read, returned⟩

theorem deref_some_bind {α β : Type} (a : α) (f : α → Except LoadFault β) : (deref (some a) >>= f) = f a := rfl

section Preserved

/-! What creating nodes and writing to files preserve, the loader preserves. -/

variable {P : Vfs → Prop}
  (created : ∀ {v v' : Vfs} {fs parent name type node}, P v → v.create fs parent name type = some (v', node) → P v')
  (written : ∀ {v : Vfs} {p : Nat} {f : NodeData → NodeData}, P v → P (v.modify p fun n => { n with data := f n.data }))

include created in
theorem createIn_preserves {parent made : Option Nat} {type : NodeType} (holds : P v)
    (call : createIn v dir parent k type = .ok (v', made)) : P v' := by
  obtain ⟨_, _, call⟩ := deref_bind_ok call
  obtain ⟨_, _, call⟩ := deref_bind_ok call
  exact created holds (deref_ok call)

include created written

theorem createNode_preserves {current size : Nat} {parent : Option Nat} (holds : P v)
    (made : createNode v dir m block current size parent k = .ok v') : P v' := by
  obtain ⟨typeflag, _, made⟩ := deref_bind_ok made
  split at made
  · obtain ⟨⟨v₁, file⟩, called, made⟩ := Except.bind_ok made
    obtain ⟨node, _, made⟩ := deref_bind_ok made
    obtain ⟨bytes, _, made⟩ := deref_bind_ok made
    obtain rfl := Except.ok.inj made
    exact written (f := fun data => data.write _) (createIn_preserves created holds called)
  · split at made
    · obtain ⟨⟨v₁, directory⟩, called, made⟩ := Except.bind_ok made
      obtain rfl := Except.ok.inj made
      exact createIn_preserves created holds called
    · cases made

theorem loadEntry_preserves {current size : Nat} {name : List UInt8} (holds : P v)
    (loaded : loadEntry v dir m block current size name = .ok v') : P v' := by
  unfold loadEntry at loaded
  split at loaded
  · obtain ⟨result, _, loaded⟩ := deref_bind_ok loaded
    split at loaded
    · cases loaded
    · split at loaded
      · cases loaded
      · exact createNode_preserves created written holds loaded
  · obtain rfl := Except.ok.inj loaded
    exact holds

theorem load_preserves (holds : P v) (loaded : load dir m fresh stop fuel a v = .ok v') : P v' := by
  induction fuel generalizing a v with
  | zero => cases loaded
  | succ fuel ih =>
    obtain ⟨found, _, loaded⟩ := deref_bind_ok loaded
    split at loaded
    · obtain rfl := Except.ok.inj loaded
      exact holds
    · obtain ⟨size, _, loaded⟩ := deref_bind_ok loaded
      obtain ⟨name, _, loaded⟩ := deref_bind_ok loaded
      obtain ⟨v₁, entry, loaded⟩ := Except.bind_ok loaded
      have kept := loadEntry_preserves created written holds entry
      dsimp only at loaded
      split at loaded
      · obtain rfl := Except.ok.inj loaded
        exact kept
      · exact ih kept loaded

end Preserved

namespace Vfs

theorem HeapRedirects.newNode {type : NodeType} {fs : Option FileSystem} {parent : Option Nat} {name : CString}
    (holds : HeapRedirects n v) : HeapRedirects n (v.newNode type fs parent name).1 := by
  intro p node lower read plain
  unfold Vfs.newNode at read ⊢
  dsimp only at read ⊢
  rw [List.getElem?_append] at read
  split at read
  · exact holds p node lower read plain
  · obtain ⟨outside, rfl⟩ := List.getElem?_eq_some_iff.mp read
    rw [List.length_singleton] at outside
    have place : v.nodes.length = p := by omega
    rw [List.getElem_singleton]
    exact congrArg v.heap place

theorem HeapRedirects.modify {f : Node → Node} (holds : HeapRedirects n v)
    (kept : ∀ node, v.nodes[p]? = some node → (f node).type = node.type ∧
      (node.type = .none ∨ (f node).redirect = node.redirect)) :
    HeapRedirects n (v.modify p f) := by
  intro r node lower read plain
  unfold Vfs.modify at read ⊢
  dsimp only at read ⊢
  rw [List.getElem?_modify] at read
  obtain ⟨old, oldRead, same⟩ := Option.map_eq_some_iff.mp read
  by_cases here : p = r
  · subst here
    rw [if_pos rfl] at same
    obtain ⟨type, redirect⟩ := kept old oldRead
    rw [same] at type redirect
    rw [type] at plain
    rcases redirect with dot | redirect
    · exact absurd dot plain
    · rw [redirect]
      exact holds p old lower oldRead plain
  · rw [if_neg here] at same
    subst same
    exact holds r old lower oldRead plain

theorem HeapRedirects.create {type : NodeType} {fs : Option FileSystem} {parent made : Option Nat}
    (holds : HeapRedirects n v) (call : v.create fs parent k type = some (v', made)) : HeapRedirects n v' := by
  apply create_preserves _ _ _ holds call
  · intro v new type parent name holds _
    exact holds.newNode
  · intro v p children holds
    exact holds.modify fun _ _ => ⟨rfl, .inr rfl⟩
  · intro v p target holds dot
    exact holds.modify fun node read => ⟨rfl, .inl (dot node read)⟩

theorem reduceDepth_null {depth : Nat} (reduced : v.reduceDepth depth p = some t) :
    ∃ node, v.nodes[t]? = some node ∧ node.redirect = none := by
  induction depth generalizing p with
  | zero => cases reduced
  | succ depth ih =>
    obtain ⟨node, read, reduced⟩ := Option.bind_eq_some_iff.mp reduced
    split at reduced
    · exact ih reduced
    · rename_i null
      obtain rfl := Option.some.inj reduced
      exact ⟨node, read, null⟩

theorem walk_null {names : List CString} (nonempty : names ≠ []) (walked : v.walk dir names = some t) :
    ∃ node, v.nodes[t]? = some node ∧ node.redirect = none := by
  rw [← List.dropLast_concat_getLast nonempty, walk_snoc] at walked
  obtain ⟨d, _, stepped⟩ := Option.bind_eq_some_iff.mp walked
  obtain ⟨holder, _, stepped⟩ := Option.bind_eq_some_iff.mp stepped
  split at stepped
  · obtain ⟨_, _, reduced⟩ := Option.bind_eq_some_iff.mp stepped
    exact reduceDepth_null reduced
  · cases stepped

end Vfs

/-- A loader that rebuilds has found null pointers in the blocks of the nodes. -/
theorem heap_null (ok : ∀ e ∈ entries, e.Ok) (loaded : load dir m fresh stop fuel a v = .ok v')
    (rebuilt : v.Rebuilt v' dir entries) {s : Nat × Entry} (member : s ∈ places v.nodes.length entries) :
    v.heap s.1 = none := by
  have start : v.heap = v.heap ∧ v.HeapRedirects v.nodes.length := by
    refine ⟨rfl, ?_⟩
    intro p node lower read
    rw [List.getElem?_eq_none lower] at read
    cases read
  obtain ⟨heap, redirects⟩ := load_preserves (P := fun v₁ => v₁.heap = v.heap ∧ v₁.HeapRedirects v.nodes.length)
    (fun holds call => ⟨(Vfs.create_heap call).trans holds.1, holds.2.create call⟩)
    (fun holds => ⟨holds.1, holds.2.modify fun _ _ => ⟨rfl, .inr rfl⟩⟩) start loaded
  obtain ⟨inside, named⟩ := mem_of_mem_places member
  have built := rebuilt.built s member
  obtain ⟨node, read, type, _⟩ := built.node
  obtain ⟨node', read', null⟩ := Vfs.walk_null named built.path
  obtain rfl := Option.some.inj (read.symm.trans read')
  have plain : node.type ≠ .none := by
    rw [type]
    rcases (ok s.2 inside).type with file | directory
    · rw [file]
      exact nofun
    · rw [directory]
      exact nofun
  rw [← heap, ← redirects s.1 node (le_of_mem_places member) read plain, null]

/-- The write of the data of an entry to its new file. -/
def wholeWrite (data : List UInt8) (block : Nat → UInt8) : Write :=
  { buf := fun i => data.getD i 0, count := data.length, offset := 0, fresh := block }

theorem write_new (data : List UInt8) (small : data.length < 2 ^ 64) (block : Nat → UInt8) :
    (NodeData.create.write (wholeWrite data block)).size = data.length ∧
      ∀ i c, data[i]? = some c → (NodeData.create.write (wholeWrite data block)).storage i = c := by
  unfold NodeData.write wholeWrite
  dsimp only
  rw [Nat.zero_add, Nat.mod_eq_of_lt small]
  refine ⟨?_, ?_⟩
  · split
    · rfl
    · rename_i empty
      exact (Nat.eq_zero_of_not_pos empty).symm
  · intro i c here
    obtain ⟨inside, _⟩ := List.getElem?_eq_some_iff.mp here
    rw [Mem.copyIn_inside _ (Nat.zero_le i) (by omega), Nat.sub_zero, List.getD_eq_getElem?_getD, here]
    rfl

/-- The nodes that are made for an entry. -/
structure Made (e : Entry) (fresh : List Node) : Prop where
  length : fresh.length = Vfs.nodesFor e.type
  first : ∃ node, fresh[0]? = some node ∧ node.type = e.type ∧
    (e.type = .file → node.data.size = e.data.length ∧ ∀ i c, e.data[i]? = some c → node.data.storage i = c)

theorem Made.length_grown {nodes : List Node} (made : Made e nodes) (named : e.names ≠ []) (parent : Nat)
    (children : HashMap Nat) : (v.grown parent children nodes).nodes.length = v.nodes.length + e.taken := by
  unfold Vfs.grown Entry.taken
  dsimp only
  rw [List.length_append, List.length_modify, made.length, if_neg named]

/-- In a tree, `createNode` succeeds in every directory that does not have the name. -/
theorem createNode_eq (tree : v.Tree) (top : v.IsDirectory dir) (read : v.nodes[q]? = some holder)
    (directory : holder.type = .directory) (component : Component k) (absent : holder.children.get k = none)
    (null : v.heap v.nodes.length = none) (ok : e.Ok) (header : HeaderAt m a e) (block : Nat → UInt8) :
    ∃ children fresh, createNode v dir m block a e.data.length (some q) k = .ok (v.grown q children fresh) ∧
      Vfs.Creation v q holder k children fresh ∧ Made e fresh := by
  obtain ⟨dir_node, topRead, topDirectory⟩ := top
  have fs := (tree.plain dir dir_node topRead (by rw [topDirectory]; exact nofun)).fs
  have holderFs := (tree.plain q holder read (by rw [directory]; exact nofun)).fs
  obtain ⟨typeflag, typeflagRead, flag⟩ := header.typeflag
  have bytes : readBytes m (a + headerSize) e.data.length = some e.data := readBytes_eq header.data
  have small : e.data.length < 2 ^ 64 := Nat.lt_of_lt_of_le header.length_lt (by decide)
  have made :=
    @Vfs.Tree.create v q holder k tree read directory component.nonempty component.slashFree absent null
  rw [holderFs] at made
  have create : ∀ {type : NodeType} {s : Vfs × Option Nat},
      v.create (some .tmpfs) (some q) k type = some s → createIn v dir (some q) k type = .ok s := by
    intro type s called
    unfold createIn
    rw [topRead, deref_some_bind, fs, deref_some_bind, called]
    rfl
  unfold createNode
  rw [typeflagRead, deref_some_bind]
  rcases ok.type with file | directory'
  · rw [if_pos file] at flag
    obtain ⟨children, fresh, called, creation, length, node, first, type, data⟩ := @made .file nofun
    obtain ⟨size, storage⟩ := write_new e.data small block
    rw [if_pos flag, create called, Except.ok_bind]
    dsimp only
    rw [deref_some_bind, bytes, deref_some_bind, Vfs.modify_grown]
    refine ⟨children, _, rfl, creation.modify_data fun data => data.write (wholeWrite e.data block), ?_,
      { node with data := node.data.write (wholeWrite e.data block) }, ?_, ?_, ?_⟩
    · rw [List.length_modify, length, file]
    · rw [List.getElem?_modify, first]
      rfl
    · rw [file]
      exact type
    · intro _
      dsimp only
      rw [data]
      exact ⟨size, storage⟩
  · have other : e.type ≠ .file := by
      rw [directory']
      exact nofun
    rw [if_neg other] at flag
    obtain ⟨children, fresh, called, creation, length, node, first, type, _⟩ := @made .directory nofun
    rw [flag, if_neg (by decide), if_pos rfl, create called, Except.ok_bind]
    refine ⟨children, fresh, rfl, creation, ?_, node, first, ?_, fun file => absurd file other⟩
    · rw [length, directory']
    · rw [type, directory']

theorem pathToNode_outcome (tree : v.Tree) (top : v.IsDirectory dir) {names : List CString}
    (nonempty : names ≠ []) (ok : ∀ name ∈ names, Vfs.NameOk name) (trailing : Bool) :
    ∃ result, v.pathToNode (e.start ++ joinPath names trailing ++ [0]) (some dir) = some result ∧
      Vfs.Outcome v dir names result := by
  have components : ∀ name ∈ names, Component name := fun name member => (ok name member).component
  obtain ⟨result, plain, outcome⟩ := tree.pathToNode_outcome top nonempty components trailing
  obtain ⟨dir_node, read, directory⟩ := top
  obtain ⟨name, names, rfl⟩ := List.exists_cons_of_ne_nil nonempty
  have path := Vfs.joinPath_ne_nil (components name (.head _)) names trailing
  have noNul := Vfs.noNul_joinPath (name :: names) trailing
  refine ⟨result, ?_, outcome⟩
  unfold Entry.start
  split
  · obtain ⟨p, found, reduced⟩ := tree.reduce_dot read directory
    exact Vfs.path_behind read directory (by decide) found reduced noNul path plain
  · exact plain

/-- What the loader does with an entry below the top. The name that it looks for last is the one of the
entry when that ends. -/
theorem loadEntry_named (tree : v.Tree) (top : v.IsDirectory dir) (ok : e.Ok) (header : HeaderAt m a e)
    (room : a + headerSize ≤ 2 ^ 64) (named : e.names ≠ []) :
    ∃ name k more result, stringAt m (2 ^ 64 - a) a = some name ∧
      (∀ name ∈ e.names.dropLast ++ k :: more, Vfs.NameOk name) ∧ (k = e.names.getLast named ↔ e.NameEnds) ∧
      Vfs.Outcome v dir (e.names.dropLast ++ k :: more) result ∧
      ∀ block, loadEntry v dir m block a e.data.length name =
        if result.target ≠ none then .error .panic
        else match result.basename with
          | none => .error .panic
          | some basename => createNode v dir m block a e.data.length result.targetParent basename := by
  obtain ⟨tail, read, noNul, numbers, empty⟩ := header.name_read ok room
  obtain ⟨k, more, trailing, path, names, last⟩ := e.path_eq ok named noNul numbers
  have nonempty : e.names.dropLast ++ k :: more ≠ [] := by simp
  obtain ⟨result, returned, outcome⟩ := pathToNode_outcome (e := e) tree top nonempty names trailing
  refine ⟨_, k, more, result, read, names, ?_, outcome, ?_⟩
  · rw [last, empty]
    unfold Entry.NameEnds
    have short := ok.length
    constructor
    · rintro (slashed | few | zero) long
      · exact .inl slashed
      · omega
      · exact .inr zero
    · intro ends
      by_cases few : e.name.length < 100
      · exact .inr (.inl few)
      · rcases ends (by omega) with slashed | zero
        · exact .inl slashed
        · exact .inr (.inr zero)
  · intro block
    have other : strcmp (e.name ++ tail) topName ≠ 0 := by
      intro equal
      have whole : (0 : UInt8) ∉ e.name ++ tail := List.not_mem_append (Vfs.noNul_joinPath _ _) noNul
      have same := strcmp_eq_zero_iff (s := ⟨_, whole⟩) (t := ⟨topName, by decide⟩) |>.mp equal
      have chars : e.name ++ tail = topName := congrArg CString.chars same
      obtain ⟨first, rest, split⟩ := List.exists_cons_of_ne_nil nonempty
      rw [path, split] at chars
      exact Entry.ne_topName (names first (by rw [split]; exact .head _)) rest trailing chars
    unfold loadEntry
    rw [if_pos other, path, returned]
    rfl

/-- In a tree, an entry for which the loader goes on has been created under a path of plain names. -/
theorem loadEntry_created (tree : v.Tree) (top : v.IsDirectory dir) (ok : e.Ok) (header : HeaderAt m a e)
    (room : a + headerSize ≤ 2 ^ 64) (named : e.names ≠ []) (null : v.heap v.nodes.length = none)
    {name : List UInt8} (read : stringAt m (2 ^ 64 - a) a = some name)
    (loaded : loadEntry v dir m block a e.data.length name = .ok v') :
    ∃ q holder before k children nodes, v' = v.grown q children nodes ∧ Vfs.Creation v q holder k children nodes ∧
      Made e nodes ∧ v.walk dir before = some q ∧ (∀ name ∈ before, Vfs.NameOk name) ∧
      (before ++ [k] = e.names → e.NameEnds) := by
  obtain ⟨name', k, more, result, read', names, last, outcome, called⟩ := loadEntry_named tree top ok header room named
  obtain rfl := Option.some.inj (read.symm.trans read')
  rw [called] at loaded
  cases outcome with
  | found walked => cases loaded
  | blocked split more walked other => cases loaded
  | @missing before after basename q holder split walked holderRead directory absent =>
    have nameOk := names basename (by rw [split]; exact List.mem_append_right _ (.head _))
    obtain ⟨children, nodes, call, c, made⟩ :=
      createNode_eq tree top holderRead directory nameOk.component absent null ok header block
    dsimp only at loaded
    rw [if_neg (by simp), call] at loaded
    refine ⟨q, holder, before, basename, children, nodes, (Except.ok.inj loaded).symm, c, made, walked, ?_, ?_⟩
    · intro name member
      exact names name (by rw [split]; exact List.mem_append_left _ member)
    · intro same
      obtain ⟨init, final⟩ := List.append_inj' ((Entry.names_eq named).trans same.symm) rfl
      rw [init] at split
      obtain ⟨whole, _⟩ := List.cons.inj (List.append_cancel_left split)
      exact last.mp (whole.trans (List.cons.inj final).1.symm)

/-- The entry for the top is looked up unless a slash is behind its dot. -/
theorem loadEntry_top (tree : v.Tree) (top : v.IsDirectory dir) (ok : e.Ok) (header : HeaderAt m a e)
    (room : a + headerSize ≤ 2 ^ 64) (unnamed : e.names = []) :
    ∃ name, stringAt m (2 ^ 64 - a) a = some name ∧
      ∀ block, loadEntry v dir m block a e.data.length name = if e.trailing then .ok v else .error .panic := by
  obtain ⟨tail, read, _, _, empty⟩ := header.name_read ok room
  have none : tail = [] := empty.mpr (.inl (Entry.length_unnamed ok unnamed))
  rw [none, List.append_nil, Entry.name_unnamed ok unnamed] at read
  refine ⟨_, read, ?_⟩
  intro block
  unfold loadEntry
  cases e.trailing with
  | true => rfl
  | false =>
    have component : ∀ name ∈ [dotName], Component name := by
      rintro name (_ | ⟨_, ⟨⟩⟩)
      exact ⟨by decide, by decide⟩
    obtain ⟨result, returned, outcome⟩ := tree.pathToNode_outcome top (List.cons_ne_nil _ _) component false
    obtain ⟨dir_node, topRead, directory⟩ := top
    obtain ⟨p, found, reduced⟩ := tree.reduce_dot topRead directory
    have target : result.target = some dir := by
      rw [outcome.target_eq, Vfs.walk_cons, Vfs.lookup_eq topRead directory, found, Option.bind_some, reduced]
      rfl
    rw [Vfs.joinPath_bare] at returned
    rw [if_pos (by decide)]
    simp only [Bool.false_eq_true, if_false, List.append_nil]
    rw [returned, deref_some_bind, if_pos (by rw [target]; exact nofun)]

/-- The loop from where it has found whether there is more. -/
def resume (dir : Nat) (m : Nat → Option UInt8) (fresh : Nat → Nat → UInt8) (stop fuel current : Nat) (v : Vfs) :
    Except LoadFault Vfs :=
  if current ≥ stop then .ok v else load dir m fresh stop fuel current v

theorem load_entry (header : HeaderAt m a e) (small : a + headerSize + alignUp e.data.length < 2 ^ 64)
    {name : List UInt8} (read : stringAt m (2 ^ 64 - a) a = some name) :
    load dir m fresh stop (fuel + 1) a v = (loadEntry v dir m (fresh a) a e.data.length name).bind
      (resume dir m fresh stop fuel (a + headerSize + alignUp e.data.length)) := by
  rw [load, header.magic_read, deref_some_bind, if_neg (by simp), header.octal, deref_some_bind, read, deref_some_bind,
    Nat.mod_eq_of_lt small]
  rfl

theorem resume_end (archive : Archive m stop a []) : resume dir m fresh stop (fuel + 1) a v = .ok v := by
  unfold resume
  cases archive with
  | done => exact if_pos (Nat.le_refl _)
  | zeros room zero =>
    split
    · rfl
    · have blank :
          readBytes m (a + magicField) (List.replicate 6 (0 : UInt8)).length = some (List.replicate 6 0) := by
        apply readBytes_eq
        intro i c here
        obtain ⟨inside, rfl⟩ := List.getElem?_eq_some_iff.mp here
        rw [List.length_replicate] at inside
        have within : magicField + i < headerSize := by
          unfold magicField headerSize
          omega
        rw [List.getElem_replicate, Nat.add_assoc]
        exact zero _ within
      rw [List.length_replicate] at blank
      rw [load, blank, deref_some_bind, if_pos (by decide)]

end FishOS.Fs
