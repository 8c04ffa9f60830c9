import FishOS.Fs.DescriptorTable

/-!
# Descriptors and files

Which node a descriptor reaches between its open and its close, and which calls follow a null
pointer. The three descriptors of a new task have no node until they are closed.
-/

namespace FishOS.Fs

open Klib

namespace Vfs

/-- Every node belongs to the file system. -/
def AllFs (v : Vfs) : Prop := ∀ s ∈ v.nodes.map Node.shape, s.2 = some .tmpfs

variable {v v' : Vfs} {p : Nat} {node : Node} {name : CString} {type : NodeType} {parent : Option Nat}
  {heap : Nat → Option Nat}

theorem AllFs.read (all : v.AllFs) (read : v.nodes[p]? = some node) : node.fs = some .tmpfs :=
  all node.shape (List.mem_map_of_mem (List.mem_of_getElem? read))

theorem AllFs.newNode (all : v.AllFs) (type : NodeType) (parent : Option Nat) (name : CString) :
    (v.newNode type (some .tmpfs) parent name).1.AllFs := by
  unfold AllFs Vfs.newNode
  dsimp only
  intro s member
  rw [List.map_append] at member
  rcases List.mem_append.mp member with old | new
  · exact all s old
  · obtain rfl := List.mem_singleton.mp new
    rfl

theorem AllFs.modify (all : v.AllFs) (p : Nat) {f : Node → Node} (keeps : ∀ n, (f n).shape = n.shape) :
    (v.modify p f).AllFs := by
  unfold AllFs
  rw [shapes_modify v p keeps]
  exact all

theorem AllFs.create (all : v.AllFs) {made : Option Nat}
    (created : v.create (some .tmpfs) parent name type = some (v', made)) : v'.AllFs := by
  apply create_preserves _ _ _ all created
  · rintro v new type parent name all (rfl | ⟨node, member, rfl⟩)
    · exact all.newNode type parent name
    · obtain ⟨p, read⟩ := List.mem_iff_getElem?.mp member
      rw [all.read read]
      exact all.newNode type parent name
  · intro v p children all
    exact all.modify p fun _ => rfl
  · intro v p target all _
    exact all.modify p fun _ => rfl

theorem Built.allFs (built : Built heap v) : v.AllFs := by
  induction built with
  | init made =>
    obtain ⟨⟨v, root⟩, created, made⟩ := Option.bind_eq_some_iff.mp made
    obtain rfl := Option.some.inj made
    have empty : AllFs { nodes := [], root := none, heap := heap } := fun s member => nomatch member
    have all := empty.create created
    exact all
  | create before read directory nonempty slashFree fresh made ih =>
    rw [ih.read read] at made
    exact ih.create made

end Vfs

def Vfs.IsFile (v : Vfs) (p : Nat) : Prop := ∃ node, v.nodes[p]? = some node ∧ node.type = .file

namespace World

variable {w w' w₁ w₂ w₃ : World} {event : Event} {events history : List Event} {fd dirfd result : Int} {path : CString}
  {p : Nat} {n : Node} {d : FileDescriptor} {buf count offset : Nat}

/-- A node as it is before, but for its data. -/
theorem read_of_shapes (same : w'.shapes = w.shapes) (read : w.vfs.nodes[p]? = some n) :
    ∃ n', w'.vfs.nodes[p]? = some n' ∧ n'.type = n.type := by
  have shape : w'.shapes[p]? = some n.shape := by
    rw [same]
    unfold shapes
    rw [List.getElem?_map, read]
    rfl
  unfold shapes at shape
  rw [List.getElem?_map] at shape
  obtain ⟨n', read', kind⟩ := Option.map_eq_some_iff.mp shape
  exact ⟨n', read', congrArg Prod.fst kind⟩

theorem Starts.allFs (starts : w.Starts) (ran : w.run events = .ok w') : w'.vfs.AllFs := by
  obtain ⟨heap, built⟩ := starts.built
  have all := built.allFs
  have same : w'.vfs.nodes.map Node.shape = w.vfs.nodes.map Node.shape := run_shapes ran
  unfold Vfs.AllFs at all ⊢
  rw [same]
  exact all

theorem follow_eq (all : w.vfs.AllFs) (read : w.vfs.nodes[p]? = some n) : w.follow (some p) = .ok (p, n) := by
  unfold follow
  dsimp only
  rw [read]
  dsimp only
  rw [all.read read]

theorem fsRead_file (all : w.vfs.AllFs) (read : w.vfs.nodes[p]? = some n) (file : n.type = .file)
    (buf count offset : Nat) :
    w.fsRead (some p) buf count offset = .ok { w with memory := (n.data.read w.memory buf count offset).1 } := by
  unfold fsRead
  rw [follow_eq all read]
  exact if_neg (by simp [file])

theorem fsWrite_file (all : w.vfs.AllFs) (read : w.vfs.nodes[p]? = some n) (file : n.type = .file)
    (write : Write) :
    w.fsWrite (some p) write =
      .ok { w with vfs := w.vfs.modify p fun n => { n with data := n.data.write write } } := by
  unfold fsWrite
  rw [follow_eq all read]
  exact if_neg (by simp [file])

theorem open_fills (opens : event.opens = some (dirfd, path)) (opened : w.step event = .ok (w', fd))
    (success : 0 ≤ fd) :
    ∃ target, w.Resolves dirfd (pathBytes path) target ∧
      w'.task.slot fd = some { node := some target, cursor := 0 } := by
  have called : w.openatInner dirfd (pathBytes path) = .ok (w', fd) := (step_opens opens).symm.trans opened
  rcases openatInner_ok called with ⟨_, negative⟩ | ⟨i, target, task, rfl, resolves, allocated, rfl⟩
  · omega
  · refine ⟨target, resolves, ?_⟩
    dsimp only
    rw [TaskFiles.slot_put allocated.within, if_pos rfl]

/-- A descriptor in use keeps its node until it is closed. -/
theorem run_slot (ran : w.run events = .ok w') (kept : ∀ event ∈ events, event ≠ .close fd)
    (found : w.task.slot fd = some d) : ∃ cursor, w'.task.slot fd = some { d with cursor := cursor } := by
  induction events using List.reverseRecOn generalizing w' with
  | nil =>
    obtain rfl := Except.ok.inj ran
    exact ⟨d.cursor, found⟩
  | append_singleton events event ih =>
    obtain ⟨w₁, result, before, last⟩ := run_snoc_ok ran
    obtain ⟨cursor, here⟩ := ih before fun event member => kept event (by simp [member])
    have slot := step_slot last fd
    rw [here] at slot
    generalize w'.task.slot fd = after at slot
    cases slot with
    | closed close => exact absurd close (kept event (by simp))
    | used _ => exact ⟨_, rfl⟩

/-- The descriptor stands on the file: `pread` and `pwrite` transfer bytes from and to the node. -/
structure OnFile (w : World) (fd : Int) (p : Nat) (d : FileDescriptor) : Prop where
  slot : w.task.slot fd = some d
  node : d.node = some p
  pread : ∃ n, w.vfs.nodes[p]? = some n ∧ n.type = .file ∧ ∀ buf count offset,
    w.syscallPread fd buf count offset = .ok { w with memory := (n.data.read w.memory buf count offset).1 }
  pwrite : ∀ buf count offset fresh, w.syscallPwrite fd buf count offset fresh =
    .ok { w with vfs := w.vfs.modify p fun n => { n with data := n.data.write (w.userWrite buf count offset fresh) } }

/-- `read` does what `pread` does at the cursor, and moves the cursor. -/
def ReadsAtCursor (w : World) (fd : Int) (d : FileDescriptor) : Prop :=
  ∀ buf count, w.syscallRead fd buf count =
    (w.syscallPread fd buf count d.cursor).map (·.moveCursor fd d ((d.cursor + count) % 2 ^ 64))

def WritesAtCursor (w : World) (fd : Int) (d : FileDescriptor) : Prop :=
  ∀ buf count fresh, w.syscallWrite fd buf count fresh =
    (w.syscallPwrite fd buf count d.cursor fresh).map (·.moveCursor fd d ((d.cursor + count) % 2 ^ 64))

theorem onFile (all : w.vfs.AllFs) (found : w.task.slot fd = some d) (node : d.node = some p)
    (file : w.vfs.IsFile p) :
    w.OnFile fd p d := by
  obtain ⟨n, read, type⟩ := file
  refine ⟨found, node, ⟨n, read, type, ?_⟩, ?_⟩
  · intro buf count offset
    unfold syscallPread
    rw [descriptor_bind, found]
    dsimp only
    rw [node]
    exact fsRead_file all read type buf count offset
  · intro buf count offset fresh
    unfold syscallPwrite
    rw [descriptor_bind, found]
    dsimp only
    rw [node]
    exact fsWrite_file all read type _

theorem inside_of_slot (found : w.task.slot fd = some d) : ¬w.task.Outside fd := by
  intro outside
  rw [TaskFiles.slot_outside outside] at found
  cases found

theorem consumed_kbdRead (w : World) (buf : Nat) : (w.kbdRead buf 1).consumed = w.consumed + 1 := by
  unfold kbdRead kbdReadLoop
  dsimp only
  split
  · rfl
  · rfl

theorem OnFile.reads_iff (on : w.OnFile fd p d) : w.ReadsAtCursor fd d ↔ fd ≠ 0 := by
  have inside := inside_of_slot on.slot
  obtain ⟨n, read, type, pread⟩ := on.pread
  constructor
  · rintro reads rfl
    have same := reads 0 1
    unfold syscallRead at same
    rw [if_neg inside, if_pos rfl, pread] at same
    dsimp only [Except.map] at same
    have consumed := congrArg World.consumed (Except.ok.inj same)
    rw [consumed_kbdRead] at consumed
    exact absurd consumed (Nat.succ_ne_self _)
  · intro ordinary buf count
    unfold syscallRead syscallPread
    rw [if_neg inside, if_neg ordinary, descriptor_bind, descriptor_bind, on.slot]
    dsimp only
    cases w.fsRead d.node buf count d.cursor with
    | error fault => rfl
    | ok w' => rfl

theorem OnFile.writes_iff (on : w.OnFile fd p d) : w.WritesAtCursor fd d ↔ fd ≠ 1 := by
  have inside := inside_of_slot on.slot
  constructor
  · rintro writes rfl
    have same := writes 0 1 fun _ => 0
    unfold syscallWrite at same
    rw [if_neg inside, if_pos rfl, on.pwrite] at same
    dsimp only [Except.map] at same
    have printed := congrArg (List.length ∘ World.console) (Except.ok.inj same)
    exact absurd printed (by simp [moveCursor, bytesAt])
  · intro ordinary buf count fresh
    unfold syscallWrite syscallPwrite
    rw [if_neg inside, if_neg ordinary, descriptor_bind, descriptor_bind, on.slot]
    dsimp only
    cases w.fsWrite d.node (w.userWrite buf count d.cursor fresh) with
    | error fault => rfl
    | ok w' => rfl

theorem Resolves.unique {bytes : List UInt8} {p q : Nat} (first : w.Resolves dirfd bytes p)
    (second : w.Resolves dirfd bytes q) : p = q := by
  obtain ⟨start, found, started, searched, target⟩ := first
  obtain ⟨start', found', started', searched', target'⟩ := second
  obtain rfl := Except.ok.inj (Except.ok.inj (started.symm.trans started'))
  obtain rfl := Option.some.inj (searched.symm.trans searched')
  exact Option.some.inj (target.symm.trans target')

/-- Between its open and its close a descriptor stands on the file that the path led to. -/
theorem opened_onFile (starts : w.Starts) (before : w.run history = .ok w₁)
    (opens : event.opens = some (dirfd, path)) (opened : w₁.step event = .ok (w₂, fd)) (success : 0 ≤ fd)
    (after : w₂.run events = .ok w₃) (kept : ∀ event ∈ events, event ≠ .close fd)
    (resolves : w₁.Resolves dirfd (pathBytes path) p) (file : w₁.vfs.IsFile p) : ∃ d, w₃.OnFile fd p d := by
  obtain ⟨q, resolves', filled⟩ := open_fills opens opened success
  obtain rfl := resolves.unique resolves'
  obtain ⟨n, read, type⟩ := file
  obtain ⟨cursor, found⟩ := run_slot after kept filled
  have same : w₃.shapes = w₁.shapes := (run_shapes after).trans (step_shapes opened)
  obtain ⟨n', read', type'⟩ := read_of_shapes same read
  have all : w₃.vfs.AllFs := by
    have all := starts.allFs before
    have nodes : w₃.vfs.nodes.map Node.shape = w₁.vfs.nodes.map Node.shape := same
    unfold Vfs.AllFs at all ⊢
    rw [nodes]
    exact all
  exact ⟨_, onFile all found rfl ⟨n', read', type'.trans type⟩⟩

/-- `read` and `write` serve the file that a descriptor was opened on, unless its number is 0 or 1. -/
theorem descriptor_reaches_file (starts : w.Starts) (before : w.run history = .ok w₁)
    (opens : event.opens = some (dirfd, path)) (opened : w₁.step event = .ok (w₂, fd)) (success : 0 ≤ fd)
    (after : w₂.run events = .ok w₃) (kept : ∀ event ∈ events, event ≠ .close fd) :
    ∃ p, w₁.Resolves dirfd (pathBytes path) p ∧ (w₁.vfs.IsFile p → ∃ d, w₃.OnFile fd p d ∧
      (w₃.ReadsAtCursor fd d ↔ fd ≠ 0) ∧ (w₃.WritesAtCursor fd d ↔ fd ≠ 1)) := by
  obtain ⟨p, resolves, _⟩ := open_fills opens opened success
  refine ⟨p, resolves, ?_⟩
  intro file
  obtain ⟨d, on⟩ := opened_onFile starts before opens opened success after kept resolves file
  exact ⟨d, on, on.reads_iff, on.writes_iff⟩

theorem open_resolved {target : Nat} {bytes : List UInt8} {task : TaskFiles}
    (resolves : w.Resolves dirfd bytes target) (allocated : w.task.allocateFdnum = .ok (task, fd)) :
    w.openatInner dirfd bytes =
      .ok ({ w with task := task.put fd (some { node := some target, cursor := 0 }) }, fd) := by
  obtain ⟨start, found, started, searched, here⟩ := resolves
  unfold openatInner
  rw [started]
  dsimp only [bind, Except.bind]
  rw [searched]
  dsimp only
  rw [here]
  dsimp only
  rw [allocated]

theorem resolves_bin (built : Vfs.Built (fun _ => none) w.vfs) (start : w.vfs.IsDirectory 0)
    (cwd : w.task.cwd = 0) (walked : w.vfs.walk 0 [Vfs.binName] = some 3) :
    w.Resolves atFdcwd (pathBytes Vfs.binName) 3 := by
  obtain ⟨result, returned, outcome⟩ :=
    (built.tree fun _ => rfl).pathToNode_outcome start (List.cons_ne_nil _ _) Vfs.component_bin false
  rw [Vfs.joinPath_bare] at returned
  refine ⟨some 0, result, ?_, returned, outcome.target_eq.trans walked⟩
  have started : w.startingPoint atFdcwd (pathBytes Vfs.binName) = .ok (.ok (some w.task.cwd)) := rfl
  rw [started, cwd]

/-- One of the first three descriptors is closed, and an open of the file `bin` gets its number. -/
theorem exists_open_file {i : Nat} (standard : i < 3) :
    ∃ w w₁ w₂ : World, w.Starts ∧ w.run [.close i] = .ok w₁ ∧
    w₁.step (.openPath Vfs.binName) = .ok (w₂, (i : Int)) ∧ w₁.Resolves atFdcwd (pathBytes Vfs.binName) 3 ∧
    ∃ n, w₁.vfs.nodes[3]? = some n ∧ n.type = .file ∧ n.data = NodeData.create := by
  obtain ⟨v, built, root, start, file, walked⟩ := Vfs.exists_tree (show NodeType.file ≠ .none from nofun)
  obtain ⟨w, rfl, made, starts⟩ := exists_start built root
  have standardUsed : ∀ j : Nat, j < 3 → w.task.slot j ≠ none := by
    intro j small
    rw [TaskFiles.slot_newUserTask made, if_pos (by omega)]
    exact nofun
  have used := standardUsed i standard
  have ran := run_close (show w.run [] = .ok w from rfl) i
  rw [if_neg used] at ran
  have slots := TaskFiles.slot_closed used
  have empty : (w.task.closed i).slot i = none := (slots i).trans (if_pos rfl)
  have inside : i < (w.task.closed i).fileDescriptors.size := by
    rw [TaskFiles.size_closed]
    exact Int.ofNat_lt.mp (TaskFiles.slot_inside used).2
  obtain ⟨task, fd, allocation⟩ := TaskFiles.exists_allocation inside empty (Nat.le_refl i)
  obtain ⟨j, rfl, allocated⟩ := TaskFiles.allocateFdnum_spec allocation
  have same : j = i := by
    have free := allocated.empty
    by_contra other
    rw [slots, if_neg (by omega)] at free
    by_cases below : j < i
    · exact standardUsed j (by omega) free
    · exact allocated.passed i (Nat.le_refl i) (by omega) empty
  subst same
  have resolves := resolves_bin (w := { w with task := w.task.closed j }) built start (TaskFiles.newUserTask_eq made).2.2.2 walked
  exact ⟨w, _, _, starts, ran, open_resolved resolves allocation, resolves, file⟩

/-- A file opened as descriptor 2. -/
theorem descriptor_reaches_file_bin : ∃ w₁ w₂ w₃ : World, w₁.step (.openPath Vfs.binName) = .ok (w₂, 2) ∧
    w₂.run [] = .ok w₃ ∧ ∃ p, w₁.Resolves atFdcwd (pathBytes Vfs.binName) p ∧ (w₁.vfs.IsFile p →
      ∃ d, w₃.OnFile 2 p d ∧ (w₃.ReadsAtCursor 2 d ↔ (2 : Int) ≠ 0) ∧
        (w₃.WritesAtCursor 2 d ↔ (2 : Int) ≠ 1)) := by
  obtain ⟨w, w₁, w₂, starts, ran, opened, _⟩ := exists_open_file (show 2 < 3 by decide)
  exact ⟨w₁, w₂, w₂, opened, rfl, descriptor_reaches_file starts ran rfl opened (by decide)
    (show w₂.run [] = .ok w₂ from rfl) (by simp)⟩

/-- Standard input is closed, and a file opened as descriptor 0: `read` reads the keyboard. -/
theorem read_misses_file : ∃ (w w₁ w₂ : World) (d : FileDescriptor), w.Starts ∧ w.run [.close 0] = .ok w₁ ∧
    w₁.Resolves atFdcwd (pathBytes Vfs.binName) 3 ∧ w₁.vfs.IsFile 3 ∧
    w₁.step (.openPath Vfs.binName) = .ok (w₂, 0) ∧ w₂.OnFile 0 3 d ∧ ¬w₂.ReadsAtCursor 0 d := by
  obtain ⟨w, w₁, w₂, starts, ran, opened, resolves, n, read, type, _⟩ := exists_open_file (show 0 < 3 by decide)
  have file : w₁.vfs.IsFile 3 := ⟨n, read, type⟩
  obtain ⟨d, on⟩ := opened_onFile starts ran rfl opened (Int.le_refl 0) (show w₂.run [] = .ok w₂ from rfl) (by simp)
    resolves file
  exact ⟨w, w₁, w₂, d, starts, ran, resolves, file, opened, on, fun reads => on.reads_iff.mp reads rfl⟩

end World

/-- The call ends because it follows a null pointer. -/
def FollowsNull {α : Type} (returned : Except Fault α) : Prop :=
  returned = .error .nullNode ∨ returned = .error .nullFs

/-- The descriptor whose node a call follows. Reads of descriptor 0 and writes to descriptor 1 go to
the keyboard and to the screen. -/
def Event.follows : Event → Option Int
  | .openat dirfd path => if path.chars.head? ≠ some slash ∧ dirfd ≠ atFdcwd then some dirfd else none
  | .read fd _ _ => if fd ≠ 0 then some fd else none
  | .write fd _ _ _ => if fd ≠ 1 then some fd else none
  | .pread fd _ _ _ | .pwrite fd _ _ _ _ => some fd
  | _ => none

theorem not_followsNull_ok {α : Type} (a : α) : ¬FollowsNull (.ok a) := by
  rintro (null | null)
  · cases null
  · cases null

theorem not_followsNull_ite {α : Type} {c : Prop} [Decidable c] {a b : α} :
    ¬FollowsNull (if c then .ok a else .ok b : Except Fault α) := by
  split
  · exact not_followsNull_ok a
  · exact not_followsNull_ok b

theorem not_followsNull_badPointer {α : Type} : ¬FollowsNull (.error .badPointer : Except Fault α) := by
  rintro (null | null)
  · cases null
  · cases null

theorem followsNull_bind {α β : Type} {x : Except Fault α} {f : α → Except Fault β}
    (quiet : ∀ a, ¬FollowsNull (f a)) :
    FollowsNull (x >>= f) ↔ FollowsNull x := by
  cases x with
  | error fault => simp [FollowsNull, bind, Except.bind]
  | ok a => exact iff_of_false (quiet a) (not_followsNull_ok a)

theorem followsNull_map {α β : Type} {x : Except Fault α} {f : α → β} :
    FollowsNull (x.map f) ↔ FollowsNull x := by
  cases x with
  | error fault => simp [FollowsNull, Except.map]
  | ok a => exact iff_of_false (not_followsNull_ok _) (not_followsNull_ok a)

namespace World

variable {w w' : World} {event : Event} {events : List Event} {fd dirfd : Int} {path : CString} {node : Option Nat}
  {buf count offset : Nat}

/-- What keeps every node pointer but the null ones good. -/
structure Sound (w : World) : Prop where
  all : w.vfs.AllFs
  nodes : ∀ fd d p, w.task.slot fd = some d → d.node = some p → p < w.shapes.length

theorem Sound.read (sound : w.Sound) {d : FileDescriptor} {p : Nat} (found : w.task.slot fd = some d)
    (node : d.node = some p) :
    ∃ n, w.vfs.nodes[p]? = some n := by
  have inside := sound.nodes fd d p found node
  unfold shapes at inside
  rw [List.length_map] at inside
  exact ⟨_, List.getElem?_eq_getElem inside⟩

/-- The descriptor has no node. -/
def Nodeless (w : World) (fd : Int) : Prop := ∃ d, w.task.slot fd = some d ∧ d.node = none

theorem follow_null {α : Type} {f : Nat × Node → Except Fault α} (all : w.vfs.AllFs)
    (good : ∀ p, node = some p → ∃ n, w.vfs.nodes[p]? = some n) (quiet : ∀ s, ¬FollowsNull (f s)) :
    FollowsNull (w.follow node >>= f) ↔ node = none := by
  rw [followsNull_bind quiet]
  cases node with
  | none => exact iff_of_true (.inl rfl) rfl
  | some p =>
    obtain ⟨n, read⟩ := good p rfl
    rw [follow_eq all read]
    exact iff_of_false (not_followsNull_ok (p, n)) nofun

theorem fsRead_null (all : w.vfs.AllFs) (good : ∀ p, node = some p → ∃ n, w.vfs.nodes[p]? = some n) :
    FollowsNull (w.fsRead node buf count offset) ↔ node = none := by
  apply follow_null all good
  rintro ⟨p, n⟩
  exact not_followsNull_ite

theorem fsWrite_null (all : w.vfs.AllFs) (good : ∀ p, node = some p → ∃ n, w.vfs.nodes[p]? = some n)
    (write : Write) :
    FollowsNull (w.fsWrite node write) ↔ node = none := by
  apply follow_null all good
  rintro ⟨p, n⟩
  exact not_followsNull_ite

theorem nodeless_of_empty (empty : w.task.slot fd = none) : ¬w.Nodeless fd := by
  rintro ⟨d, found, _⟩
  rw [empty] at found
  cases found

theorem nodeless_of_slot {d : FileDescriptor} (found : w.task.slot fd = some d) :
    w.Nodeless fd ↔ d.node = none := by
  constructor
  · rintro ⟨d', found', node⟩
    obtain rfl := Option.some.inj (found.symm.trans found')
    exact node
  · exact fun node => ⟨d, found, node⟩

/-- What a call does with its descriptor follows a null pointer if the node of the descriptor is one. -/
theorem descriptor_null {f : FileDescriptor → Except Fault World}
    (called : ∀ d, w.task.slot fd = some d → (FollowsNull (f d) ↔ d.node = none)) :
    FollowsNull (match w.task.slot fd with
      | none => .ok w
      | some d => f d) ↔ w.Nodeless fd := by
  cases found : w.task.slot fd with
  | none => exact iff_of_false (not_followsNull_ok w) (nodeless_of_empty found)
  | some d => exact (called d found).trans (nodeless_of_slot found).symm

theorem special_null {k : Int} {special ordinary : Except Fault World} (quiet : ¬FollowsNull special)
    (called : FollowsNull ordinary ↔ w.Nodeless fd) :
    FollowsNull (if w.task.Outside fd then .ok w else if fd = k then special else ordinary) ↔
      fd ≠ k ∧ w.Nodeless fd := by
  split
  · rename_i outside
    exact iff_of_false (not_followsNull_ok w) fun both => nodeless_of_empty (TaskFiles.slot_outside outside) both.2
  · split
    · rename_i same
      exact iff_of_false quiet fun both => both.1 same
    · rename_i other
      exact called.trans (and_iff_right other).symm

theorem Sound.pread_null (sound : w.Sound) :
    FollowsNull (w.syscallPread fd buf count offset) ↔ w.Nodeless fd := by
  unfold syscallPread
  rw [descriptor_bind]
  exact descriptor_null fun d found => fsRead_null sound.all fun p node => sound.read found node

theorem Sound.pwrite_null (sound : w.Sound) {fresh : Nat → UInt8} :
    FollowsNull (w.syscallPwrite fd buf count offset fresh) ↔ w.Nodeless fd := by
  unfold syscallPwrite
  rw [descriptor_bind]
  exact descriptor_null fun d found => fsWrite_null sound.all (fun p node => sound.read found node) _

theorem Sound.read_null (sound : w.Sound) :
    FollowsNull (w.syscallRead fd buf count) ↔ fd ≠ 0 ∧ w.Nodeless fd := by
  apply special_null (not_followsNull_ok _)
  rw [descriptor_bind]
  apply descriptor_null
  intro d found
  have called : FollowsNull (w.fsRead d.node buf count d.cursor) ↔ d.node = none :=
    fsRead_null sound.all fun p node => sound.read found node
  exact followsNull_map.trans called

theorem Sound.write_null (sound : w.Sound) {fresh : Nat → UInt8} :
    FollowsNull (w.syscallWrite fd buf count fresh) ↔ fd ≠ 1 ∧ w.Nodeless fd := by
  apply special_null
  · split
    · exact not_followsNull_badPointer
    · exact not_followsNull_ok _
  · rw [descriptor_bind]
    apply descriptor_null
    intro d found
    have called : FollowsNull (w.fsWrite d.node (w.userWrite buf count d.cursor fresh)) ↔ d.node = none :=
      fsWrite_null sound.all (fun p node => sound.read found node) _
    exact followsNull_map.trans called

theorem Sound.startingPoint_null (sound : w.Sound) : FollowsNull (w.startingPoint dirfd (pathBytes path)) ↔
    (path.chars.head? ≠ some slash ∧ dirfd ≠ atFdcwd) ∧ w.Nodeless dirfd := by
  obtain ⟨first, head, same⟩ : ∃ first, (pathBytes path).head? = some first ∧ (first = slash ↔ path.chars.head? = some slash) := by
    unfold pathBytes
    cases path.chars with
    | nil => exact ⟨0, rfl, by decide⟩
    | cons c chars => exact ⟨c, rfl, by simp⟩
  unfold startingPoint
  rw [head]
  dsimp only
  split
  · rename_i absolute
    exact iff_of_false (not_followsNull_ok _) fun both => both.1.1 (same.mp absolute)
  · rename_i relative
    split
    · rename_i cwd
      exact iff_of_false (not_followsNull_ok _) fun both => both.1.2 cwd
    · rename_i other
      have dirfdUsed : (path.chars.head? ≠ some slash ∧ dirfd ≠ atFdcwd) :=
        ⟨fun absolute => relative (same.mpr absolute), other⟩
      rw [and_iff_right dirfdUsed, descriptor_bind]
      cases found : w.task.slot dirfd with
      | none => exact iff_of_false (not_followsNull_ok _) (nodeless_of_empty found)
      | some d =>
        rw [nodeless_of_slot found]
        dsimp only
        cases node : d.node with
        | none => exact iff_of_true (.inl rfl) rfl
        | some p =>
          obtain ⟨n, read⟩ := sound.read found node
          refine iff_of_false ?_ nofun
          dsimp only
          rw [read]
          exact not_followsNull_ite

theorem Sound.openat_null (sound : w.Sound) : FollowsNull (w.openatInner dirfd (pathBytes path)) ↔
    (path.chars.head? ≠ some slash ∧ dirfd ≠ atFdcwd) ∧ w.Nodeless dirfd := by
  rw [← sound.startingPoint_null]
  apply followsNull_bind
  intro start
  cases start with
  | error errno => exact not_followsNull_ok _
  | ok start =>
    dsimp only
    cases w.vfs.pathToNode (pathBytes path) start with
    | none => exact not_followsNull_badPointer
    | some found =>
      dsimp only
      cases found.target with
      | none => exact not_followsNull_ok _
      | some target =>
        dsimp only
        rw [followsNull_bind fun s => not_followsNull_ok _]
        cases allocated : w.task.allocateFdnum with
        | ok s => exact not_followsNull_ok s
        | error fault =>
          rw [TaskFiles.allocateFdnum_error allocated]
          rintro (null | null)
          · cases null
          · cases null

/-- An event follows a null pointer exactly when it is a call that follows a descriptor without a node. -/
theorem Sound.step_null (sound : w.Sound) (event : Event) :
    FollowsNull (w.step event) ↔ ∃ fd, event.follows = some fd ∧ w.Nodeless fd := by
  have never : ∀ {α : Type} {x : Except Fault α}, ¬FollowsNull x → event.follows = none →
      (FollowsNull x ↔ ∃ fd, event.follows = some fd ∧ w.Nodeless fd) := by
    intro α x quiet none
    rw [none]
    exact iff_of_false quiet nofun
  have direct : ∀ {α : Type} {x : Except Fault α} {fd : Int}, (FollowsNull x ↔ w.Nodeless fd) → event.follows = some fd →
      (FollowsNull x ↔ ∃ fd, event.follows = some fd ∧ w.Nodeless fd) := by
    intro α x fd null follows
    rw [null, follows]
    simp
  have guarded : ∀ {α : Type} {x : Except Fault α} {c : Prop} [Decidable c] {fd : Int},
      (FollowsNull x ↔ c ∧ w.Nodeless fd) → (event.follows = if c then some fd else none) →
      (FollowsNull x ↔ ∃ fd, event.follows = some fd ∧ w.Nodeless fd) := by
    intro α x c _ fd null follows
    rw [null, follows]
    split
    · rename_i holds
      simp [holds]
    · rename_i fails
      simp [fails]
  cases event with
  | openPath path => exact never (fun null => (sound.openat_null.mp null).1.2 rfl) rfl
  | openat dirfd path => exact guarded sound.openat_null rfl
  | close fd =>
    refine never (fun null => ?_) rfl
    have null := followsNull_map.mp null
    rw [syscallClose_eq] at null
    exact not_followsNull_ok _ null
  | read fd buf count => exact guarded (followsNull_map.trans sound.read_null) rfl
  | write fd buf count fresh => exact guarded (followsNull_map.trans sound.write_null) rfl
  | pread fd buf count offset => exact direct (followsNull_map.trans sound.pread_null) rfl
  | pwrite fd buf count offset fresh => exact direct (followsNull_map.trans sound.pwrite_null) rfl
  | seek fd offset =>
    refine never (fun null => ?_) rfl
    have null := followsNull_map.mp null
    rw [syscallSeek_eq] at null
    exact not_followsNull_ok _ null
  | chdir path =>
    refine never ?_ rfl
    unfold step syscallChdir
    dsimp only
    split
    · exact not_followsNull_badPointer
    · exact not_followsNull_ok _
  | otherTask node write =>
    refine never (fun null => ?_) rfl
    have null := followsNull_map.mp null
    cases read : w.vfs.nodes[node]? with
    | none =>
      have called : w.fsWrite (some node) write = .error .badPointer := by
        unfold fsWrite follow
        dsimp only
        rw [read]
        rfl
      rw [called] at null
      exact not_followsNull_badPointer null
    | some n =>
      have good : ∀ p, some node = some p → ∃ n, w.vfs.nodes[p]? = some n := by
        rintro _ ⟨rfl⟩
        exact ⟨n, read⟩
      exact nomatch (fsWrite_null sound.all good write).mp null
  | user memory => exact never (not_followsNull_ok _) rfl

theorem Starts.sound (starts : w.Starts) (ran : w.run events = .ok w') : w'.Sound :=
  ⟨starts.allFs ran, (starts.consistent.run ran).nodes⟩

/-- The first three descriptors have no node until they are closed for the first time. -/
theorem nodeless_iff (starts : w.Starts) (ran : w.run events = .ok w') (fd : Int) :
    w'.Nodeless fd ↔ (fd = 0 ∨ fd = 1 ∨ fd = 2) ∧ .close fd ∉ events := by
  induction events using List.reverseRecOn generalizing w' with
  | nil =>
    obtain rfl := Except.ok.inj ran
    obtain ⟨root, _, made⟩ := starts.task
    have slot := TaskFiles.slot_newUserTask made fd
    by_cases standard : 0 ≤ fd ∧ fd < 3
    · rw [if_pos standard] at slot
      exact iff_of_true ⟨_, slot, rfl⟩ ⟨by omega, List.not_mem_nil⟩
    · rw [if_neg standard] at slot
      exact iff_of_false (nodeless_of_empty slot) fun both => standard (by omega)
  | append_singleton events event ih =>
    obtain ⟨w₁, result, before, last⟩ := run_snoc_ok ran
    have earlier := ih before
    have slot := step_slot last fd
    unfold Nodeless at earlier ⊢
    rw [List.mem_append, List.mem_singleton, not_or, ← and_assoc, ← earlier]
    generalize w₁.task.slot fd = old at slot
    generalize w'.task.slot fd = new at slot
    cases slot with
    | empty => simp
    | opened => simp
    | closed close => simp [close]
    | used kept => simp [Ne.symm kept]

/-- A call follows a null pointer exactly when it goes through one of the descriptors 0, 1 and 2 that
has not been closed. -/
theorem null_pointer_iff (starts : w.Starts) (ran : w.run events = .ok w') (event : Event) :
    FollowsNull (w'.step event) ↔ ∃ fd, event.follows = some fd ∧ (fd = 0 ∨ fd = 1 ∨ fd = 2) ∧
      .close fd ∉ events := by
  rw [(starts.sound ran).step_null]
  apply exists_congr
  intro fd
  rw [nodeless_iff starts ran]

/-- After standard input has been closed. -/
theorem null_pointer_iff_close : ∃ w w' : World, w.run [.close 0] = .ok w' ∧ ∀ event : Event,
    FollowsNull (w'.step event) ↔
      ∃ fd, event.follows = some fd ∧ (fd = 0 ∨ fd = 1 ∨ fd = 2) ∧ .close fd ∉ ([.close 0] : List Event) := by
  obtain ⟨w, w₁, w₂, starts, ran, _⟩ := exists_open_file (show 0 < 3 by decide)
  exact ⟨w, w₁, ran, null_pointer_iff starts ran⟩

/-- A new task reads from standard error. -/
theorem read_follows_null :
    ∃ w : World, w.Starts ∧ w.run [] = .ok w ∧ w.step (.read 2 0 1) = .error .nullNode := by
  obtain ⟨v, built, root, _⟩ := Vfs.exists_binTree
  obtain ⟨w, rfl, made, starts⟩ := exists_start built root
  have found : w.task.slot 2 = some TaskFiles.nodeless := TaskFiles.slot_newUserTask made 2
  have called : w.syscallRead 2 0 1 = .error .nullNode := by
    unfold syscallRead
    rw [if_neg (inside_of_slot found), if_neg (by decide), descriptor_bind, found]
    rfl
  refine ⟨w, starts, rfl, ?_⟩
  unfold step
  dsimp only
  rw [called]
  rfl

end World

end FishOS.Fs
