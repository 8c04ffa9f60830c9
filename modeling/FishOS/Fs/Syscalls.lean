import FishOS.Fs.Cwd
import FishOS.Fs.Descriptors
import FishOS.Lib.Fallible
import Mathlib.Data.List.Induction

/-!
# File system calls

The system calls of one task on its descriptors. Between them the task's own code changes its memory
and other tasks write to files.
-/

namespace FishOS.Fs

open Klib

def atFdcwd : Int := -100

def ebadf : Int := 1008

def newline : UInt8 := 0x0A

/-- The task and what its calls reach. The keyboard delivers the characters `typed` in order, and
`consumed` of them have been read. -/
structure World where
  vfs : Vfs
  task : TaskFiles
  memory : Mem
  typed : Nat → UInt8
  consumed : Nat
  console : List UInt8

/-- The loop of `ps2::kbd::read`. It waits for each character. -/
def kbdReadLoop (typed : Nat → UInt8) (buf : Nat) : Nat → Nat → Mem × Nat → Mem × Nat
  | 0, _, s => s
  | left + 1, i, (m, consumed) =>
    let c := typed consumed
    let s := (m.write8 (buf + i) c, consumed + 1)
    if c = newline then s else kbdReadLoop typed buf left (i + 1) s

/-- The characters at `str` up to the NUL, which lies among so many bytes. -/
def charsAt (m : Mem) : Nat → Nat → Option (List UInt8)
  | 0, _ => none
  | limit + 1, str => if m str = 0 then some [] else (charsAt m limit (str + 1)).map (m str :: ·)

/-- What `printf("%.*s", length, str)` prints. A length of zero counts as none given. -/
def printfString (m : Mem) (length str : Nat) : Option (List UInt8) :=
  if length ≠ 0 then some (bytesAt m str length) else charsAt m (2 ^ 64 - str) str

namespace World

def kbdRead (w : World) (buf count : Nat) : World :=
  let (memory, consumed) := kbdReadLoop w.typed buf count 0 (w.memory, w.consumed)
  { w with memory := memory, consumed := consumed }

/-- `descriptor->node->fs`, and a call through it: there is only `tmpfs`. -/
def follow (w : World) (node : Option Nat) : Except Fault (Nat × Node) :=
  match node with
  | none => .error .nullNode
  | some p =>
    match w.vfs.nodes[p]? with
    | none => .error .badPointer
    | some node =>
      match node.fs with
      | none => .error .nullFs
      | some .tmpfs => .ok (p, node)

/-- `tmpfs::read` only does something on files. -/
def fsRead (w : World) (node : Option Nat) (buf count offset : Nat) : Except Fault World := do
  let (_, node) ← w.follow node
  if node.type ≠ .file then .ok w
  else .ok { w with memory := (node.data.read w.memory buf count offset).1 }

/-- `tmpfs::write` only does something on files. -/
def fsWrite (w : World) (node : Option Nat) (write : Write) : Except Fault World := do
  let (p, node) ← w.follow node
  if node.type ≠ .file then .ok w
  else .ok { w with vfs := w.vfs.modify p fun n => { n with data := n.data.write write } }

/-- A write from the task's memory. -/
def userWrite (w : World) (buf count offset : Nat) (fresh : Nat → UInt8) : Write :=
  { buf := fun i => w.memory (buf + i), count := count, offset := offset, fresh := fresh }

def moveCursor (w : World) (fd : Int) (descriptor : FileDescriptor) (cursor : Nat) : World :=
  { w with task := w.task.put fd (some { descriptor with cursor := cursor }) }

/-- The first part of `openat_inner`: the node that the path starts from, or an error number. -/
def startingPoint (w : World) (dirfd : Int) (path : List UInt8) : Except Fault (Except Int (Option Nat)) := do
  match path.head? with
  | none => .error .badPointer
  | some first =>
    if first = slash then .ok (.ok none)
    else if dirfd = atFdcwd then .ok (.ok (some w.task.cwd))
    else
      match ← w.task.descriptor dirfd with
      | none => .ok (.error ebadf)
      | some descriptor =>
        match descriptor.node with
        | none => .error .nullNode
        | some p =>
          match w.vfs.nodes[p]? with
          | none => .error .badPointer
          | some node => if node.type ≠ .directory then .ok (.error enotdir) else .ok (.ok (some p))

def openatInner (w : World) (dirfd : Int) (path : List UInt8) : Except Fault (World × Int) := do
  match ← w.startingPoint dirfd path with
  | .error errno => .ok (w, -errno)
  | .ok starting_point =>
    match w.vfs.pathToNode path starting_point with
    | none => .error .badPointer
    | some result =>
      match result.target with
      | none => .ok (w, -enoent)
      | some target =>
        let (task, fd) ← w.task.allocateFdnum
        .ok ({ w with task := task.put fd (some { node := some target, cursor := 0 }) }, fd)

def syscallOpen (w : World) (path : List UInt8) : Except Fault (World × Int) := w.openatInner atFdcwd path

def syscallOpenat (w : World) (dirfd : Int) (path : List UInt8) : Except Fault (World × Int) :=
  w.openatInner dirfd path

def syscallClose (w : World) (fd : Int) : Except Fault World := do
  let task ← w.task.syscallClose fd
  .ok { w with task := task }

def syscallRead (w : World) (fd : Int) (buf count : Nat) : Except Fault World := do
  if w.task.Outside fd then .ok w
  else if fd = 0 then .ok (w.kbdRead buf count)
  else
    match ← w.task.descriptor fd with
    | none => .ok w
    | some descriptor =>
      let w ← w.fsRead descriptor.node buf count descriptor.cursor
      .ok (w.moveCursor fd descriptor ((descriptor.cursor + count) % 2 ^ 64))

def syscallPread (w : World) (fd : Int) (buf count offset : Nat) : Except Fault World := do
  match ← w.task.descriptor fd with
  | none => .ok w
  | some descriptor => w.fsRead descriptor.node buf count offset

/-- The cast of `count` to `int` keeps its lower 32 bits, which `printf` takes as an unsigned length. -/
def syscallWrite (w : World) (fd : Int) (buf count : Nat) (fresh : Nat → UInt8) : Except Fault World := do
  if w.task.Outside fd then .ok w
  else if fd = 1 then
    match printfString w.memory (count % 2 ^ 32) buf with
    | none => .error .badPointer
    | some printed => .ok { w with console := w.console ++ printed }
  else
    match ← w.task.descriptor fd with
    | none => .ok w
    | some descriptor =>
      let w ← w.fsWrite descriptor.node (w.userWrite buf count descriptor.cursor fresh)
      .ok (w.moveCursor fd descriptor ((descriptor.cursor + count) % 2 ^ 64))

def syscallPwrite (w : World) (fd : Int) (buf count offset : Nat) (fresh : Nat → UInt8) : Except Fault World := do
  match ← w.task.descriptor fd with
  | none => .ok w
  | some descriptor => w.fsWrite descriptor.node (w.userWrite buf count offset fresh)

def syscallSeek (w : World) (fd offset : Int) : Except Fault World := do
  match ← w.task.descriptor fd with
  | none => .ok w
  | some descriptor => .ok (w.moveCursor fd descriptor (offset % 2 ^ 64).toNat)

def syscallChdir (w : World) (path : List UInt8) : Except Fault (World × Int) :=
  match w.vfs.syscallChdir w.task.cwd path with
  | none => .error .badPointer
  | some (cwd, result) => .ok ({ w with task := { w.task with cwd := cwd } }, result)

end World

/-- The system calls of the task, a write to a file by another task, and the task's own code, which
leaves the memory as it likes. Paths end with a NUL; a write finds `fresh` in the heap. -/
inductive Event where
  | openPath (path : CString)
  | openat (dirfd : Int) (path : CString)
  | close (fd : Int)
  | read (fd : Int) (buf count : Nat)
  | pread (fd : Int) (buf count offset : Nat)
  | write (fd : Int) (buf count : Nat) (fresh : Nat → UInt8)
  | pwrite (fd : Int) (buf count offset : Nat) (fresh : Nat → UInt8)
  | seek (fd offset : Int)
  | chdir (path : CString)
  | otherTask (node : Nat) (write : Write)
  | user (memory : Mem)

namespace World

/-- A path argument in memory. -/
def pathBytes (path : CString) : List UInt8 := path.chars ++ [0]

/-- The world after an event, and what the system call returns, if it returns something. -/
def step (w : World) : Event → Except Fault (World × Int)
  | .openPath path => w.syscallOpen (pathBytes path)
  | .openat dirfd path => w.syscallOpenat dirfd (pathBytes path)
  | .close fd => (w.syscallClose fd).map (·, 0)
  | .read fd buf count => (w.syscallRead fd buf count).map (·, 0)
  | .pread fd buf count offset => (w.syscallPread fd buf count offset).map (·, 0)
  | .write fd buf count fresh => (w.syscallWrite fd buf count fresh).map (·, 0)
  | .pwrite fd buf count offset fresh => (w.syscallPwrite fd buf count offset fresh).map (·, 0)
  | .seek fd offset => (w.syscallSeek fd offset).map (·, 0)
  | .chdir path => w.syscallChdir (pathBytes path)
  | .otherTask node write => (w.fsWrite (some node) write).map (·, 0)
  | .user memory => .ok ({ w with memory := memory }, 0)

def run (w : World) (events : List Event) : Except Fault World :=
  events.foldlM (fun w event => (w.step event).map Prod.fst) w

/-- A task that `new_user_task` made, over a tree of files. -/
structure Starts (w : World) : Prop where
  built : ∃ heap, Vfs.Built heap w.vfs
  task : ∃ root, w.vfs.root = some root ∧ TaskFiles.newUserTask root = some w.task

variable {w w' : World} {fd dirfd result : Int} {path : List UInt8} {node : Option Nat} {n : Node} {p : Nat}
  {event : Event} {events : List Event} {d : FileDescriptor}

theorem run_snoc (w : World) (events : List Event) (event : Event) :
    w.run (events ++ [event]) = (w.run events >>= fun w => (w.step event).map Prod.fst) := by
  unfold run
  rw [List.foldlM_append]
  congr 1
  funext w
  rw [List.foldlM_cons]
  cases w.step event with
  | error fault => rfl
  | ok s => rfl

theorem run_snoc_ok (ran : w.run (events ++ [event]) = .ok w') :
    ∃ w₁ result, w.run events = .ok w₁ ∧ w₁.step event = .ok (w', result) := by
  rw [run_snoc] at ran
  obtain ⟨w₁, before, last⟩ := Except.bind_ok ran
  cases stepped : w₁.step event with
  | error fault =>
    rw [stepped] at last
    cases last
  | ok s =>
    rw [stepped] at last
    obtain rfl := Except.ok.inj last
    exact ⟨w₁, s.2, before, stepped⟩

theorem fsRead_ok {buf count offset : Nat} (called : w.fsRead node buf count offset = .ok w') :
    ∃ memory, w' = { w with memory := memory } := by
  obtain ⟨⟨p, n⟩, _, called⟩ := Except.bind_ok called
  dsimp only at called
  split at called
  · exact ⟨w.memory, (Except.ok.inj called).symm⟩
  · exact ⟨_, (Except.ok.inj called).symm⟩

end World

/-- What no write to a file changes of a node. -/
def Node.shape (n : Node) : NodeType × Option FileSystem := (n.type, n.fs)

theorem Vfs.shapes_modify (v : Vfs) (p : Nat) {f : Node → Node} (keeps : ∀ n, (f n).shape = n.shape) :
    (v.modify p f).nodes.map Node.shape = v.nodes.map Node.shape := by
  apply List.ext_getElem?
  intro q
  unfold Vfs.modify
  dsimp only
  rw [List.getElem?_map, List.getElem?_map, List.getElem?_modify]
  cases v.nodes[q]? with
  | none => rfl
  | some n =>
    by_cases same : p = q
    · simp [same, keeps]
    · simp [same]

namespace World

variable {w w' : World} {fd dirfd result : Int} {path : List UInt8} {node : Option Nat} {n : Node} {p : Nat}
  {event : Event} {events : List Event} {d : FileDescriptor}

def shapes (w : World) : List (NodeType × Option FileSystem) := w.vfs.nodes.map Node.shape

theorem fsWrite_ok {write : Write} (called : w.fsWrite node write = .ok w') :
    ∃ vfs, w' = { w with vfs := vfs } ∧ w'.shapes = w.shapes := by
  obtain ⟨⟨p, n⟩, _, called⟩ := Except.bind_ok called
  dsimp only at called
  split at called
  · obtain rfl := Except.ok.inj called
    exact ⟨w.vfs, rfl, rfl⟩
  · obtain rfl := Except.ok.inj called
    exact ⟨_, rfl, Vfs.shapes_modify w.vfs p fun n => rfl⟩

/-- The path leads from the directory to a node. -/
def Resolves (w : World) (dirfd : Int) (path : List UInt8) (target : Nat) : Prop :=
  ∃ start found, w.startingPoint dirfd path = .ok (.ok start) ∧ w.vfs.pathToNode path start = some found ∧
    found.target = some target

theorem startingPoint_errno {errno : Int} (returned : w.startingPoint dirfd path = .ok (.error errno)) :
    0 < errno := by
  unfold startingPoint at returned
  split at returned
  · cases returned
  · split at returned
    · cases returned
    · split at returned
      · cases returned
      · obtain ⟨descriptor, _, returned⟩ := Except.bind_ok returned
        split at returned
        · obtain rfl := Except.error.inj (Except.ok.inj returned)
          decide
        · split at returned
          · cases returned
          · split at returned
            · cases returned
            · split at returned
              · obtain rfl := Except.error.inj (Except.ok.inj returned)
                decide
              · cases returned

theorem openatInner_ok (called : w.openatInner dirfd path = .ok (w', result)) :
    (w' = w ∧ result < 0) ∨ ∃ (i target : Nat) (task : TaskFiles), result = i ∧ w.Resolves dirfd path target ∧
      w.task.Allocated task i ∧ w' = { w with task := task.put i (some { node := some target, cursor := 0 }) } := by
  obtain ⟨start, started, called⟩ := Except.bind_ok called
  split at called
  · rename_i errno
    have positive := startingPoint_errno started
    obtain ⟨rfl, rfl⟩ := Prod.mk.inj (Except.ok.inj called)
    exact .inl ⟨rfl, by omega⟩
  · split at called
    · cases called
    · rename_i found searched
      split at called
      · obtain ⟨rfl, rfl⟩ := Prod.mk.inj (Except.ok.inj called)
        exact .inl ⟨rfl, by decide⟩
      · rename_i target here
        obtain ⟨⟨task, fd⟩, allocated, called⟩ := Except.bind_ok called
        obtain ⟨rfl, rfl⟩ := Prod.mk.inj (Except.ok.inj called)
        obtain ⟨i, rfl, spec⟩ := TaskFiles.allocateFdnum_spec allocated
        exact .inr ⟨i, target, task, rfl, ⟨_, found, started, searched, here⟩, spec, rfl⟩

theorem descriptor_bind {α : Type} (task : TaskFiles) (fd : Int) (f : Option FileDescriptor → Except Fault α) :
    (task.descriptor fd >>= f) = f (task.slot fd) := by
  rw [TaskFiles.descriptor_eq]
  rfl

/-- `read` and `write` leave the table alone or move the cursor of the descriptor by the count. -/
theorem syscallRead_ok {buf count : Nat} (called : w.syscallRead fd buf count = .ok w') :
    w'.vfs = w.vfs ∧ ((w'.task = w.task ∧ (fd = 0 ∨ w.task.slot fd = none)) ∨ ∃ d, fd ≠ 0 ∧
      w.task.slot fd = some d ∧
      w'.task = w.task.put fd (some { d with cursor := (d.cursor + count) % 2 ^ 64 })) := by
  unfold syscallRead at called
  split at called
  · rename_i outside
    obtain rfl := Except.ok.inj called
    exact ⟨rfl, .inl ⟨rfl, .inr (TaskFiles.slot_outside outside)⟩⟩
  · split at called
    · rename_i keyboard
      obtain rfl := Except.ok.inj called
      exact ⟨rfl, .inl ⟨rfl, .inl keyboard⟩⟩
    · rename_i fd0
      rw [descriptor_bind] at called
      split at called
      · rename_i empty
        obtain rfl := Except.ok.inj called
        exact ⟨rfl, .inl ⟨rfl, .inr empty⟩⟩
      · rename_i d found
        obtain ⟨w₁, read, called⟩ := Except.bind_ok called
        obtain ⟨memory, rfl⟩ := fsRead_ok read
        obtain rfl := Except.ok.inj called
        exact ⟨rfl, .inr ⟨d, fd0, found, rfl⟩⟩

theorem syscallWrite_ok {buf count : Nat} {fresh : Nat → UInt8}
    (called : w.syscallWrite fd buf count fresh = .ok w') :
    w'.shapes = w.shapes ∧ ((w'.task = w.task ∧ (fd = 1 ∨ w.task.slot fd = none)) ∨ ∃ d, fd ≠ 1 ∧
      w.task.slot fd = some d ∧ w'.task = w.task.put fd (some { d with cursor := (d.cursor + count) % 2 ^ 64 })) := by
  unfold syscallWrite at called
  split at called
  · rename_i outside
    obtain rfl := Except.ok.inj called
    exact ⟨rfl, .inl ⟨rfl, .inr (TaskFiles.slot_outside outside)⟩⟩
  · split at called
    · rename_i screen
      split at called
      · cases called
      · obtain rfl := Except.ok.inj called
        exact ⟨rfl, .inl ⟨rfl, .inl screen⟩⟩
    · rename_i fd1
      rw [descriptor_bind] at called
      split at called
      · rename_i empty
        obtain rfl := Except.ok.inj called
        exact ⟨rfl, .inl ⟨rfl, .inr empty⟩⟩
      · rename_i d found
        obtain ⟨w₁, written, called⟩ := Except.bind_ok called
        obtain ⟨vfs, rfl, shapes⟩ := fsWrite_ok written
        obtain rfl := Except.ok.inj called
        exact ⟨shapes, .inr ⟨d, fd1, found, rfl⟩⟩

theorem syscallPread_ok {buf count offset : Nat} (called : w.syscallPread fd buf count offset = .ok w') :
    w'.vfs = w.vfs ∧ w'.task = w.task := by
  unfold syscallPread at called
  rw [descriptor_bind] at called
  split at called
  · obtain rfl := Except.ok.inj called
    exact ⟨rfl, rfl⟩
  · obtain ⟨memory, rfl⟩ := fsRead_ok called
    exact ⟨rfl, rfl⟩

theorem syscallPwrite_ok {buf count offset : Nat} {fresh : Nat → UInt8}
    (called : w.syscallPwrite fd buf count offset fresh = .ok w') :
    w'.shapes = w.shapes ∧ w'.task = w.task := by
  unfold syscallPwrite at called
  rw [descriptor_bind] at called
  split at called
  · obtain rfl := Except.ok.inj called
    exact ⟨rfl, rfl⟩
  · obtain ⟨vfs, rfl, shapes⟩ := fsWrite_ok called
    exact ⟨shapes, rfl⟩

theorem syscallSeek_eq (w : World) (fd offset : Int) : w.syscallSeek fd offset =
    .ok (match w.task.slot fd with
      | none => w
      | some d => w.moveCursor fd d (offset % 2 ^ 64).toNat) := by
  unfold syscallSeek
  rw [descriptor_bind]
  cases w.task.slot fd with
  | none => rfl
  | some d => rfl

theorem syscallChdir_ok (called : w.syscallChdir path = .ok (w', result)) :
    ∃ cwd, w.vfs.syscallChdir w.task.cwd path = some (cwd, result) ∧
      w' = { w with task := { w.task with cwd := cwd } } := by
  unfold syscallChdir at called
  split at called
  · cases called
  · rename_i cwd result' changed
    obtain ⟨rfl, rfl⟩ := Prod.mk.inj (Except.ok.inj called)
    exact ⟨cwd, changed, rfl⟩

theorem syscallClose_eq (w : World) (fd : Int) : w.syscallClose fd =
    .ok { w with task := if w.task.slot fd = none then w.task else w.task.closed fd } := by
  unfold syscallClose
  rw [TaskFiles.close_eq]
  rfl

end World

/-- The directory descriptor and the path of an open. -/
def Event.opens : Event → Option (Int × CString)
  | .openPath path => some (atFdcwd, path)
  | .openat dirfd path => some (dirfd, path)
  | _ => none

/-- Where an event other than `close` moves the cursor of a descriptor in use. -/
def Event.cursorAfter (fd : Int) (cursor : Nat) : Event → Nat
  | .read fd' _ count => if fd' = fd ∧ fd ≠ 0 then (cursor + count) % 2 ^ 64 else cursor
  | .write fd' _ count _ => if fd' = fd ∧ fd ≠ 1 then (cursor + count) % 2 ^ 64 else cursor
  | .seek fd' offset => if fd' = fd then (offset % 2 ^ 64).toNat else cursor
  | _ => cursor

namespace World

variable {w w' : World} {fd result : Int} {event : Event} {events : List Event} {d : FileDescriptor}

/-- All that an event does to the table and the working directory. -/
inductive TaskStep (w : World) (event : Event) (result : Int) : TaskFiles → Prop where
  | kept (open' : ∀ fd, event = .close fd → w.task.slot fd = none)
      (still : ∀ fd c, w.task.slot fd ≠ none → event.cursorAfter fd c = c) : TaskStep w event result w.task
  | opened {dirfd : Int} {path : CString} {target i : Nat} {task : TaskFiles}
      (opens : event.opens = some (dirfd, path)) (resolves : w.Resolves dirfd (pathBytes path) target)
      (returned : result = i) (allocated : w.task.Allocated task i) :
      TaskStep w event result (task.put i (some { node := some target, cursor := 0 }))
  | closed {fd : Int} (close : event = .close fd) (used : w.task.slot fd ≠ none) :
      TaskStep w event result (w.task.closed fd)
  | moved {fd : Int} {d : FileDescriptor} (kept : ∀ fd, event ≠ .close fd) (found : w.task.slot fd = some d)
      (only : ∀ fd' c, fd' ≠ fd → event.cursorAfter fd' c = c) :
      TaskStep w event result (w.task.put fd (some { d with cursor := event.cursorAfter fd d.cursor }))
  | changed {path : CString} {cwd : Nat} (chdir : event = .chdir path)
      (found : w.vfs.syscallChdir w.task.cwd (pathBytes path) = some (cwd, result)) :
      TaskStep w event result { w.task with cwd := cwd }

theorem open_task {dirfd : Int} {path : CString}
    (called : w.openatInner dirfd (pathBytes path) = .ok (w', result))
    (opens : event.opens = some (dirfd, path)) : TaskStep w event result w'.task := by
  rcases openatInner_ok called with ⟨rfl, _⟩ | ⟨i, target, task, rfl, resolves, allocated, rfl⟩
  · apply TaskStep.kept
    · rintro fd rfl
      cases opens
    · intro fd c _
      cases event with
      | openPath | openat => rfl
      | _ => cases opens
  · exact .opened opens resolves rfl allocated

/-- `read` and `write`, which look at the descriptor number `special` before the table. -/
theorem transfer_task {special : Int} {count : Nat}
    (called : (w'.task = w.task ∧ (fd = special ∨ w.task.slot fd = none)) ∨ ∃ d, fd ≠ special ∧
      w.task.slot fd = some d ∧ w'.task = w.task.put fd (some { d with cursor := (d.cursor + count) % 2 ^ 64 }))
    (kept : ∀ fd, event ≠ .close fd)
    (after : ∀ fd' c, event.cursorAfter fd' c = if fd = fd' ∧ fd' ≠ special then (c + count) % 2 ^ 64 else c) :
    TaskStep w event result w'.task := by
  rcases called with ⟨same, blocked⟩ | ⟨d, ordinary, found, moved⟩
  · rw [same]
    refine .kept (fun fd close => absurd close (kept fd)) fun fd' c used => (after fd' c).trans (if_neg ?_)
    rintro ⟨rfl, other⟩
    exact blocked.elim other used
  · have here : event.cursorAfter fd d.cursor = (d.cursor + count) % 2 ^ 64 :=
      (after fd d.cursor).trans (if_pos ⟨rfl, ordinary⟩)
    rw [moved, ← here]
    exact .moved kept found fun fd' c other => (after fd' c).trans (if_neg fun both => other both.1.symm)

theorem map_ok {x : Except Fault World} (mapped : x.map (·, (0 : Int)) = .ok (w', result)) : x = .ok w' := by
  cases x with
  | error fault => cases mapped
  | ok a => exact congrArg Except.ok (Prod.mk.inj (Except.ok.inj mapped)).1

theorem step_task (stepped : w.step event = .ok (w', result)) : TaskStep w event result w'.task := by
  have kept : w'.task = w.task → (∀ fd, event ≠ .close fd) → (∀ fd c, event.cursorAfter fd c = c) →
      TaskStep w event result w'.task := by
    intro same other still
    rw [same]
    exact .kept (fun fd close => absurd close (other fd)) fun fd c _ => still fd c
  cases event with
  | openPath path => exact open_task stepped rfl
  | openat dirfd path => exact open_task stepped rfl
  | close fd =>
    have called := map_ok stepped
    rw [syscallClose_eq] at called
    obtain rfl := Except.ok.inj called
    dsimp only
    split
    · rename_i empty
      apply TaskStep.kept
      · rintro _ ⟨rfl⟩
        exact empty
      · exact fun _ _ _ => rfl
    · rename_i used
      exact .closed rfl used
  | read fd buf count => exact transfer_task (syscallRead_ok (map_ok stepped)).2 (fun _ => nofun) fun _ _ => rfl
  | write fd buf count fresh =>
    exact transfer_task (syscallWrite_ok (map_ok stepped)).2 (fun _ => nofun) fun _ _ => rfl
  | pread fd buf count offset =>
    exact kept (syscallPread_ok (map_ok stepped)).2 (fun _ => nofun) fun _ _ => rfl
  | pwrite fd buf count offset fresh =>
    exact kept (syscallPwrite_ok (map_ok stepped)).2 (fun _ => nofun) fun _ _ => rfl
  | seek fd offset =>
    have called := map_ok stepped
    rw [syscallSeek_eq] at called
    obtain rfl := Except.ok.inj called
    cases found : w.task.slot fd with
    | none =>
      refine .kept (fun _ => nofun) fun fd' c used => if_neg ?_
      rintro rfl
      exact used found
    | some d =>
      have here : Event.cursorAfter fd d.cursor (.seek fd offset) = (offset % 2 ^ 64).toNat := if_pos rfl
      dsimp only [moveCursor]
      rw [← here]
      exact .moved (fun _ => nofun) found fun fd' c other => if_neg (Ne.symm other)
  | chdir path =>
    obtain ⟨cwd, found, rfl⟩ := syscallChdir_ok stepped
    exact .changed rfl found
  | otherTask node write =>
    obtain ⟨vfs, rfl, _⟩ := fsWrite_ok (map_ok stepped)
    exact kept rfl (fun _ => nofun) fun _ _ => rfl
  | user memory =>
    obtain ⟨rfl, _⟩ := Prod.mk.inj (Except.ok.inj stepped)
    exact kept rfl (fun _ => nofun) fun _ _ => rfl

/-- All that an event does to a slot of the table. -/
inductive SlotStep (w : World) (event : Event) (result fd : Int) : Option FileDescriptor → Option FileDescriptor → Prop where
  | empty : SlotStep w event result fd none none
  | opened {dirfd : Int} {path : CString} {target : Nat} (opens : event.opens = some (dirfd, path))
      (resolves : w.Resolves dirfd (pathBytes path) target) (returned : result = fd) :
      SlotStep w event result fd none (some { node := some target, cursor := 0 })
  | closed {d : FileDescriptor} (close : event = .close fd) : SlotStep w event result fd (some d) none
  | used {d : FileDescriptor} (kept : event ≠ .close fd) :
      SlotStep w event result fd (some d) (some { d with cursor := event.cursorAfter fd d.cursor })

theorem SlotStep.same {slot : Option FileDescriptor} (kept : slot ≠ none → event ≠ .close fd)
    (still : ∀ c, slot ≠ none → event.cursorAfter fd c = c) : SlotStep w event result fd slot slot := by
  cases slot with
  | none => exact .empty
  | some d =>
    have moved : SlotStep w event result fd (some d) (some { d with cursor := event.cursorAfter fd d.cursor }) :=
      .used (kept nofun)
    rw [still d.cursor nofun] at moved
    exact moved

theorem TaskStep.slot {task : TaskFiles} (step : TaskStep w event result task) (fd : Int) :
    SlotStep w event result fd (w.task.slot fd) (task.slot fd) := by
  cases step with
  | kept open' still =>
    exact .same (fun used close => used (open' fd close)) fun c used => still fd c used
  | opened opens resolves returned allocated =>
    have kept : event ≠ .close fd := by
      rintro rfl
      cases opens
    have still : ∀ c, event.cursorAfter fd c = c := by
      intro c
      cases event with
      | openPath | openat => rfl
      | _ => cases opens
    rw [TaskFiles.slot_put allocated.within]
    split
    · rename_i here
      subst here
      rw [allocated.empty]
      exact .opened opens resolves returned
    · rw [allocated.slots]
      exact .same (fun _ => kept) fun c _ => still c
  | @closed fd' close used =>
    subst close
    rw [TaskFiles.slot_closed used]
    split
    · rename_i here
      subst here
      obtain ⟨d, found⟩ := Option.ne_none_iff_exists'.mp used
      rw [found]
      exact .closed rfl
    · rename_i away
      apply SlotStep.same
      · rintro _ ⟨rfl⟩
        exact away rfl
      · exact fun _ _ => rfl
  | moved kept found only =>
    rw [TaskFiles.slot_put_self (by rw [found]; exact nofun)]
    split
    · rename_i here
      subst here
      rw [found]
      exact .used (kept _)
    · rename_i away
      exact .same (fun _ => kept fd) fun c _ => only fd c away
  | changed chdir found =>
    subst chdir
    exact .same (fun _ => nofun) fun _ _ => rfl

theorem step_slot (stepped : w.step event = .ok (w', result)) (fd : Int) :
    SlotStep w event result fd (w.task.slot fd) (w'.task.slot fd) := (step_task stepped).slot fd

theorem step_shapes (stepped : w.step event = .ok (w', result)) : w'.shapes = w.shapes := by
  cases event with
  | openPath path | openat dirfd path =>
    rcases openatInner_ok stepped with ⟨rfl, _⟩ | ⟨i, target, task, rfl, resolves, allocated, rfl⟩
    · rfl
    · rfl
  | close fd =>
    have called := map_ok stepped
    rw [syscallClose_eq] at called
    obtain rfl := Except.ok.inj called
    rfl
  | read fd buf count => exact congrArg (fun v : Vfs => v.nodes.map Node.shape) (syscallRead_ok (map_ok stepped)).1
  | write fd buf count fresh => exact (syscallWrite_ok (map_ok stepped)).1
  | pread fd buf count offset => exact congrArg (fun v : Vfs => v.nodes.map Node.shape) (syscallPread_ok (map_ok stepped)).1
  | pwrite fd buf count offset fresh => exact (syscallPwrite_ok (map_ok stepped)).1
  | seek fd offset =>
    have called := map_ok stepped
    rw [syscallSeek_eq] at called
    obtain rfl := Except.ok.inj called
    cases w.task.slot fd with
    | none => rfl
    | some d => rfl
  | chdir path =>
    obtain ⟨cwd, _, rfl⟩ := syscallChdir_ok stepped
    rfl
  | otherTask node write =>
    obtain ⟨vfs, _, shapes⟩ := fsWrite_ok (map_ok stepped)
    exact shapes
  | user memory =>
    obtain ⟨rfl, _⟩ := Prod.mk.inj (Except.ok.inj stepped)
    rfl

theorem run_shapes (ran : w.run events = .ok w') : w'.shapes = w.shapes := by
  induction events using List.reverseRecOn generalizing w' with
  | nil => exact (Except.ok.inj ran) ▸ rfl
  | append_singleton events event ih =>
    obtain ⟨w₁, result, before, last⟩ := run_snoc_ok ran
    exact (step_shapes last).trans (ih before)

end World

end FishOS.Fs
