import FishOS.Fs.FileAccess

/-!
# Sequential reads and writes

The cursor of a descriptor beside the position that the transferred bytes give. `read` moves the
cursor by the requested count, also where the file ends before.
-/

namespace FishOS.Fs

namespace World

def dataAt (w : World) (p : Nat) : NodeData := (w.vfs.nodes[p]?).elim NodeData.create Node.data

def cursorOf (w : World) (fd : Int) : Nat := (w.task.slot fd).elim 0 FileDescriptor.cursor

/-- The bytes that an event transfers between the file and the task at the cursor of the descriptor. -/
def transferred (w : World) (fd : Int) (p : Nat) : Event → Nat
  | .read fd' _ count => if fd' = fd ∧ fd ≠ 0 then (w.dataAt p).transferred count (w.cursorOf fd) else 0
  | .write fd' _ count _ => if fd' = fd ∧ fd ≠ 1 then count else 0
  | _ => 0

/-- The position of the last seek and the bytes transferred since. -/
def positionAfter (w : World) (fd : Int) (p position : Nat) : Event → Nat
  | .seek fd' offset => if fd' = fd then offset.toNat else position
  | event => position + w.transferred fd p event

/-- A run with the position beside the state. -/
def runCounted (fd : Int) (p : Nat) (s : World × Nat) (events : List Event) : Except Fault (World × Nat) :=
  events.foldlM (fun (w, position) event => (w.step event).map fun s => (s.1, w.positionAfter fd p position event)) s

/-- The cursor is at the position, and a read delivers the bytes of the file from there on. -/
structure InSequence (w : World) (fd : Int) (p position : Nat) : Prop where
  cursor : w.cursorOf fd = position
  delivers : ∀ buf count, fd ≠ 0 → position + count < 2 ^ 64 → ∃ w', w.syscallRead fd buf count = .ok w' ∧
    ∀ k < min count ((w.dataAt p).size - position), w'.memory (buf + k) = (w.dataAt p).storage (position + k)

/-- Seeks go to offsets that are not negative, and no cursor wraps around. -/
def Straight (w : World) (fd : Int) : Event → Prop
  | .read fd' _ count | .write fd' _ count _ => fd' = fd → w.cursorOf fd + count < 2 ^ 64
  | .seek fd' offset => fd' = fd → 0 ≤ offset ∧ offset < 2 ^ 63
  | _ => True

/-- What holds before every event of a run. -/
def Along (w : World) (events : List Event) (P : World → Event → Prop) : Prop :=
  ∀ done event rest w', events = done ++ event :: rest → w.run done = .ok w' → P w' event

/-- A read through the descriptor asks for no more bytes than the file has behind the cursor. -/
def Full (fd : Int) (p : Nat) (w : World) (event : Event) : Prop :=
  ∀ buf count, event = .read fd buf count → fd = 0 ∨ count ≤ (w.dataAt p).size - w.cursorOf fd

variable {w w' w₁ w₂ w₃ : World} {event : Event} {events history : List Event} {fd dirfd : Int} {path : Klib.CString}
  {p position : Nat} {result : Int} {d : FileDescriptor}

theorem runCounted_snoc (s : World × Nat) (events : List Event) (event : Event) :
    runCounted fd p s (events ++ [event]) = (runCounted fd p s events >>= fun (w, position) =>
      (w.step event).map fun s => (s.1, w.positionAfter fd p position event)) := by
  unfold runCounted
  rw [List.foldlM_append]
  simp

theorem runCounted_run (fd : Int) (p : Nat) (w : World) (start : Nat) (events : List Event) :
    (runCounted fd p (w, start) events).map Prod.fst = w.run events := by
  induction events using List.reverseRecOn with
  | nil => rfl
  | append_singleton events event ih =>
    rw [runCounted_snoc, run_snoc, ← ih]
    cases runCounted fd p (w, start) events with
    | error fault => rfl
    | ok s =>
      have same : (((s.1.step event).map fun t => (t.1, s.1.positionAfter fd p s.2 event)).map Prod.fst) =
          (s.1.step event).map Prod.fst := by
        cases s.1.step event with
        | error fault => rfl
        | ok t => rfl
      exact same

theorem exists_position (fd : Int) (p : Nat) (ran : w.run events = .ok w') (start : Nat) :
    ∃ position, runCounted fd p (w, start) events = .ok (w', position) := by
  rw [← runCounted_run fd p w start events] at ran
  cases counted : runCounted fd p (w, start) events with
  | error fault =>
    rw [counted] at ran
    cases ran
  | ok s =>
    rw [counted] at ran
    obtain rfl := Except.ok.inj ran
    exact ⟨s.2, rfl⟩

theorem run_of_counted {start : Nat} (counted : runCounted fd p (w, start) events = .ok (w', position)) :
    w.run events = .ok w' := by
  rw [← runCounted_run fd p w start events, counted]
  rfl

theorem full_read_iff {buf count : Nat} :
    w.Full fd p (.read fd buf count) ↔ fd = 0 ∨ count ≤ (w.dataAt p).size - w.cursorOf fd := by
  constructor
  · exact fun full => full buf count rfl
  · rintro enough _ _ ⟨rfl⟩
    exact enough

theorem full_other (other : ∀ buf count, event ≠ .read fd buf count) : w.Full fd p event :=
  fun buf count same => absurd same (other buf count)

/-- The cursor and the position move together, except in a read that asks for too much. -/
theorem advance_iff (straight : w.Straight fd event) :
    event.cursorAfter fd (w.cursorOf fd) = w.positionAfter fd p (w.cursorOf fd) event ↔ w.Full fd p event := by
  cases event with
  | read fd' buf count =>
    by_cases here : fd' = fd
    · subst here
      have small : w.cursorOf fd' + count < 2 ^ 64 := straight rfl
      rw [full_read_iff]
      unfold Event.cursorAfter positionAfter transferred
      dsimp only
      by_cases keyboard : fd' = 0
      · simp [keyboard]
      · rw [if_pos ⟨rfl, keyboard⟩, if_pos ⟨rfl, keyboard⟩, Nat.mod_eq_of_lt small,
          NodeData.transferred_eq _ (by omega)]
        omega
    · refine iff_of_true ?_ (full_other ?_)
      · unfold Event.cursorAfter positionAfter transferred
        dsimp only
        rw [if_neg fun both => here both.1, if_neg fun both => here both.1, Nat.add_zero]
      · rintro _ _ ⟨rfl⟩
        exact here rfl
  | write fd' buf count fresh =>
    refine iff_of_true ?_ (full_other fun _ _ => nofun)
    unfold Event.cursorAfter positionAfter transferred
    dsimp only
    by_cases through : fd' = fd ∧ fd ≠ 1
    · have small : w.cursorOf fd + count < 2 ^ 64 := straight through.1
      rw [if_pos through, if_pos through, Nat.mod_eq_of_lt small]
    · rw [if_neg through, if_neg through, Nat.add_zero]
  | seek fd' offset =>
    refine iff_of_true ?_ (full_other fun _ _ => nofun)
    unfold Event.cursorAfter positionAfter
    dsimp only
    by_cases here : fd' = fd
    · obtain ⟨lower, upper⟩ := straight here
      rw [if_pos here, if_pos here, Int.emod_eq_of_lt lower (by omega)]
    · rw [if_neg here, if_neg here]
  | _ => exact iff_of_true rfl (full_other fun _ _ => nofun)

theorem counted_snoc {s : World × Nat} (counted : runCounted fd p s events = .ok (w, position))
    (stepped : w.step event = .ok (w', result)) :
    runCounted fd p s (events ++ [event]) = .ok (w', w.positionAfter fd p position event) := by
  rw [runCounted_snoc, counted]
  exact congrArg (Except.map fun s => (s.1, w.positionAfter fd p position event)) stepped

theorem counted_snoc_ok {s : World × Nat}
    (counted : runCounted fd p s (events ++ [event]) = .ok (w', position)) :
    ∃ w₁ before result, runCounted fd p s events = .ok (w₁, before) ∧ w₁.step event = .ok (w', result) ∧
      position = w₁.positionAfter fd p before event := by
  rw [runCounted_snoc] at counted
  obtain ⟨⟨w₁, before⟩, earlier, last⟩ := Except.bind_ok counted
  dsimp only at last
  cases stepped : w₁.step event with
  | error fault =>
    rw [stepped] at last
    cases last
  | ok s =>
    rw [stepped] at last
    obtain ⟨rfl, rfl⟩ := Prod.mk.inj (Except.ok.inj last)
    exact ⟨w₁, before, s.2, earlier, stepped, rfl⟩

theorem run_single (stepped : w.step event = .ok (w', result)) : w.run [event] = .ok w' := by
  have run := run_snoc w [] event
  rw [List.nil_append] at run
  rw [run]
  exact congrArg (Except.map Prod.fst) stepped

theorem along_single {P : World → Event → Prop} : w.Along [event] P ↔ P w event := by
  constructor
  · intro along
    exact along [] event [] w rfl rfl
  · intro holds done event' rest w' cut before
    cases done with
    | nil =>
      obtain ⟨rfl, _⟩ := List.cons.inj cut
      obtain rfl := Except.ok.inj before
      exact holds
    | cons first done => simp at cut

/-- A step on a descriptor that stays open. -/
theorem cursor_step (stepped : w.step event = .ok (w', result)) (kept : event ≠ .close fd)
    (used : w.task.slot fd ≠ none) :
    w'.cursorOf fd = event.cursorAfter fd (w.cursorOf fd) := by
  obtain ⟨d, found⟩ := Option.ne_none_iff_exists'.mp used
  have slot := step_slot stepped fd
  unfold cursorOf
  rw [found] at slot ⊢
  generalize w'.task.slot fd = after at slot ⊢
  cases slot with
  | closed close => exact absurd close kept
  | used _ => rfl

/-- The cursor is at the position throughout a run exactly when every read is full. -/
theorem cursor_eq_position_iff (start : w.cursorOf fd = 0) (used : w.task.slot fd ≠ none)
    (ran : w.run events = .ok w') (kept : ∀ event ∈ events, event ≠ .close fd)
    (straight : w.Along events fun w event => w.Straight fd event) :
    (∀ done w₁ position, done <+: events → runCounted fd p (w, 0) done = .ok (w₁, position) →
      w₁.cursorOf fd = position) ↔ w.Along events fun w event => w.Full fd p event := by
  have stays : ∀ {done w₁}, done <+: events → w.run done = .ok w₁ → w₁.task.slot fd ≠ none := by
    intro done w₁ first before
    obtain ⟨d, found⟩ := Option.ne_none_iff_exists'.mp used
    obtain ⟨cursor, here⟩ := run_slot before (fun event member => kept event (first.subset member)) found
    rw [here]
    exact nofun
  constructor
  · rintro same done event rest w₁ rfl before
    obtain ⟨position, counted⟩ := exists_position fd p before 0
    have split : done ++ event :: rest = (done ++ [event]) ++ rest := by rw [List.append_assoc]; rfl
    rw [split] at ran
    obtain ⟨w₂, ran₂, _⟩ := run_append_ok ran
    obtain ⟨w₁', result, before', stepped⟩ := run_snoc_ok ran₂
    obtain rfl := Except.ok.inj (before.symm.trans before')
    have here := same done w₁ position (List.prefix_append _ _) counted
    have next := same (done ++ [event]) w₂ _ ⟨rest, split.symm⟩ (counted_snoc counted stepped)
    have moved := cursor_step stepped (kept event (by simp)) (stays (List.prefix_append _ _) before)
    subst here
    exact (advance_iff (straight done event rest w₁ rfl before)).mp (moved.symm.trans next)
  · intro full done
    induction done using List.reverseRecOn with
    | nil =>
      intro w₁ position _ counted
      obtain ⟨rfl, rfl⟩ := Prod.mk.inj (Except.ok.inj counted)
      exact start
    | append_singleton done event ih =>
      rintro w₁ position ⟨rest, rfl⟩ counted
      have split : done ++ [event] ++ rest = done ++ event :: rest := by rw [List.append_assoc]; rfl
      have first : done <+: done ++ [event] ++ rest := ⟨event :: rest, split.symm⟩
      obtain ⟨w₂, before, result, earlier, stepped, rfl⟩ := counted_snoc_ok counted
      have ran₂ := run_of_counted earlier
      have here := ih w₂ before first earlier
      have moved := cursor_step stepped (kept event (by simp)) (stays first ran₂)
      subst here
      exact moved.trans ((advance_iff (straight done event rest w₂ split ran₂)).mpr (full done event rest w₂ split ran₂))

/-- What a read at the position of a file that is in use delivers. -/
theorem OnFile.inSequence (on : w.OnFile fd p d) (cursor : w.cursorOf fd = position) :
    w.InSequence fd p position := by
  obtain ⟨n, read, type, pread⟩ := on.pread
  have data : w.dataAt p = n.data := by
    unfold dataAt
    rw [read]
    rfl
  have here : d.cursor = position := by
    unfold cursorOf at cursor
    rw [on.slot] at cursor
    exact cursor
  refine ⟨cursor, ?_⟩
  intro buf count ordinary small
  refine ⟨_, (on.reads_iff.mpr ordinary buf count).trans (by rw [pread]; rfl), ?_⟩
  intro k inside
  rw [data] at inside ⊢
  have back : buf + k - buf = k := by omega
  rw [NodeData.read_eq, here, NodeData.transferred_eq _ (by omega)]
  dsimp only [moveCursor]
  rw [Mem.copyIn_inside _ (by omega) (by omega), back]

/-- Between the open of a file and the close of its descriptor, the cursor is at the position of the
last seek and the bytes transferred since, and reads go on from there, exactly when no read asks for
more than the file has behind the cursor. -/
theorem sequential_io_iff (starts : w.Starts) (before : w.run history = .ok w₁)
    (opens : event.opens = some (dirfd, path)) (opened : w₁.step event = .ok (w₂, fd)) (success : 0 ≤ fd)
    (resolves : w₁.Resolves dirfd (pathBytes path) p) (file : w₁.vfs.IsFile p)
    (after : w₂.run events = .ok w₃) (kept : ∀ event ∈ events, event ≠ .close fd)
    (straight : w₂.Along events fun w event => w.Straight fd event) :
    (∀ done w' position, done <+: events → runCounted fd p (w₂, 0) done = .ok (w', position) →
      w'.InSequence fd p position) ↔ w₂.Along events fun w event => w.Full fd p event := by
  obtain ⟨target, _, filled⟩ := open_fills opens opened success
  have start : w₂.cursorOf fd = 0 := by
    unfold cursorOf
    rw [filled]
    rfl
  rw [← cursor_eq_position_iff start (by rw [filled]; exact nofun) after kept straight]
  constructor
  · intro inSequence done w' position first counted
    exact (inSequence done w' position first counted).cursor
  · intro cursor done w' position first counted
    have open' : ∀ event ∈ done, event ≠ .close fd := fun event member => kept event (first.subset member)
    obtain ⟨d, on⟩ :=
      opened_onFile starts before opens opened success (run_of_counted counted) open' resolves file
    exact on.inSequence (cursor done w' position first counted)

/-- A file opened as descriptor 2, and a seek to its start. -/
theorem sequential_io_iff_seek : ∃ w₂ w₃ : World, w₂.run [.seek 2 0] = .ok w₃ ∧
    ((∀ done w' position, done <+: [.seek 2 0] → runCounted 2 3 (w₂, 0) done = .ok (w', position) →
      w'.InSequence 2 3 position) ↔ w₂.Along [.seek 2 0] fun w event => w.Full 2 3 event) := by
  obtain ⟨w, w₁, w₂, starts, ran, opened, resolves, n, read, type, _⟩ := exists_open_file (show 2 < 3 by decide)
  have called := congrArg (Except.map (·, (0 : Int))) (syscallSeek_eq w₂ 2 0)
  have after := run_single (show w₂.step (.seek 2 0) = .ok _ from called)
  refine ⟨w₂, _, after, sequential_io_iff starts ran rfl opened (by decide) resolves ⟨n, read, type⟩ after ?_ ?_⟩
  · intro event member
    obtain rfl := List.mem_singleton.mp member
    exact nofun
  · exact along_single.mpr fun _ => by decide

/-- A read of one byte from an empty file moves the cursor, and transfers nothing. -/
theorem read_skips : ∃ w w₁ w₂ w₃ : World, w.Starts ∧ w.run [.close 2] = .ok w₁ ∧
    w₁.Resolves atFdcwd (pathBytes Vfs.binName) 3 ∧ w₁.vfs.IsFile 3 ∧
      w₁.step (.openPath Vfs.binName) = .ok (w₂, 2) ∧
    w₂.run [.read 2 0 1] = .ok w₃ ∧ runCounted 2 3 (w₂, 0) [.read 2 0 1] = .ok (w₃, 0) ∧
      ¬w₃.InSequence 2 3 0 := by
  obtain ⟨w, w₁, w₂, starts, ran, opened, resolves, n, read, type, data⟩ :=
    exists_open_file (show 2 < 3 by decide)
  have file : w₁.vfs.IsFile 3 := ⟨n, read, type⟩
  obtain ⟨d, on⟩ :=
    opened_onFile starts ran rfl opened (by decide) (show w₂.run [] = .ok w₂ from rfl) (by simp) resolves file
  obtain ⟨target, _, filled⟩ := open_fills rfl opened (by decide)
  have same : w₂.vfs = w₁.vfs := (table_step (show (Event.openPath Vfs.binName).OnTable from trivial) opened).1
  have used : w₂.task.slot 2 ≠ none := by
    have filled : w₂.task.slot 2 = some { node := some target, cursor := 0 } := filled
    rw [filled]
    exact nofun
  have start : w₂.cursorOf 2 = 0 := by
    have filled : w₂.task.slot 2 = some { node := some target, cursor := 0 } := filled
    unfold cursorOf
    rw [filled]
    rfl
  have empty : w₂.dataAt 3 = NodeData.create := by
    unfold dataAt
    rw [same, read]
    exact data
  obtain ⟨n', _, _, pread⟩ := on.pread
  have called := on.reads_iff.mpr (show ((2 : Nat) : Int) ≠ 0 by decide) 0 1
  rw [pread] at called
  have stepped := congrArg (Except.map (·, (0 : Int))) called
  have stepped : w₂.step (.read 2 0 1) = .ok (_, 0) := stepped
  have position : w₂.positionAfter 2 3 0 (.read 2 0 1) = 0 := by
    unfold positionAfter transferred
    dsimp only
    rw [empty, start]
    rfl
  have counted := counted_snoc (show runCounted 2 3 (w₂, 0) [] = .ok (w₂, 0) from rfl) stepped
  rw [List.nil_append, position] at counted
  refine ⟨w, w₁, w₂, _, starts, ran, resolves, file, opened, run_single stepped, counted, ?_⟩
  intro inSequence
  have moved := cursor_step stepped nofun used
  rw [inSequence.cursor, start] at moved
  exact absurd moved (by decide)

end World

end FishOS.Fs
