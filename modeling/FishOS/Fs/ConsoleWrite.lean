import FishOS.Fs.DescriptorTable
import FishOS.Klib.PrintfReturns

/-!
# Writing to standard output

`syscall_write` hands the bytes of a write to descriptor 1 to `printf` as a string with a length.
-/

namespace FishOS.Fs

open Klib

/-- `"%.*s"` -/
def percentStar : CString := .ofBytes [0x25, 0x2E, 0x2A, 0x73]

/-- `printf` reads the length as a `usize`, but the argument is an `int`, which fills the lower half
of its register. What stands in the upper half is left to the compiler. -/
def writeArgs (upper : UInt32) (buf count : UInt64) : Nat → UInt64
  | 0 => UInt64.ofNat (upper.toNat * 2 ^ 32 + count.toNat % 2 ^ 32)
  | _ => buf

namespace World

variable {Lock : Type} [DecidableEq Lock]

/-- `syscall_write(1, buf, count)` -/
def stdoutWrite (w : World) (bound : Nat) (core : Core Lock) (print_lock : Lock) (upper : UInt32) (buf count : UInt64) :
    Except PrintFault (Core Lock × Printer) :=
  if w.task.Outside 1 then .ok (core, .start)
  else vprintf bound core print_lock w.memory (writeArgs upper buf count) percentStar

/-- The call returns, it has printed the bytes of the buffer, and it has read no others. -/
def PrintsBuffer (w : World) (core : Core Lock) (print_lock : Lock) (upper : UInt32) (buf count : UInt64) : Prop :=
  ∃ enough, ∀ bound ≥ enough, ∃ core' p, w.stdoutWrite bound core print_lock upper buf count = .ok (core', p) ∧
    p.events.filterMap PrintEvent.printed = bytesAt w.memory buf.toNat count.toNat ∧
    ∀ a, .read a ∈ p.events → buf.toNat ≤ a ∧ a < buf.toNat + count.toNat

variable {w w' : World} {core : Core Lock} {print_lock : Lock} {upper : UInt32} {buf count : UInt64} {bound : Nat}
  {event : Event} {events : List Event} {result : Int} {dirfd : Int} {path : List UInt8}

/-! ### The table never gets smaller -/

theorem openatInner_size (called : w.openatInner dirfd path = .ok (w', result)) :
    w.task.fileDescriptors.size ≤ w'.task.fileDescriptors.size := by
  obtain ⟨start, -, called⟩ := Except.bind_ok called
  split at called
  · obtain ⟨rfl, -⟩ := Prod.mk.inj (Except.ok.inj called)
    exact Nat.le_refl _
  · split at called
    · cases called
    · split at called
      · obtain ⟨rfl, -⟩ := Prod.mk.inj (Except.ok.inj called)
        exact Nat.le_refl _
      · obtain ⟨⟨task, fd⟩, allocated, called⟩ := Except.bind_ok called
        obtain ⟨rfl, -⟩ := Prod.mk.inj (Except.ok.inj called)
        dsimp only
        rw [TaskFiles.size_put]
        exact TaskFiles.allocateFdnum_size allocated

theorem step_size (stepped : w.step event = .ok (w', result)) :
    w.task.fileDescriptors.size ≤ w'.task.fileDescriptors.size := by
  have changed := step_task stepped
  generalize after : w'.task = task at changed
  cases changed with
  | kept => exact Nat.le_refl _
  | opened opens resolves returned allocated =>
    rw [← after]
    exact openatInner_size ((step_opens opens).symm.trans stepped)
  | closed close used => rw [TaskFiles.size_closed]
  | moved kept found only => rw [TaskFiles.size_put]
  | changed chdir found => exact Nat.le_refl _

theorem Starts.stdout_inside (starts : w.Starts) (ran : w.run events = .ok w') : ¬w'.task.Outside 1 := by
  have three : 3 ≤ w'.task.fileDescriptors.size := by
    induction events using List.reverseRecOn generalizing w' with
    | nil =>
      obtain rfl := Except.ok.inj ran
      obtain ⟨root, -, made⟩ := starts.task
      unfold Klib.Vector.size
      rw [(TaskFiles.newUserTask_eq made).1]
      exact Nat.le_refl 3
    | append_singleton events event ih =>
      obtain ⟨w₁, result, before, last⟩ := run_snoc_ok ran
      exact Nat.le_trans (ih before) (step_size last)
  rw [TaskFiles.outside_iff]
  omega

/-! ### The call of printf -/

/-- The length that `printf` takes from the first argument. -/
def printedLength (upper : UInt32) (count : UInt64) : Nat := upper.toNat * 2 ^ 32 + count.toNat % 2 ^ 32

theorem writeArgs_zero (upper : UInt32) (buf count : UInt64) :
    (writeArgs upper buf count 0).toNat = printedLength upper count := by
  have half := upper.toNat_lt
  apply UInt64.toNat_ofNat_of_lt'
  show upper.toNat * 2 ^ 32 + count.toNat % 2 ^ 32 < 2 ^ 64
  omega

/-- The string and its length are the only conversion. -/
theorem stdoutWrite_eq (inside : ¬w.task.Outside 1) (free : core.locked print_lock = false) (enough : 4 < bound) :
    w.stdoutWrite bound core print_lock upper buf count =
      ((stringLength w.memory (printedLength upper count) buf.toNat).elim (.error .panic) fun n =>
        ({ written := 0, list := 2, events := [] } : Printer).put n
          (stringEvents w.memory (printedLength upper count) buf.toNat n)) >>= fun p =>
            .ok ((core.cli.setLocked print_lock true).unlock print_lock, p) := by
  have made : percentStar.chars = [Directive.convert [.star] (.singleton _) .s].flatMap Directive.bytes := rfl
  have print : Directive.print w.memory (writeArgs upper buf count) .start (.convert [.star] (.singleton _) .s) =
      printString w.memory (writeArgs upper buf count)
        { noFlags with sLength := (writeArgs upper buf count 0).toNat } { Printer.start with list := 1 } := rfl
  unfold stdoutWrite
  rw [if_neg inside, vprintf_directives free (by decide) made enough, List.foldlM_cons, print, printString_eq,
    writeArgs_zero]
  simp only [List.foldlM_nil, bind_pure]
  rfl

theorem charsAt_eq (m : Mem) (limit a : Nat) : charsAt m limit a = (nulDistance m limit a).map (bytesAt m a) := by
  induction limit generalizing a with
  | zero => rfl
  | succ limit ih =>
    rw [charsAt, nulDistance]
    by_cases nul : m a = 0
    · rw [if_pos nul, if_pos nul]
      rfl
    · rw [if_neg nul, if_neg nul, ih, Option.map_map, Option.map_map]
      congr 1
      funext n
      unfold bytesAt
      simp only [Function.comp_apply, List.range_succ_eq_map, List.map_cons, List.map_map, Nat.add_zero]
      congr 2
      funext i
      rw [Function.comp_apply, Nat.succ_eq_add_one, Nat.add_assoc, Nat.add_comm 1 i]

/-- What a call prints that returns is what the world's console gets. -/
theorem stdoutWrite_console {core' : Core Lock} {p : Printer} (inside : ¬w.task.Outside 1)
    (free : core.locked print_lock = false) (enough : 4 < bound)
    (returned : w.stdoutWrite bound core print_lock 0 buf count = .ok (core', p)) (fresh : Nat → UInt8) :
    w.syscallWrite 1 buf.toNat count.toNat fresh =
      .ok { w with console := w.console ++ p.events.filterMap PrintEvent.printed } := by
  have length : printedLength 0 count = count.toNat % 2 ^ 32 := by
    unfold printedLength
    rw [UInt32.toNat_zero]
    omega
  rw [stdoutWrite_eq inside free enough, length] at returned
  obtain ⟨p₁, put, returned⟩ := Except.bind_ok returned
  obtain ⟨-, rfl⟩ := Prod.mk.inj (Except.ok.inj returned)
  cases taken : stringLength w.memory (count.toNat % 2 ^ 32) buf.toNat with
  | none =>
    rw [taken] at put
    cases put
  | some n =>
    rw [taken] at put
    obtain ⟨-, rfl⟩ := Printer.put_ok put
    have console : printfString w.memory (count.toNat % 2 ^ 32) buf.toNat = some (bytesAt w.memory buf.toNat n) := by
      unfold printfString
      by_cases given : count.toNat % 2 ^ 32 ≠ 0
      · obtain ⟨rfl, -⟩ := (stringLength_given given).mp taken
        rw [if_pos given]
      · rw [if_neg given, charsAt_eq]
        unfold stringLength at taken
        split at taken
        · cases taken
        · rw [taken]
          rfl
    unfold syscallWrite
    rw [if_neg inside, if_pos rfl, console, List.nil_append, printed_stringEvents]
    rfl

/-- As many characters come out as the buffer has bytes, so this was the length. Without a length the
NUL behind them is read. -/
theorem PrintsBuffer.fits (inside : ¬w.task.Outside 1) (free : core.locked print_lock = false)
    (prints : w.PrintsBuffer core print_lock upper buf count) : printedLength upper count = count.toNat ∧
      1 ≤ count.toNat ∧ count.toNat < 2 ^ 31 ∧ buf.toNat ≠ 0 ∧ buf.toNat + count.toNat ≤ 2 ^ 64 := by
  obtain ⟨enough, prints⟩ := prints
  obtain ⟨core', p, returned, printed, reads⟩ := prints (max enough 5) (Nat.le_max_left _ _)
  rw [stdoutWrite_eq inside free (by omega)] at returned
  obtain ⟨p₁, put, returned⟩ := Except.bind_ok returned
  obtain ⟨-, rfl⟩ := Prod.mk.inj (Except.ok.inj returned)
  cases taken : stringLength w.memory (printedLength upper count) buf.toNat with
  | none =>
    rw [taken] at put
    cases put
  | some n =>
    rw [taken] at put
    obtain ⟨small, rfl⟩ := Printer.put_ok put
    dsimp only at printed reads small
    rw [List.nil_append] at printed reads
    have whole : n = count.toNat := by
      rw [printed_stringEvents] at printed
      have length := congrArg List.length printed
      unfold bytesAt at length
      rwa [List.length_map, List.length_map, List.length_range, List.length_range] at length
    have given : printedLength upper count ≠ 0 := by
      intro zero
      rw [zero] at reads
      have nul := reads _ (nul_stringEvents w.memory buf.toNat n)
      omega
    obtain ⟨same, null, room⟩ := (stringLength_given given).mp taken
    exact ⟨by omega, by omega, by omega, null, by omega⟩

theorem printsBuffer_of_fits (inside : ¬w.task.Outside 1) (free : core.locked print_lock = false)
    (whole : printedLength upper count = count.toNat) (positive : 1 ≤ count.toNat) (small : count.toNat < 2 ^ 31)
    (null : buf.toNat ≠ 0) (room : buf.toNat + count.toNat ≤ 2 ^ 64) :
    w.PrintsBuffer core print_lock upper buf count := by
  have given : count.toNat ≠ 0 := by omega
  have taken := (stringLength_given (m := w.memory) given).mpr ⟨rfl, null, room⟩
  obtain ⟨p, put, events⟩ : ∃ p, ({ written := 0, list := 2, events := [] } : Printer).put count.toNat
      (stringEvents w.memory count.toNat buf.toNat count.toNat) = .ok p ∧
      p.events = stringEvents w.memory count.toNat buf.toNat count.toNat :=
    ⟨_, if_pos (.inr (by dsimp only; omega)), rfl⟩
  refine ⟨5, fun bound enough => ⟨(core.cli.setLocked print_lock true).unlock print_lock, p, ?_, ?_, ?_⟩⟩
  · rw [stdoutWrite_eq inside free enough, whole, taken, Option.elim_some, put]
    rfl
  · rw [events, printed_stringEvents]
    rfl
  · intro a read
    rw [events] at read
    exact read_stringEvents given read

theorem printedLength_eq_iff (small : count.toNat < 2 ^ 32) : printedLength upper count = count.toNat ↔ upper = 0 := by
  rw [← UInt32.toNat_inj, UInt32.toNat_zero]
  unfold printedLength
  omega

/-- The bytes of the buffer are printed, and no others are read, if and only if the count is a positive
`int` that arrives as such and the buffer lies in the address space. -/
theorem stdout_write_iff (starts : w.Starts) (ran : w.run events = .ok w') (free : core.locked print_lock = false)
    (upper : UInt32) (buf count : UInt64) : w'.PrintsBuffer core print_lock upper buf count ↔
      upper = 0 ∧ 1 ≤ count.toNat ∧ count.toNat < 2 ^ 31 ∧ buf ≠ 0 ∧ buf.toNat + count.toNat ≤ 2 ^ 64 := by
  have inside := starts.stdout_inside ran
  constructor
  · intro prints
    obtain ⟨whole, positive, small, null, room⟩ := prints.fits inside free
    refine ⟨(printedLength_eq_iff (by omega)).mp whole, positive, small, ?_, room⟩
    rintro rfl
    exact null rfl
  · rintro ⟨none, positive, small, null, room⟩
    have less : count.toNat < 2 ^ 32 := by omega
    have whole := (printedLength_eq_iff less).mpr none
    exact printsBuffer_of_fits inside free whole positive small (fun zero => null (UInt64.toNat_inj.mp zero)) room

/-- `"hi"` at `0x1000` -/
def greeting : Mem := fun a => if a = 0x1000 then 0x68 else if a = 0x1001 then 0x69 else 0

theorem exists_greeting : ∃ w w' : World, w.Starts ∧ w.run [.user greeting] = .ok w' ∧ w'.memory = greeting := by
  obtain ⟨v, built, root, _⟩ := Vfs.exists_binTree
  obtain ⟨w, -, -, starts⟩ := exists_start built root
  exact ⟨w, { w with memory := greeting }, starts, rfl, rfl⟩

theorem stdout_write_iff_greeting : ∃ w w' : World, w.Starts ∧ w.run [.user greeting] = .ok w' ∧
    w'.PrintsBuffer idle () 0 0x1000 2 := by
  obtain ⟨w, w', starts, ran, -⟩ := exists_greeting
  exact ⟨w, w', starts, ran, (stdout_write_iff starts ran rfl 0 0x1000 2).mpr (by decide)⟩

/-- A write of no bytes prints the buffer up to a NUL. -/
theorem empty_write_prints : ∃ w w' : World, w.Starts ∧ w.run [.user greeting] = .ok w' ∧
    (∀ bound > 4, ∃ core' p, w'.stdoutWrite bound idle () 0 0x1000 0 =
      .ok (core', p) ∧ p.events.filterMap PrintEvent.printed = [0x68, 0x69]) ∧
    ¬w'.PrintsBuffer idle () 0 0x1000 0 := by
  obtain ⟨w, w', starts, ran, memory⟩ := exists_greeting
  have inside := starts.stdout_inside ran
  have length : stringLength greeting (printedLength 0 0) (0x1000 : UInt64).toNat = some 2 := by
    have close : ∀ limit, nulDistance greeting (limit + 3) 0x1000 = some 2 := fun _ => rfl
    have address : (0x1000 : UInt64).toNat = 0x1000 := rfl
    have limit : 2 ^ 64 - 0x1000 = 2 ^ 64 - 0x1003 + 3 := by decide
    unfold stringLength
    rw [address, if_neg (by decide), if_neg (by decide), limit, close]
  have prints : ∀ bound > 4, ∃ core' p,
      w'.stdoutWrite bound idle () 0 0x1000 0 = .ok (core', p) ∧
        p.events.filterMap PrintEvent.printed = [0x68, 0x69] := by
    intro bound enough
    rw [stdoutWrite_eq inside rfl enough, memory, length]
    exact ⟨_, _, rfl, rfl⟩
  refine ⟨w, w', starts, ran, prints, ?_⟩
  rintro ⟨enough, returns⟩
  obtain ⟨core', p, returned, none, -⟩ := returns (max enough 5) (Nat.le_max_left _ _)
  obtain ⟨core₁, p₁, returned₁, two⟩ := prints (max enough 5) (by omega)
  obtain ⟨-, rfl⟩ := Prod.mk.inj (Except.ok.inj (returned.symm.trans returned₁))
  rw [two] at none
  cases none

end World

end FishOS.Fs
