import FishOS.Klib.Format

/-!
# Which calls of vprintf return

What a format and its arguments must be like for `vprintf` to come back with `print_lock` released.
-/

namespace FishOS.Klib

open Numerals

/-- `written` after so many characters more, as long as it is an `int`. -/
def fits (written : Int) (n : Nat) : Option Int :=
  if n = 0 ∨ written + n < 2 ^ 31 then some (written + n) else none

/-- The count of characters and the index of the next argument behind a number. -/
def numberCount (args : Nat → UInt64) (base : Nat) (f : Flags) (t : Int × Nat) : Option (Int × Nat) :=
  (fits (padded f base (f.value (args t.2)) t.1) (size base (f.value (args t.2)))).map (·, t.2 + 1)

def stringCount (m : Mem) (args : Nat → UInt64) (f : Flags) (t : Int × Nat) : Option (Int × Nat) :=
  (stringLength m f.sLength (args t.2).toNat).bind fun n => (fits t.1 n).map (·, t.2 + 1)

def Letter.count (m : Mem) (args : Nat → UInt64) (f : Flags) (t : Int × Nat) : Letter → Option (Int × Nat)
  | x | X => ((fits t.1 f.front.length).map (·, t.2)).bind (numberCount args 16 f)
  | d => numberCount args 10 f t
  | s => stringCount m args f t

/-- `none` if the count does not fit its `int`, or if a string does not end in the address space. -/
def Directive.count (m : Mem) (args : Nat → UInt64) (t : Int × Nat) : Directive → Option (Int × Nat)
  | char _ _ => (fits t.1 1).map (·, t.2)
  | convert flags _ letter =>
    let (f, list) := flags.foldl (Flag.set args) (noFlags, t.2)
    letter.count m args f (t.1, list)

/-- The call returns as soon as its loops may take enough rounds. It has read no character of the
format behind the NUL, the lock is released and interrupts are on. -/
def Returns {Lock : Type} [DecidableEq Lock] (core : Core Lock) (print_lock : Lock) (m : Mem) (args : Nat → UInt64)
    (format : CString) : Prop :=
  ∃ enough, ∀ bound ≥ enough, ∃ core' p, vprintf bound core print_lock m args format = .ok (core', p) ∧
    core'.locked print_lock = false ∧ core'.interrupts = true

variable {m : Mem} {args : Nat → UInt64} {format : CString} {i bound : Nat} {f : Flags} {p : Printer}

def Printer.tally (p : Printer) : Int × Nat := (p.written, p.list)

theorem Printer.put_tally (p : Printer) (n : Nat) (e : List PrintEvent) :
    (p.put n e).toOption.map tally = (fits p.written n).map (·, p.list) := by
  unfold put fits
  split <;> rfl

theorem printNumber_tally {base : Nat} (wide : 1 < base) {used : Nat → UInt8} (zero : used 0 = 0x30)
    (args : Nat → UInt64) (f : Flags) (p : Printer) :
    (printNumber args base used f p).toOption.map Printer.tally = numberCount args base f p.tally := by
  rw [printNumber_eq wide zero, Printer.put_tally]
  rfl

theorem printHex_tally {used : List UInt8} (zero : used.getD 0 0 = 0x30) (args : Nat → UInt64) (f : Flags) (p : Printer) :
    (printHex args used f p).toOption.map Printer.tally =
      ((fits p.written f.front.length).map (·, p.list)).bind (numberCount args 16 f) := by
  rw [printHex_eq, Except.toOption_map_bind (printNumber_tally (by decide) zero args f), Printer.put_tally]

theorem printDecimal_tally (args : Nat → UInt64) (f : Flags) (p : Printer) :
    (printDecimal args f p).toOption.map Printer.tally = numberCount args 10 f p.tally := by
  have zero : 0x30 + UInt8.ofNat 0 = 0x30 := rfl
  exact printNumber_tally (by decide) zero args f p

theorem printString_tally (m : Mem) (args : Nat → UInt64) (f : Flags) (p : Printer) :
    (printString m args f p).toOption.map Printer.tally = stringCount m args f p.tally := by
  rw [printString_eq]
  unfold stringCount Printer.tally
  dsimp only
  cases stringLength m f.sLength (args p.list).toNat with
  | none => rfl
  | some n => exact Printer.put_tally _ n _

theorem Letter.print_tally (m : Mem) (args : Nat → UInt64) (f : Flags) (p : Printer) (letter : Letter) :
    (letter.print m args f p).toOption.map Printer.tally = letter.count m args f p.tally := by
  cases letter with
  | x => exact printHex_tally rfl args f p
  | X => exact printHex_tally rfl args f p
  | d => exact printDecimal_tally args f p
  | s => exact printString_tally m args f p

theorem Directive.print_tally (m : Mem) (args : Nat → UInt64) (p : Printer) (directive : Directive) :
    (directive.print m args p).toOption.map Printer.tally = directive.count m args p.tally := by
  cases directive with
  | char c plain => exact p.put_tally 1 _
  | convert flags apart letter => exact letter.print_tally m args _ _

theorem directives_print_iff (m : Mem) (args : Nat → UInt64) (directives : List Directive) :
    (∃ p, directives.foldlM (Directive.print m args) .start = .ok p) ↔
      (directives.foldlM (Directive.count m args) (0, 0)).isSome = true := by
  have tally := Except.foldlM_toOption_map (Directive.print_tally m args) directives .start
  have start : Printer.start.tally = (0, 0) := rfl
  rw [start] at tally
  rw [← tally]
  cases directives.foldlM (Directive.print m args) .start with
  | error fault => simp [Except.toOption]
  | ok p => simp [Except.toOption]

theorem lock_free {Lock : Type} [DecidableEq Lock] {core : Core Lock} {l : Lock} (free : core.locked l = false) :
    core.lock l = some (core.cli.setLocked l true) := by
  unfold Core.lock
  exact if_neg (by simp [Core.cli, free])

/-- A call with the lock free and enough rounds prints the directives of its format. -/
theorem vprintf_directives {Lock : Type} [DecidableEq Lock] {core : Core Lock} {print_lock : Lock}
    (free : core.locked print_lock = false) (small : format.chars.length < 2 ^ 31) {directives : List Directive}
    (made : format.chars = directives.flatMap Directive.bytes) (enough : format.chars.length < bound) :
    vprintf bound core print_lock m args format =
      directives.foldlM (Directive.print m args) .start >>= fun p =>
        .ok ((core.cli.setLocked print_lock true).unlock print_lock, p) := by
  unfold vprintf
  rw [lock_free free]
  dsimp only
  rw [formatLoop_directives small (by rw [CString.behind_zero, made]) (made ▸ enough)]

/-- `vprintf` returns if and only if the lock is free, the format is a sequence of directives with
fewer characters than an `int` counts, and so is its output, whose strings end in the address space. -/
theorem vprintf_returns_iff {Lock : Type} [DecidableEq Lock] (core : Core Lock) (print_lock : Lock) (m : Mem)
    (args : Nat → UInt64) (format : CString) : Returns core print_lock m args format ↔
      core.locked print_lock = false ∧ format.chars.length < 2 ^ 31 ∧
      ∃ directives : List Directive, format.chars = directives.flatMap Directive.bytes ∧
        (directives.foldlM (Directive.count m args) (0, 0)).isSome = true := by
  constructor
  · rintro ⟨enough, returns⟩
    obtain ⟨core', p, returned, -, -⟩ := returns (max enough (format.chars.length + 1)) (Nat.le_max_left _ _)
    have free : core.locked print_lock = false := by
      by_contra taken
      have deadlock : core.lock print_lock = none := if_pos (by simpa [Core.cli] using taken)
      unfold vprintf at returned
      rw [deadlock] at returned
      cases returned
    have looped := returned
    unfold vprintf at looped
    rw [lock_free free] at looped
    obtain ⟨p₁, looped, -⟩ := Except.bind_ok looped
    obtain ⟨small, directives, whole⟩ := formatLoop_ok (by decide) looped
    have made := List.append_cancel_right (CString.behind_zero format ▸ whole)
    rw [vprintf_directives free small made (by omega)] at returned
    obtain ⟨p₂, printed, -⟩ := Except.bind_ok returned
    exact ⟨free, small, directives, made, (directives_print_iff m args directives).mp ⟨p₂, printed⟩⟩
  · rintro ⟨free, small, directives, made, counted⟩
    obtain ⟨p, printed⟩ := (directives_print_iff m args directives).mpr counted
    refine ⟨format.chars.length + 1, fun bound enough =>
      ⟨(core.cli.setLocked print_lock true).unlock print_lock, p, ?_, ?_, rfl⟩⟩
    · rw [vprintf_directives free small made enough, printed]
      rfl
    · simp [Core.unlock, Core.setLocked, Core.sti]

/-- A round that changes nothing is repeated for ever. -/
theorem conversionLoop_running (stuck : switchRound m args format i f p = .ok (.more i f p)) (bound : Nat) :
    conversionLoop m args format bound i f p = .error .running := by
  induction bound with
  | zero => rfl
  | succ bound ih =>
    rw [conversionLoop, stuck]
    exact ih

/-- One lock, which is free. -/
def idle : Core Unit := { interrupts := true, locked := fun _ => false }

/-- `"%%"` -/
def percentPercent : CString := .ofBytes [0x25, 0x25]

/-- `"%0"` -/
def percentZero : CString := .ofBytes [0x25, 0x30]

/-- The second `%` of `"%%"` has no case. Behind the `0` of `"%0"` the NUL is taken for a digit. -/
theorem percent_percent_running (bound : Nat) :
    formatLoop (fun _ => 0) (fun _ => 0) percentPercent bound 0 .start = .error .running := by
  cases bound with
  | zero => rfl
  | succ bound =>
    have first : charAt percentPercent 0 = .ok 0x25 := by decide
    have stuck : switchRound (fun _ => 0) (fun _ => 0) percentPercent 1 noFlags .start =
        .ok (.more 1 noFlags .start) := rfl
    rw [formatLoop, first, Except.ok_bind, if_neg (by decide), if_pos rfl, advance_lt (by decide), Except.ok_bind,
      conversionLoop_running stuck]
    rfl

theorem percent_percent_stays :
    (∀ bound, vprintf bound idle () (fun _ => 0) (fun _ => 0) percentPercent = .error .running) ∧
    ¬Returns idle () (fun _ => 0) (fun _ => 0) percentPercent ∧
    vprintf 4 idle () (fun _ => 0) (fun _ => 0) percentZero = .error .pastEnd := by
  have runs : ∀ bound, vprintf bound idle () (fun _ => 0) (fun _ => 0) percentPercent = .error .running := by
    intro bound
    unfold vprintf
    rw [lock_free rfl]
    dsimp only
    rw [percent_percent_running]
    rfl
  refine ⟨runs, ?_, rfl⟩
  rintro ⟨enough, returns⟩
  obtain ⟨core', p, returned, -⟩ := returns enough (Nat.le_refl _)
  rw [runs] at returned
  cases returned

end FishOS.Klib
