import FishOS.Klib.CString
import FishOS.Klib.Lock
import FishOS.Lib.Memory

/-!
# printf

`klib::vprintf` over the words of its argument list. The kernel is built with a sanitizer that
panics when an `int` or a pointer overflows and when a null pointer is followed. A character on its
way to the console and a byte that is read through a `%s` argument are events.
-/

namespace FishOS.Klib

/-- Why a call does not return: its loops are still running when the bound on their rounds is used
up, it reads behind the NUL of the format, the sanitizer panics, or `print_lock` stays taken. -/
inductive PrintFault where
  | running
  | pastEnd
  | panic
  | deadlock
  deriving DecidableEq

inductive PrintEvent where
  | read (a : Nat)
  | putchar (c : UInt8)
  deriving DecidableEq

/-- The local `written`, the index of the next argument in `list`, and the events so far. -/
structure Printer where
  written : Int
  list : Nat
  events : List PrintEvent
  deriving DecidableEq

/-- The variables that the flags of a conversion set. -/
structure Flags where
  altForm : Bool
  longInt : Bool
  zeroPad : Nat
  sLength : Nat
  deriving DecidableEq

namespace Printer

def start : Printer := { written := 0, list := 0, events := [] }

def putchar (p : Printer) (c : UInt8) : Printer := { p with events := p.events ++ [.putchar c] }

/-- `written++` and `written += 2` -/
def count (p : Printer) (n : Nat) : Except PrintFault Printer :=
  if p.written + n < 2 ^ 31 then .ok { p with written := p.written + n } else .error .panic

def vaArg (p : Printer) (args : Nat → UInt64) : Nat × Printer := ((args p.list).toNat, { p with list := p.list + 1 })

/-- `str[i]` -/
def load (p : Printer) (m : Mem) (str i : Nat) : Except PrintFault (UInt8 × Printer) :=
  if str ≠ 0 ∧ str + i < 2 ^ 64 then .ok (m (str + i), { p with events := p.events ++ [.read (str + i)] }) else .error .panic

end Printer

/-! ### Numbers -/

/-- A `u64` is zero after 64 divisions. -/
def numDigitsLoop (base : Nat) : Nat → Nat → Nat
  | 0, _ => 0
  | fuel + 1, x => if x / base ≠ 0 then numDigitsLoop base fuel (x / base) + 1 else 0

def numDigits (x base : Nat) : Nat := numDigitsLoop base 64 x

/-- The loop over `dii`. -/
def divideLoop (base : Nat) : Nat → Nat → Nat
  | 0, v => v
  | di + 1, v => divideLoop base di (v / base)

/-- The loop over `di`, which counts down to zero. -/
def digitLoop (base : Nat) (used : Nat → UInt8) (value : Nat) : Nat → Printer → Except PrintFault Printer
  | 0, p => .ok p
  | di + 1, p => do
    let d := divideLoop base di value % base
    let p ← (p.putchar (used d)).count 1
    digitLoop base used value di p

def padLoop : Nat → Printer → Printer
  | 0, p => p
  | n + 1, p => padLoop n (p.putchar 0x30)

/-- What the conversions `x`, `X` and `d` have in common. The sum of `written` and the padding is one of
`usize` numbers, which the `int` takes modulo 2^32. -/
def printNumber (args : Nat → UInt64) (base : Nat) (used : Nat → UInt8) (f : Flags) (p : Printer) :
    Except PrintFault Printer :=
  let (word, p) := p.vaArg args
  let value := if f.longInt then word else word % 2 ^ 32
  let digits := numDigits value base
  let p :=
    if f.zeroPad ≠ 0 ∧ f.zeroPad > digits then
      let p := padLoop (f.zeroPad - digits - 1) p
      { p with written := (p.written + (f.zeroPad - digits - 1 : Nat)).bmod (2 ^ 32) }
    else p
  digitLoop base used value (digits + 1) p

/-- `"0123456789abcdef"` -/
def low : List UInt8 :=
  [0x30, 0x31, 0x32, 0x33, 0x34, 0x35, 0x36, 0x37, 0x38, 0x39, 0x61, 0x62, 0x63, 0x64, 0x65, 0x66]

/-- `"0123456789ABCDEF"` -/
def high : List UInt8 :=
  [0x30, 0x31, 0x32, 0x33, 0x34, 0x35, 0x36, 0x37, 0x38, 0x39, 0x41, 0x42, 0x43, 0x44, 0x45, 0x46]

def printHex (args : Nat → UInt64) (used : List UInt8) (f : Flags) (p : Printer) : Except PrintFault Printer := do
  let p ← if f.altForm then ((p.putchar 0x30).putchar 0x78).count 2 else .ok p
  printNumber args 16 (used.getD · 0) f p

def printDecimal (args : Nat → UInt64) (f : Flags) (p : Printer) : Except PrintFault Printer :=
  printNumber args 10 (0x30 + UInt8.ofNat ·) f p

/-! ### Strings -/

/-- The loop of `%s` with a length. -/
def lengthLoop (m : Mem) (str : Nat) : Nat → Nat → Printer → Except PrintFault Printer
  | 0, _, p => .ok p
  | n + 1, i, p => do
    let (c, p) ← p.load m str i
    let p ← (p.putchar c).count 1
    lengthLoop m str n (i + 1) p

/-- The loop of `%s` up to the NUL. It leaves the address space before `i` goes round. -/
def nulLoop (m : Mem) (str : Nat) : Nat → Nat → Printer → Except PrintFault Printer
  | 0, _, _ => .error .panic
  | limit + 1, i, p => do
    let (c, p) ← p.load m str i
    if c ≠ 0 then
      let (c, p) ← p.load m str i
      let p ← (p.putchar c).count 1
      nulLoop m str limit (i + 1) p
    else .ok p

def printString (m : Mem) (args : Nat → UInt64) (f : Flags) (p : Printer) : Except PrintFault Printer :=
  let (str, p) := p.vaArg args
  if f.sLength ≠ 0 then lengthLoop m str f.sLength 0 p else nulLoop m str (2 ^ 64) 0 p

/-! ### Formats -/

def charAt (format : CString) (i : Nat) : Except PrintFault UInt8 :=
  match (format.chars ++ [0])[i]? with
  | none => .error .pastEnd
  | some c => .ok c

/-- `i++` -/
def advance (i : Nat) : Except PrintFault Nat := if i + 1 < 2 ^ 31 then .ok (i + 1) else .error .panic

/-- `c - '0'` for a signed `char`. -/
def charValue (c : UInt8) : Int := c.toInt8.toInt - 48

def toUsize (x : Int) : Nat := (x % 2 ^ 64).toNat

/-- After a round of the `switch`: the loop goes on, or a conversion has been printed. -/
inductive Switched where
  | more (i : Nat) (f : Flags) (p : Printer)
  | done (i : Nat) (p : Printer)

def switchRound (m : Mem) (args : Nat → UInt64) (format : CString) (i : Nat) (f : Flags) (p : Printer) :
    Except PrintFault Switched := do
  let c ← charAt format i
  if c = 0x23 then -- #
    let i ← advance i
    .ok (.more i { f with altForm := true } p)
  else if c = 0x30 then -- 0
    let i ← advance i
    let c ← charAt format i
    let i ← advance i
    let d ← charAt format i
    if 0x30 ≤ d ∧ d ≤ 0x39 then
      let i ← advance i
      .ok (.more i { f with zeroPad := toUsize (charValue c * 10 + charValue d) } p)
    else .ok (.more i { f with zeroPad := toUsize (charValue c) } p)
  else if c = 0x6C then -- l
    let i ← advance i
    .ok (.more i { f with longInt := true } p)
  else if c = 0x2E then -- .
    let i ← advance i
    let c ← charAt format i
    if c = 0x2A then -- *
      let (s_length, p) := p.vaArg args
      let i ← advance i
      .ok (.more i { f with sLength := s_length } p)
    else .ok (.more i f p)
  else if c = 0x78 ∨ c = 0x58 then -- x, X
    let p ← printHex args (if c = 0x58 then high else low) f p
    .ok (.done i p)
  else if c = 0x64 then -- d
    let p ← printDecimal args f p
    .ok (.done i p)
  else if c = 0x73 then -- s
    let p ← printString m args f p
    .ok (.done i p)
  else .ok (.more i f p) -- no case: the same character again

/-- `while (1)` -/
def conversionLoop (m : Mem) (args : Nat → UInt64) (format : CString) :
    Nat → Nat → Flags → Printer → Except PrintFault (Nat × Printer)
  | 0, _, _, _ => .error .running
  | bound + 1, i, f, p => do
    match ← switchRound m args format i f p with
    | .more i f p => conversionLoop m args format bound i f p
    | .done i p => .ok (i, p)

def noFlags : Flags := { altForm := false, longInt := false, zeroPad := 0, sLength := 0 }

/-- The loop over the format. -/
def formatLoop (m : Mem) (args : Nat → UInt64) (format : CString) : Nat → Nat → Printer → Except PrintFault Printer
  | 0, _, _ => .error .running
  | bound + 1, i, p => do
    let c ← charAt format i
    if c = 0 then .ok p
    else if c = 0x25 then -- %
      let i ← advance i
      let (i, p) ← conversionLoop m args format bound i noFlags p
      let i ← advance i
      formatLoop m args format bound i p
    else
      let p ← p.count 1
      let p := p.putchar c
      let i ← advance i
      formatLoop m args format bound i p

/-- `written` in the end is the value that is returned. -/
def vprintf {Lock : Type} [DecidableEq Lock] (bound : Nat) (core : Core Lock) (print_lock : Lock) (m : Mem)
    (args : Nat → UInt64) (format : CString) : Except PrintFault (Core Lock × Printer) :=
  match core.lock print_lock with
  | none => .error .deadlock
  | some core => do
    let p ← formatLoop m args format bound 0 .start
    .ok (core.unlock print_lock, p)

end FishOS.Klib
