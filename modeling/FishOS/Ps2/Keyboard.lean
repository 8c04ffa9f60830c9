import FishOS.Lib.RingBuffer
import FishOS.Lib.Runs

/-!
# The keyboard buffer

`ps2::kbd` with its interrupt handler and one reader. The handler runs with interrupts off, so it
is one step; it may come between any two steps of `read`. Its echo to the terminal is left out.
-/

namespace FishOS.Ps2

open RingBuffer

def bufferSize : Nat := 256

def chars (cs : List Char) : List UInt8 := cs.map Char.toUInt8

/-- The rows of the US layout; what is behind the table is zero. -/
def mapTable : List UInt8 :=
  [0, 27] ++ chars ['1', '2', '3', '4', '5', '6', '7', '8', '9', '0', '-', '='] ++ [8, 9] ++
    chars ['q', 'w', 'e', 'r', 't', 'y', 'u', 'i', 'o', 'p', '[', ']', '\n'] ++ [0] ++
    chars ['a', 's', 'd', 'f', 'g', 'h', 'j', 'k', 'l', ';'] ++ [39, 96, 0] ++
    chars ['\\', 'z', 'x', 'c', 'v', 'b', 'n', 'm', ',', '.', '/'] ++ [0] ++ chars ['*'] ++ [0] ++ chars [' '] ++
    List.replicate 16 0 ++ chars ['-'] ++ [0, 0, 0] ++ chars ['+']

def map (scancode : UInt8) : UInt8 := mapTable.getD scancode.toNat 0

def newline : UInt8 := '\n'.toUInt8

structure Kbd where
  buffer : Nat → UInt8
  bufferWriteIndex : Nat
  bufferReadIndex : Nat
  leftShift : Bool
  rightShift : Bool
  capsLock : Bool

namespace Kbd

/-- The static variables after `init`. -/
def init : Kbd :=
  { buffer := fun _ => 0, bufferWriteIndex := 0, bufferReadIndex := 0,
    leftShift := false, rightShift := false, capsLock := false }

def isCaps (k : Kbd) : Bool := k.capsLock ^^ (k.leftShift || k.rightShift)

def release (k : Kbd) (key : UInt8) : Kbd :=
  if key = 42 then { k with leftShift := false }
  else if key = 54 then { k with rightShift := false }
  else if key = 58 then { k with capsLock := !k.capsLock }
  else k

def shifted (k : Kbd) (c : UInt8) : UInt8 :=
  if k.isCaps ∧ 'a'.toUInt8 ≤ c ∧ c ≤ 'z'.toUInt8 then c - 'a'.toUInt8 + 'A'.toUInt8 else c

def put (k : Kbd) (c : UInt8) : Kbd :=
  if (k.bufferWriteIndex + 1) % bufferSize ≠ k.bufferReadIndex then
    { k with
      buffer := Function.update k.buffer k.bufferWriteIndex c
      bufferWriteIndex := (k.bufferWriteIndex + 1) % bufferSize }
  else k

def irq (k : Kbd) (scancode : UInt8) : Kbd :=
  if scancode &&& 128 ≠ 0 then k.release (scancode &&& 127)
  else if scancode = 42 then { k with leftShift := true }
  else if scancode = 54 then { k with rightShift := true }
  else if map scancode ≠ 0 then k.put (k.shifted (map scancode))
  else k

/-- The character of a scancode, when it is the press of a mapped key. -/
def press (k : Kbd) (scancode : UInt8) : Option UInt8 :=
  if scancode &&& 128 = 0 ∧ scancode ≠ 42 ∧ scancode ≠ 54 ∧ map scancode ≠ 0 then some (k.shifted (map scancode))
  else none

/-- The characters between the two indices. -/
def pending (k : Kbd) : List UInt8 := queued bufferSize k.buffer k.bufferReadIndex k.bufferWriteIndex

/-- The write index has moved. -/
def Accepts (k : Kbd) (scancode : UInt8) : Prop := (k.irq scancode).bufferWriteIndex ≠ k.bufferWriteIndex

instance (k : Kbd) (scancode : UInt8) : Decidable (k.Accepts scancode) := by unfold Accepts; infer_instance

def accepted (k : Kbd) (scancode : UInt8) : Option UInt8 :=
  (k.press scancode).filter fun _ => k.Accepts scancode

end Kbd

/-- The next statement of `read`. -/
inductive Pc where
  | loop
  | wait
  | load
  | store
  | advance
  | check
  | returned (count : Nat)
  deriving DecidableEq

/-- A call of `read`: `buf` is what it has stored so far, and `i` its length. -/
structure Reader where
  pc : Pc
  count : Nat
  c : UInt8
  buf : List UInt8

namespace Reader

def call (r : Reader) (count : Nat) : Reader := { r with pc := .loop, count := count, buf := [] }

def step (k : Kbd) (r : Reader) : Kbd × Reader :=
  match r.pc with
  | .loop => (k, { r with pc := if r.buf.length < r.count then .wait else .returned r.count })
  | .wait => (k, if k.bufferReadIndex = k.bufferWriteIndex then r else { r with pc := .load })
  | .load => (k, { r with c := k.buffer k.bufferReadIndex, pc := .store })
  | .store => (k, { r with buf := r.buf ++ [r.c], pc := .advance })
  | .advance => ({ k with bufferReadIndex := (k.bufferReadIndex + 1) % bufferSize }, { r with pc := .check })
  | .check => (k, { r with pc := if r.c = newline then .returned r.buf.length else .loop })
  | .returned _ => (k, r)

end Reader

/-- The driver with its only reader, and what has been accepted and delivered before this call. -/
structure Console where
  kbd : Kbd
  reader : Reader
  earlier : List UInt8
  accepted : List UInt8

inductive Event where
  | irq (scancode : UInt8)
  | call (count : Nat)
  | read

namespace Console

def init : Console :=
  { kbd := .init, reader := { pc := .returned 0, count := 0, c := 0, buf := [] }, earlier := [], accepted := [] }

/-- `read` is called when the call before has returned. -/
def step (s : Console) : Event → Option Console
  | .irq scancode =>
    some { s with kbd := s.kbd.irq scancode, accepted := s.accepted ++ (s.kbd.accepted scancode).toList }
  | .call count =>
    match s.reader.pc with
    | .returned _ => some { s with reader := s.reader.call count, earlier := s.earlier ++ s.reader.buf }
    | _ => none
  | .read => some { s with kbd := (s.reader.step s.kbd).1, reader := (s.reader.step s.kbd).2 }

/-- All characters that calls of `read` have stored for their callers. -/
def delivered (s : Console) : List UInt8 := s.earlier ++ s.reader.buf

/-- The buffer without the character that `read` has stored and is about to step over. -/
def remaining (s : Console) : List UInt8 :=
  if s.reader.pc = .advance then s.kbd.pending.tail else s.kbd.pending

end Console

example : (Kbd.init.irq 30).pending = ['a'.toUInt8] := by decide

end FishOS.Ps2
