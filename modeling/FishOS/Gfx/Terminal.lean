import FishOS.Lib.Loops
import Mathlib.Algebra.Order.Ring.Nat

/-!
# The terminal

`gfx::Terminal`. What it asks of the screen is a parameter; an access outside of `buffer` fails.
-/

namespace FishOS.Gfx

open Loops

def space : UInt8 := ' '.toUInt8

/-- `draw_psf_char(c, cx, cy, offx, offy, fg, bg)` and `fill_rect(x, y, w, h, rgb)` of `screen_fb`. -/
structure Drawing (σ : Type) where
  drawPsfChar : (c cx cy offx offy fg bg : Nat) → σ → σ
  fillRect : (x y w h rgb : Nat) → σ → σ

/-- Where the terminal is, in pixels and in characters, and how it looks. -/
structure Area where
  x : Nat
  y : Nat
  width : Nat
  height : Nat
  paddingTop : Nat
  paddingBottom : Nat
  paddingLeft : Nat
  paddingRight : Nat
  actualWidth : Nat
  actualHeight : Nat
  actualX : Nat
  actualY : Nat
  fg : Nat
  bg : Nat
  border : Nat
  fontWidth : Nat
  fontHeight : Nat
  widthChars : Nat
  heightChars : Nat

def sub64 (a b : Nat) : Nat := (a + 2 ^ 64 - b) % 2 ^ 64

/-- The first half of the constructor, for the size of the screen. -/
def Area.create (fbWidth fbHeight : Nat) : Area :=
  let width := fbWidth / 2
  let actualWidth := sub64 (sub64 width 4) 4
  let actualHeight := sub64 (sub64 fbHeight 4) 4
  { x := 0, y := 0, width := width, height := fbHeight
    paddingTop := 4, paddingBottom := 4, paddingLeft := 4, paddingRight := 4
    actualWidth := actualWidth, actualHeight := actualHeight, actualX := 0 + 4, actualY := 0 + 4
    fg := 0xFCFCFC, bg := 0x232627, border := 0x232627, fontWidth := 8, fontHeight := 16
    widthChars := actualWidth / 8, heightChars := actualHeight / 16 }

structure Terminal (σ : Type) extends Area where
  buffer : List UInt8
  cursorX : Nat
  cursorY : Nat
  oldCursorX : Nat
  oldCursorY : Nat
  cursorNeedsUndrawing : Bool
  screen : σ

/-- A `char` is signed: as a `u32` it is extended with its sign. -/
def extend (c : UInt8) : Nat := if c < 128 then c.toNat else c.toNat + (2 ^ 32 - 256)

namespace Terminal

variable {σ : Type}

def getCharAt (t : Terminal σ) (cx cy : Nat) : Option UInt8 := t.buffer[cy * t.widthChars + cx]?

def setCharAt (d : Drawing σ) (t : Terminal σ) (cx cy : Nat) (c : UInt8) : Option (Terminal σ) := do
  let old ← t.getCharAt cx cy
  if old = c then
    some t
  else
    some { t with
      buffer := t.buffer.set (cy * t.widthChars + cx) c
      screen := d.drawPsfChar (extend c) cx cy t.actualX t.actualY t.fg t.bg t.screen
      cursorNeedsUndrawing := false }

def setCharAtCursor (d : Drawing σ) (t : Terminal σ) (c : UInt8) : Option (Terminal σ) :=
  t.setCharAt d t.cursorX t.cursorY c

def scroll (d : Drawing σ) (t : Terminal σ) : Option (Terminal σ) := do
  let t ← times (t.heightChars - 1) (fun y t =>
    times t.widthChars (fun x t => (t.getCharAt x (y + 1)).bind (t.setCharAt d x y)) t) t
  let t ← times t.widthChars (fun x t => t.setCharAt d x (t.heightChars - 1) space) t
  some { t with cursorNeedsUndrawing := true }

/-- The bar of a cursor: one column of pixels. -/
def bar (d : Drawing σ) (t : Terminal σ) (cx cy rgb : Nat) (screen : σ) : σ :=
  d.fillRect (cx * t.fontWidth + 1 + t.actualX) (cy * t.fontHeight + t.actualY) 1 t.fontHeight rgb screen

def redrawCursor (d : Drawing σ) (t : Terminal σ) : Terminal σ :=
  let undrawn := if t.cursorNeedsUndrawing then t.bar d t.oldCursorX t.oldCursorY t.bg t.screen else t.screen
  { t with
    screen := t.bar d t.cursorX t.cursorY t.fg undrawn
    oldCursorX := t.cursorX
    oldCursorY := t.cursorY }

/-- The rectangles of the constructor: the inside and the four sides of the border. -/
def drawBackground (d : Drawing σ) (a : Area) (screen : σ) : σ :=
  let screen := d.fillRect a.actualX a.actualY a.actualWidth a.actualHeight a.bg screen
  let screen := d.fillRect a.x a.y a.width a.paddingTop a.border screen
  let screen := d.fillRect a.x (sub64 a.height a.paddingBottom) a.width a.paddingBottom a.border screen
  let screen := d.fillRect a.x a.paddingTop a.paddingLeft a.actualHeight a.border screen
  d.fillRect (sub64 a.width a.paddingRight) a.paddingTop a.paddingRight a.actualHeight a.border screen

/-- `kernel_terminal` is a static object, so all fields are zero before its constructor. -/
def empty (a : Area) (screen : σ) : Terminal σ :=
  { a with
    buffer := List.replicate (a.widthChars * a.heightChars) space
    cursorX := 0, cursorY := 0, oldCursorX := 0, oldCursorY := 0, cursorNeedsUndrawing := false, screen := screen }

/-- The constructor. -/
def create (d : Drawing σ) (fbWidth fbHeight : Nat) (screen : σ) : Terminal σ :=
  redrawCursor d (empty (.create fbWidth fbHeight) (drawBackground d (.create fbWidth fbHeight) screen))

/-- The `switch` of `write_char`, for the characters that go on behind it. -/
def act (d : Drawing σ) (t : Terminal σ) (c : UInt8) : Option (Terminal σ) :=
  if c = '\r'.toUInt8 then
    some { t with cursorX := 0 }
  else if c = '\n'.toUInt8 then
    some { t with cursorX := 0, cursorY := t.cursorY + 1, cursorNeedsUndrawing := true }
  else
    (t.setCharAtCursor d c).map fun t => { t with cursorX := t.cursorX + 1 }

def backspace (d : Drawing σ) (t : Terminal σ) : Option (Terminal σ) :=
  if 0 < t.cursorX then
    (setCharAtCursor d { t with cursorX := t.cursorX - 1 } space).map fun t =>
      redrawCursor d { t with cursorNeedsUndrawing := true }
  else
    some { t with cursorNeedsUndrawing := false }

def wrapLine (t : Terminal σ) : Terminal σ :=
  if t.widthChars ≤ t.cursorX then { t with cursorX := 0, cursorY := t.cursorY + 1 } else t

def scrollPage (d : Drawing σ) (t : Terminal σ) : Option (Terminal σ) :=
  if t.heightChars ≤ t.cursorY then
    (t.scroll d).map fun t => { t with cursorY := t.cursorY - 1 }
  else
    some t

def writeChar (d : Drawing σ) (t : Terminal σ) (c : UInt8) : Option (Terminal σ) :=
  -- '\b'
  if c = 8 then
    t.backspace d
  else do
    let t ← t.act d c
    let t ← t.wrapLine.scrollPage d
    some { t.redrawCursor d with cursorNeedsUndrawing := true }

def write (d : Drawing σ) (t : Terminal σ) (cs : List UInt8) : Option (Terminal σ) := cs.foldlM (writeChar d) t

end Terminal

end FishOS.Gfx
