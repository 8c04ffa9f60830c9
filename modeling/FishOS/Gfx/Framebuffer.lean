import FishOS.Gfx.Terminal
import FishOS.Lib.Memory

/-!
# The framebuffer

`fill_rect` and `draw_psf_char`, and what they make of the pixels of a screen.
-/

namespace FishOS.Gfx

open Loops

/-- All fields but `addr` are 32 bits wide. -/
structure Framebuffer where
  addr : Nat
  width : Nat
  height : Nat
  pitch : Nat
  pixelWidth : Nat

/-- The header of the font, and its file byte by byte. -/
structure Psf where
  headerSize : Nat
  numGlyph : Nat
  bytesPerGlyph : Nat
  height : Nat
  width : Nat
  start : Nat → UInt8

namespace Psf

def bytesPerLine (font : Psf) : Nat := (font.width + 7) / 8

/-- The glyph of a character; without one it is the first glyph. -/
def glyph (font : Psf) (c : Nat) : Nat :=
  font.headerSize + (if 0 < c ∧ c < font.numGlyph then c else 0) * font.bytesPerGlyph % 2 ^ 32

end Psf

namespace Framebuffer

/-- The inner loop of `fill_rect`: blue, green and red. -/
def fillRow (fb : Framebuffer) (place x w rgb : Nat) (m : Mem) : Option Mem :=
  count (2 ^ 16) x (w + x) (fun j m =>
    if fb.width ≤ j then some m else some (m.writeLE (place + j * fb.pixelWidth % 2 ^ 32) 3 rgb)) m

/-- The coordinates and the counters are 16 bits wide. -/
def fillRect (fb : Framebuffer) (x y w h rgb : Nat) (m : Mem) : Option Mem :=
  let x := x % 2 ^ 16
  let y := y % 2 ^ 16
  let w := w % 2 ^ 16
  let h := h % 2 ^ 16
  count (2 ^ 16) y (h + y) (fun i m =>
    if fb.height ≤ i then some m else fb.fillRow (fb.addr + fb.pitch * i % 2 ^ 32) x w rgb m) m

/-- `*glyph & mask ? fg : bg` -/
def shade (row : UInt8) (mask fg bg : Nat) : Nat := if row.toNat &&& mask ≠ 0 then fg else bg

/-- One row of a glyph. -/
def drawLine (fb : Framebuffer) (row : UInt8) (fg bg : Nat) : (n line mask : Nat) → Mem → Mem
  | 0, _, _, m => m
  | n + 1, line, mask, m =>
    drawLine fb row fg bg n (line + fb.pixelWidth) (mask >>> 1)
      (m.writeLE (fb.addr + line) 4 (shade row mask fg bg))

def drawLines (fb : Framebuffer) (font : Psf) (fg bg : Nat) : (n glyph place : Nat) → Mem → Mem
  | 0, _, _, m => m
  | n + 1, glyph, place, m =>
    drawLines fb font fg bg n (glyph + font.bytesPerLine) (place + fb.pitch)
      (fb.drawLine (font.start glyph) fg bg font.width place (1 <<< (font.width - 1)) m)

def drawPsfChar (fb : Framebuffer) (font : Psf) (c cx cy offx offy fg bg : Nat) (m : Mem) : Mem :=
  let cx := cx % 2 ^ 16
  let cy := cy % 2 ^ 16
  let offx := offx % 2 ^ 16
  let offy := offy % 2 ^ 16
  -- the place is a product of 32-bit words
  let place := ((cy * font.height + offy) * fb.pitch + (cx * font.width + offx) * 4) % 2 ^ 32
  fb.drawLines font fg bg font.height (font.glyph c) place m

/-- The screen is `none` when `fill_rect` does not come back. -/
def drawing (fb : Framebuffer) (font : Psf) : Drawing (Option Mem) where
  drawPsfChar c cx cy offx offy fg bg screen := screen.map (fb.drawPsfChar font c cx cy offx offy fg bg)
  fillRect x y w h rgb screen := screen.bind (fb.fillRect x y w h rgb)

@[simp] theorem drawing_fillRect (fb : Framebuffer) (font : Psf) (x y w h rgb : Nat) (m : Mem) :
    (fb.drawing font).fillRect x y w h rgb (some m) = fb.fillRect x y w h rgb m := rfl

/-- A screen with room for a character, pixels of four bytes, 16-bit coordinates and at most 4 GiB of memory. -/
structure Sized (fb : Framebuffer) : Prop where
  wide : 32 ≤ fb.width
  tall : 24 ≤ fb.height
  pixel : fb.pixelWidth = 4
  columns : fb.width < 2 ^ 16
  rows : fb.height < 2 ^ 16
  line : fb.width * 4 ≤ fb.pitch
  extent : fb.pitch * fb.height ≤ 2 ^ 32

/-- The bytes of a pixel from the first one of the screen. -/
def place (fb : Framebuffer) (px py : Nat) : Nat := py * fb.pitch + px * 4

/-- The colour of a pixel; its fourth byte is not shown. -/
def pixel (fb : Framebuffer) (m : Mem) (px py : Nat) : Nat := m.readLE (fb.addr + fb.place px py) 3

section Pixels

variable {fb : Framebuffer} {font : Psf} {m : Mem} {px py qx qy n rgb fg bg : Nat}

theorem place_lt (sized : fb.Sized) (column : px < fb.width) (row : py < fb.height) : fb.place px py < 2 ^ 32 := by
  have line := sized.line
  calc fb.place px py < py * fb.pitch + fb.pitch := Nat.add_lt_add_left (by omega) _
    _ = fb.pitch * (py + 1) := by rw [← Nat.succ_mul, Nat.mul_comm]
    _ ≤ fb.pitch * fb.height := Nat.mul_le_mul_left _ row
    _ ≤ 2 ^ 32 := sized.extent

theorem place_apart (sized : fb.Sized) (column : px < fb.width) (column' : qx < fb.width)
    (apart : ¬(qx = px ∧ qy = py)) :
    fb.place qx qy + 4 ≤ fb.place px py ∨ fb.place px py + 4 ≤ fb.place qx qy := by
  have line := sized.line
  have ordered : ∀ {ax ay bx by' : Nat}, ax < fb.width → ay < by' → fb.place ax ay + 4 ≤ fb.place bx by' := by
    intro ax ay bx by' inside before
    have rows : ay * fb.pitch + fb.pitch ≤ by' * fb.pitch := by
      rw [← Nat.succ_mul]
      exact Nat.mul_le_mul_right _ before
    unfold place
    omega
  rcases Nat.lt_trichotomy qy py with above | same | below
  · exact Or.inl (ordered column' above)
  · subst same
    unfold place
    omega
  · exact Or.inr (ordered column below)

theorem pixel_writeLE (sized : fb.Sized) (column : px < fb.width) (column' : qx < fb.width) (lower : 3 ≤ n)
    (upper : n ≤ 4) :
    fb.pixel (m.writeLE (fb.addr + fb.place px py) n rgb) qx qy =
      if qx = px ∧ qy = py then rgb % 2 ^ 24 else fb.pixel m qx qy := by
  unfold pixel
  split
  · rename_i here
    rw [here.1, here.2, Mem.readLE_writeLE_front _ lower]
    rfl
  · rename_i apart
    have bytes := place_apart sized column column' apart
    exact Mem.readLE_writeLE_other _ (by omega)

theorem pixel_drawLine (sized : fb.Sized) {row : UInt8} {mask : Nat} (fits : px + n ≤ fb.width)
    (column : qx < fb.width) :
    fb.pixel (fb.drawLine row fg bg n (fb.place px py) mask m) qx qy =
      if qy = py ∧ px ≤ qx ∧ qx < px + n then
        shade row (mask >>> (qx - px)) fg bg % 2 ^ 24
      else fb.pixel m qx qy := by
  induction n generalizing px mask m with
  | zero => rw [drawLine, if_neg (by omega)]
  | succ n ih =>
    have next : fb.place px py + fb.pixelWidth = fb.place (px + 1) py := by
      rw [sized.pixel, place, place, Nat.add_assoc, Nat.succ_mul]
    rw [drawLine, next, ih (by omega), pixel_writeLE sized (by omega) column (by omega) (by omega)]
    by_cases here : qx = px ∧ qy = py
    · rw [if_neg (by omega), if_pos here, if_pos (by omega), here.1, Nat.sub_self, Nat.shiftRight_zero]
    · by_cases right : qy = py ∧ px + 1 ≤ qx ∧ qx < px + 1 + n
      · have shift : qx - px = 1 + (qx - (px + 1)) := by omega
        rw [if_pos right, if_pos (by omega), shift, Nat.shiftRight_add]
      · rw [if_neg right, if_neg here, if_neg (by omega)]

theorem pixel_drawLines (sized : fb.Sized) (eight : font.width = 8) {glyph : Nat} (fits : px + 8 ≤ fb.width)
    (column : qx < fb.width) :
    fb.pixel (fb.drawLines font fg bg n glyph (fb.place px py) m) qx qy =
      if py ≤ qy ∧ qy < py + n ∧ px ≤ qx ∧ qx < px + 8 then
        shade (font.start (glyph + (qy - py))) (128 >>> (qx - px)) fg bg % 2 ^ 24
      else fb.pixel m qx qy := by
  induction n generalizing py glyph m with
  | zero => rw [drawLines, if_neg (by omega)]
  | succ n ih =>
    have next : fb.place px py + fb.pitch = fb.place px (py + 1) := by
      rw [place, place, Nat.succ_mul, Nat.add_right_comm]
    have byte : font.bytesPerLine = 1 := by rw [Psf.bytesPerLine, eight]
    have first : 1 <<< (font.width - 1) = 128 := by rw [eight]; rfl
    rw [drawLines, next, byte, first, eight, ih, pixel_drawLine sized fits column]
    by_cases here : qy = py ∧ px ≤ qx ∧ qx < px + 8
    · rw [if_neg (by omega), if_pos here, if_pos (by omega), here.1, Nat.sub_self, Nat.add_zero]
    · by_cases below : py + 1 ≤ qy ∧ qy < py + 1 + n ∧ px ≤ qx ∧ qx < px + 8
      · have line : glyph + 1 + (qy - (py + 1)) = glyph + (qy - py) := by omega
        rw [if_pos below, if_pos (by omega), line]
      · rw [if_neg below, if_neg here, if_neg (by omega)]

theorem pixel_drawPsfChar (sized : fb.Sized) (eight : font.width = 8) (tall : font.height = 16)
    {c cx cy offx offy : Nat} (fits : offx + 8 * cx + 8 ≤ fb.width) (fits' : offy + 16 * cy + 16 ≤ fb.height)
    (column : qx < fb.width) :
    fb.pixel (fb.drawPsfChar font c cx cy offx offy fg bg m) qx qy =
      if offy + 16 * cy ≤ qy ∧ qy < offy + 16 * cy + 16 ∧ offx + 8 * cx ≤ qx ∧ qx < offx + 8 * cx + 8 then
        shade (font.start (font.glyph c + (qy - (offy + 16 * cy)))) (128 >>> (qx - (offx + 8 * cx))) fg bg % 2 ^ 24
      else fb.pixel m qx qy := by
  have columns := sized.columns
  have rows := sized.rows
  have place_eq : ((cy * 16 + offy) * fb.pitch + (cx * 8 + offx) * 4) % 2 ^ 32 =
      fb.place (offx + 8 * cx) (offy + 16 * cy) := by
    rw [Nat.mul_comm cy, Nat.mul_comm cx, Nat.add_comm _ offy, Nat.add_comm _ offx]
    exact Nat.mod_eq_of_lt (place_lt sized (by omega) (by omega))
  simp only [drawPsfChar]
  rw [Nat.mod_eq_of_lt (show cx < 2 ^ 16 by omega), Nat.mod_eq_of_lt (show cy < 2 ^ 16 by omega),
    Nat.mod_eq_of_lt (show offx < 2 ^ 16 by omega), Nat.mod_eq_of_lt (show offy < 2 ^ 16 by omega), eight, tall,
    place_eq, pixel_drawLines sized eight fits column]

/-- The pixels of `m'` in the rectangle are `rgb`, and the others those of `m`. -/
def Filled (fb : Framebuffer) (x y w h rgb : Nat) (m m' : Mem) : Prop :=
  ∀ qx qy, qx < fb.width → qy < fb.height →
    fb.pixel m' qx qy = if x ≤ qx ∧ qx < x + w ∧ y ≤ qy ∧ qy < y + h then rgb % 2 ^ 24 else fb.pixel m qx qy

theorem fillRow_spec (sized : fb.Sized) {x y w : Nat} (fits : x + w < 2 ^ 16) (row : y < fb.height) (rgb : Nat)
    (m : Mem) : ∃ m', fb.fillRow (fb.addr + fb.pitch * y % 2 ^ 32) x w rgb m = some m' ∧ fb.Filled x y w 1 rgb m m' := by
  unfold fillRow
  obtain ⟨m', ran, filled⟩ := count_rule (s := m)
    (fun j m => if fb.width ≤ j then some m
      else some (m.writeLE (fb.addr + fb.pitch * y % 2 ^ 32 + j * fb.pixelWidth % 2 ^ 32) 3 rgb))
    (P := fun j m' => fb.Filled x y (j - x) 1 rgb m m') (show w + x < 2 ^ 16 by omega) (Nat.le_add_left x w)
    (by
      intro qx qy _ _
      rw [if_neg (by omega)])
    (by
      intro j m₁ lower upper filled
      by_cases outside : fb.width ≤ j
      · refine ⟨m₁, if_pos outside, ?_⟩
        intro qx qy column row'
        rw [filled qx qy column row']
        by_cases here : x ≤ qx ∧ qx < x + (j - x) ∧ y ≤ qy ∧ qy < y + 1
        · rw [if_pos here, if_pos (by omega)]
        · rw [if_neg here, if_neg (by omega)]
      · have pitch : fb.pitch * y % 2 ^ 32 + j * fb.pixelWidth % 2 ^ 32 = fb.place j y := by
          have small := place_lt sized (Nat.not_le.mp outside) row
          unfold place at small ⊢
          rw [sized.pixel, Nat.mul_comm fb.pitch, Nat.mod_eq_of_lt (by omega), Nat.mod_eq_of_lt (by omega)]
        refine ⟨_, if_neg outside, ?_⟩
        intro qx qy column row'
        rw [Nat.add_assoc fb.addr, pitch, pixel_writeLE sized (Nat.not_le.mp outside) column (by omega) (by omega),
          filled qx qy column row']
        by_cases here : qx = j ∧ qy = y
        · rw [if_pos here, if_pos (by omega)]
        · rw [if_neg here]
          by_cases before : x ≤ qx ∧ qx < x + (j - x) ∧ y ≤ qy ∧ qy < y + 1
          · rw [if_pos before, if_pos (by omega)]
          · rw [if_neg before, if_neg (by omega)])
  rw [Nat.add_sub_cancel] at filled
  exact ⟨m', ran, filled⟩

theorem fillRect_spec (sized : fb.Sized) {x y w h : Nat} (fits : x + w < 2 ^ 16) (fits' : y + h < 2 ^ 16) (rgb : Nat)
    (m : Mem) : ∃ m', fb.fillRect x y w h rgb m = some m' ∧ fb.Filled x y w h rgb m m' := by
  unfold fillRect
  rw [Nat.mod_eq_of_lt (show x < 2 ^ 16 by omega), Nat.mod_eq_of_lt (show y < 2 ^ 16 by omega),
    Nat.mod_eq_of_lt (show w < 2 ^ 16 by omega), Nat.mod_eq_of_lt (show h < 2 ^ 16 by omega)]
  obtain ⟨m', ran, filled⟩ := count_rule (s := m)
    (fun i m => if fb.height ≤ i then some m else fb.fillRow (fb.addr + fb.pitch * i % 2 ^ 32) x w rgb m)
    (P := fun i m' => fb.Filled x y w (i - y) rgb m m') (show h + y < 2 ^ 16 by omega) (Nat.le_add_left y h)
    (by
      intro qx qy _ _
      rw [if_neg (by omega)])
    (by
      intro i m₁ lower upper filled
      by_cases outside : fb.height ≤ i
      · refine ⟨m₁, if_pos outside, ?_⟩
        intro qx qy column row
        rw [filled qx qy column row]
        by_cases here : x ≤ qx ∧ qx < x + w ∧ y ≤ qy ∧ qy < y + (i - y)
        · rw [if_pos here, if_pos (by omega)]
        · rw [if_neg here, if_neg (by omega)]
      · obtain ⟨m₂, ran, line⟩ := fillRow_spec sized fits (Nat.not_le.mp outside) rgb m₁
        refine ⟨m₂, by rw [if_neg outside, ran], ?_⟩
        intro qx qy column row
        rw [line qx qy column row, filled qx qy column row]
        by_cases here : x ≤ qx ∧ qx < x + w ∧ i ≤ qy ∧ qy < i + 1
        · rw [if_pos here, if_pos (by omega)]
        · rw [if_neg here]
          by_cases before : x ≤ qx ∧ qx < x + w ∧ y ≤ qy ∧ qy < y + (i - y)
          · rw [if_pos before, if_pos (by omega)]
          · rw [if_neg before, if_neg (by omega)])
  rw [Nat.add_sub_cancel] at filled
  exact ⟨m', ran, filled⟩

end Pixels

end Framebuffer

end FishOS.Gfx
