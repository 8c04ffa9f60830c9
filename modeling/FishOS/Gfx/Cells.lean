import FishOS.Gfx.Framebuffer
import FishOS.Gfx.Text

/-!
# The cells of the screen

What the drawing functions do to the 8 by 16 pixels of every character of the grid.
-/

namespace FishOS.Gfx

def foreground : Nat := 0xFCFCFC

def background : Nat := 0x232627

/-- An 8x16 font whose space is blank. -/
structure Psf.Regular (font : Psf) : Prop where
  width : font.width = 8
  height : font.height = 16
  space : ∀ i < 16, font.start (font.glyph (extend space) + i) = 0

/-- The colour of a glyph in row `i` and column `j`. -/
def Psf.ink (font : Psf) (c : UInt8) (i j : Nat) : Nat :=
  Framebuffer.shade (font.start (font.glyph (extend c) + i)) (128 >>> j) foreground background

theorem Psf.Regular.ink_space {font : Psf} (regular : font.Regular) {i : Nat} (row : i < 16) (j : Nat) :
    font.ink Gfx.space i j = background := by
  rw [ink, regular.space i row, Framebuffer.shade, if_neg]
  simp

theorem Psf.ink_mod (font : Psf) (c : UInt8) (i j : Nat) : font.ink c i j % 2 ^ 24 = font.ink c i j := by
  unfold ink Framebuffer.shade
  split <;> rfl

namespace Framebuffer

/-- The area that the terminal takes of the screen. -/
def area (fb : Framebuffer) : Area := .create fb.width fb.height

@[simp] theorem area_fontWidth (fb : Framebuffer) : fb.area.fontWidth = 8 := rfl

@[simp] theorem area_fontHeight (fb : Framebuffer) : fb.area.fontHeight = 16 := rfl

@[simp] theorem area_actualX (fb : Framebuffer) : fb.area.actualX = 4 := rfl

@[simp] theorem area_actualY (fb : Framebuffer) : fb.area.actualY = 4 := rfl

@[simp] theorem area_fg (fb : Framebuffer) : fb.area.fg = foreground := rfl

@[simp] theorem area_bg (fb : Framebuffer) : fb.area.bg = background := rfl

/-- The pixel in row `i` and column `j` of a cell. -/
def cell (fb : Framebuffer) (m : Mem) (x y i j : Nat) : Nat := fb.pixel m (4 + 8 * x + j) (4 + 16 * y + i)

/-- `(x, y)` is a cell of the grid, and `(i, j)` one of its pixels. -/
structure Inside (fb : Framebuffer) (x y i j : Nat) : Prop where
  column : x < fb.area.widthChars
  line : y < fb.area.heightChars
  row : i < 16
  dot : j < 8

section Cells

variable {fb : Framebuffer} {font : Psf} {m : Mem} {x y i j rgb : Nat} {c : UInt8}

theorem sub64_of_le {a b : Nat} (le : b ≤ a) (word : a < 2 ^ 64) : sub64 a b = a - b := by
  unfold sub64
  omega

theorem widthChars_eq (sized : fb.Sized) : fb.area.widthChars = (fb.width / 2 - 8) / 8 := by
  have wide := sized.wide
  have columns := sized.columns
  show sub64 (sub64 (fb.width / 2) 4) 4 / 8 = _
  rw [sub64_of_le (a := fb.width / 2) (by omega) (by omega), sub64_of_le (by omega) (by omega), Nat.sub_sub]

theorem heightChars_eq (sized : fb.Sized) : fb.area.heightChars = (fb.height - 8) / 16 := by
  have tall := sized.tall
  have rows := sized.rows
  show sub64 (sub64 fb.height 4) 4 / 16 = _
  rw [sub64_of_le (a := fb.height) (by omega) (by omega), sub64_of_le (by omega) (by omega), Nat.sub_sub]

/-- The grid is on the left half of the screen. -/
theorem column_le (sized : fb.Sized) (column : x < fb.area.widthChars) : 4 + 8 * x + 8 ≤ fb.width := by
  rw [widthChars_eq sized] at column
  omega

theorem line_le (sized : fb.Sized) (line : y < fb.area.heightChars) : 4 + 16 * y + 16 ≤ fb.height := by
  rw [heightChars_eq sized] at line
  omega

theorem cell_drawPsfChar (sized : fb.Sized) (regular : font.Regular) (column : x < fb.area.widthChars)
    (line : y < fb.area.heightChars) {x' y' : Nat} (inside : fb.Inside x' y' i j) :
    fb.cell (fb.drawPsfChar font (extend c) x y 4 4 foreground background m) x' y' i j =
      if x' = x ∧ y' = y then font.ink c i j else fb.cell m x' y' i j := by
  obtain ⟨column', _, row, dot⟩ := inside
  have right := column_le sized column'
  unfold cell
  rw [pixel_drawPsfChar sized regular.width regular.height (column_le sized column) (line_le sized line) (by omega)]
  by_cases here : x' = x ∧ y' = y
  · obtain ⟨rfl, rfl⟩ := here
    rw [if_pos (by omega), if_pos ⟨rfl, rfl⟩, Nat.add_sub_cancel_left, Nat.add_sub_cancel_left]
    exact font.ink_mod c i j
  · rw [if_neg (by omega), if_neg here]

/-- Outside of the grid nothing is drawn. -/
theorem pixel_drawPsfChar_other (sized : fb.Sized) (regular : font.Regular) (column : x < fb.area.widthChars)
    (line : y < fb.area.heightChars) {qx qy : Nat} (screen : qx < fb.width)
    (outside : ¬(4 + 8 * x ≤ qx ∧ qx < 4 + 8 * x + 8 ∧ 4 + 16 * y ≤ qy ∧ qy < 4 + 16 * y + 16)) :
    fb.pixel (fb.drawPsfChar font (extend c) x y 4 4 foreground background m) qx qy = fb.pixel m qx qy := by
  rw [pixel_drawPsfChar sized regular.width regular.height (column_le sized column) (line_le sized line) screen,
    if_neg (by omega)]

theorem bar_spec (font : Psf) (sized : fb.Sized) {t : Terminal (Option Mem)} (laid : t.toArea = fb.area)
    (column : x < fb.area.widthChars) (line : y < fb.area.heightChars) (rgb : Nat) (m : Mem) :
    ∃ m', t.bar (fb.drawing font) x y rgb (some m) = some m' ∧ fb.Filled (4 + 8 * x + 1) (4 + 16 * y) 1 16 rgb m m' := by
  have columns := sized.columns
  have rows := sized.rows
  have right := column_le sized column
  have bottom := line_le sized line
  obtain ⟨m', ran, filled⟩ := fillRect_spec (x := 4 + 8 * x + 1) (y := 4 + 16 * y) (w := 1) (h := 16) sized
    (by omega) (by omega) rgb m
  refine ⟨m', ?_, filled⟩
  have left : x * 8 + 1 + 4 = 4 + 8 * x + 1 := by omega
  have top : y * 16 + 4 = 4 + 16 * y := by omega
  unfold Terminal.bar
  rw [laid, area_fontWidth, area_fontHeight, area_actualX, area_actualY, left, top]
  exact ran

theorem Filled.cell {m' : Mem} (filled : fb.Filled (4 + 8 * x + 1) (4 + 16 * y) 1 16 rgb m m') (sized : fb.Sized)
    {x' y' : Nat} (inside : fb.Inside x' y' i j) :
    fb.cell m' x' y' i j = if j = 1 ∧ x' = x ∧ y' = y then rgb % 2 ^ 24 else fb.cell m x' y' i j := by
  obtain ⟨column', line', row, dot⟩ := inside
  have right := column_le sized column'
  have bottom := line_le sized line'
  unfold Framebuffer.cell
  rw [filled _ _ (by omega) (by omega)]
  by_cases here : j = 1 ∧ x' = x ∧ y' = y
  · rw [if_pos here, if_pos (by omega)]
  · rw [if_neg here, if_neg (by omega)]

end Cells

end Framebuffer

end FishOS.Gfx
