import FishOS.Gfx.Cells

/-!
# The terminal on the screen

Whether the pixels that `write_char` leaves are those of a full redraw.
-/

namespace FishOS.Gfx

open Loops Framebuffer

namespace Terminal

/-- The glyph of every cell is drawn, and then the bar of the cursor. -/
def redrawAll {σ : Type} (d : Drawing σ) (t : Terminal σ) : Option σ := do
  let screen ← times t.heightChars (fun y screen =>
    times t.widthChars (fun x screen => (t.getCharAt x y).map fun c =>
      d.drawPsfChar (extend c) x y t.actualX t.actualY t.fg t.bg screen) screen) t.screen
  some (t.bar d t.cursorX t.cursorY t.fg screen)

/-- A full redraw changes no pixel of the screen. -/
def Displayed (fb : Framebuffer) (font : Psf) (t : Terminal (Option Mem)) : Prop :=
  ∃ m m', t.screen = some m ∧ t.redrawAll (fb.drawing font) = some (some m') ∧
    ∀ qx qy, qx < fb.width → qy < fb.height → fb.pixel m' qx qy = fb.pixel m qx qy

def charAt {σ : Type} (t : Terminal σ) (x y : Nat) : UInt8 := (t.getCharAt x y).getD 0

/-- The pixel of a cell in a full redraw. -/
def look {σ : Type} (t : Terminal σ) (font : Psf) (x y i j : Nat) : Nat :=
  if j = 1 ∧ x = t.cursorX ∧ y = t.cursorY then foreground else font.ink (t.charAt x y) i j

def Shown (fb : Framebuffer) (font : Psf) (t : Terminal (Option Mem)) : Prop :=
  ∃ m, t.screen = some m ∧ ∀ {x y i j}, fb.Inside x y i j → fb.cell m x y i j = t.look font x y i j

/-- A terminal on this screen between two characters. -/
structure Ready (fb : Framebuffer) (t : Terminal (Option Mem)) (p : Page) : Prop where
  area : t.toArea = fb.area
  page : t.Represents p
  oldX : t.oldCursorX = t.cursorX
  oldY : t.oldCursorY = t.cursorY
  flag : t.cursorNeedsUndrawing = false → t.cursorX = 0

section Display

variable {fb : Framebuffer} {font : Psf} {t t' : Terminal (Option Mem)} {p : Page} {m : Mem} {x y i j : Nat} {c : UInt8}

theorem cell_inj {w x y x' y' : Nat} (column : x < w) (column' : x' < w) (same : y * w + x = y' * w + x') :
    x = x' ∧ y = y' := by
  have ordered : ∀ {a b u v : Nat}, u < w → a < b → a * w + u < b * w + v := by
    intro a b u v inside before
    calc a * w + u < a * w + w := Nat.add_lt_add_left inside _
      _ = (a + 1) * w := (Nat.succ_mul a w).symm
      _ ≤ b * w := Nat.mul_le_mul_right w before
      _ ≤ b * w + v := Nat.le_add_right _ _
  rcases Nat.lt_trichotomy y y' with above | rfl | below
  · exact absurd same (Nat.ne_of_lt (ordered column above))
  · exact ⟨Nat.add_left_cancel same, rfl⟩
  · exact absurd same (Nat.ne_of_gt (ordered column' below))

theorem getCharAt_eq {σ : Type} {t : Terminal σ} (full : t.buffer.length = t.heightChars * t.widthChars)
    (column : x < t.widthChars) (line : y < t.heightChars) : t.getCharAt x y = some (t.charAt x y) := by
  have inside : y * t.widthChars + x < t.buffer.length := by
    rw [full]
    exact cell_lt column line
  have read : t.getCharAt x y = some t.buffer[y * t.widthChars + x] := List.getElem?_eq_getElem inside
  rw [charAt, read, Option.getD_some]

/-- No cell of the grid has this pixel. -/
def Outside (fb : Framebuffer) (qx qy : Nat) : Prop :=
  ∀ x y, x < fb.area.widthChars → y < fb.area.heightChars →
    ¬(4 + 8 * x ≤ qx ∧ qx < 4 + 8 * x + 8 ∧ 4 + 16 * y ≤ qy ∧ qy < 4 + 16 * y + 16)

/-- The screen has the given pixels in the grid, and those of `m` outside of it. -/
structure Redrawn (fb : Framebuffer) (m m' : Mem) (pixels : (x y i j : Nat) → Nat) : Prop where
  cells : ∀ {x y i j}, fb.Inside x y i j → fb.cell m' x y i j = pixels x y i j
  others : ∀ {qx qy}, qx < fb.width → qy < fb.height → Outside fb qx qy → fb.pixel m' qx qy = fb.pixel m qx qy

/-- The pixels when the first `k` glyphs have been drawn. -/
def drawn (fb : Framebuffer) (font : Psf) (t : Terminal (Option Mem)) (m : Mem) (k x y i j : Nat) : Nat :=
  if y * t.widthChars + x < k then font.ink (t.charAt x y) i j else fb.cell m x y i j

theorem redrawn_step (sized : fb.Sized) (regular : font.Regular) (area : t.toArea = fb.area)
    (column : x < fb.area.widthChars) (line : y < fb.area.heightChars) {m' : Mem}
    (before : Redrawn fb m m' (drawn fb font t m (y * t.widthChars + x))) :
    Redrawn fb m (fb.drawPsfChar font (extend (t.charAt x y)) x y 4 4 foreground background m')
      (drawn fb font t m (y * t.widthChars + x + 1)) where
  cells := by
    intro x' y' i j inside
    have width : t.widthChars = fb.area.widthChars := congrArg Area.widthChars area
    rw [cell_drawPsfChar sized regular column line inside, before.cells inside]
    unfold drawn
    by_cases here : x' = x ∧ y' = y
    · obtain ⟨rfl, rfl⟩ := here
      rw [if_pos ⟨rfl, rfl⟩, if_pos (Nat.lt_succ_self _)]
    · have apart : y' * t.widthChars + x' ≠ y * t.widthChars + x := fun same =>
        here (cell_inj (width ▸ inside.column) (width ▸ column) same)
      rw [if_neg here]
      by_cases earlier : y' * t.widthChars + x' < y * t.widthChars + x
      · rw [if_pos earlier, if_pos (by omega)]
      · rw [if_neg earlier, if_neg (by omega)]
  others := by
    intro qx qy screen screen' outside
    rw [pixel_drawPsfChar_other sized regular column line screen (outside x y column line)]
    exact before.others screen screen' outside

theorem redrawAll_spec (sized : fb.Sized) (regular : font.Regular) (ready : t.Ready fb p) (shown : t.screen = some m) :
    ∃ m', t.redrawAll (fb.drawing font) = some (some m') ∧ Redrawn fb m m' (t.look font) := by
  have area := ready.area
  have width : t.widthChars = fb.area.widthChars := congrArg Area.widthChars area
  have height : t.heightChars = fb.area.heightChars := congrArg Area.heightChars area
  let P (k : Nat) (screen : Option Mem) : Prop := ∃ m', screen = some m' ∧ Redrawn fb m m' (drawn fb font t m k)
  obtain ⟨screen, ran, m₁, rfl, glyphs⟩ := times_rule (n := t.heightChars) (P := fun y => P (y * t.widthChars))
    (s := t.screen)
    (fun y screen => times t.widthChars (fun x screen => (t.getCharAt x y).map fun c =>
      (fb.drawing font).drawPsfChar (extend c) x y t.actualX t.actualY t.fg t.bg screen) screen)
    ⟨m, shown, fun _ => by rw [drawn, Nat.zero_mul, if_neg (Nat.not_lt_zero _)], fun _ _ _ => rfl⟩ <| by
      intro y screen line begun
      rw [Nat.succ_mul]
      refine times_rule _ (P := fun x => P (y * t.widthChars + x)) begun ?_
      rintro x _ column ⟨m', rfl, before⟩
      rw [getCharAt_eq ready.page.full column line]
      refine ⟨_, rfl, _, ?_, redrawn_step sized regular area (width ▸ column) (height ▸ line) before⟩
      rw [area]
      rfl
  have column : t.cursorX < fb.area.widthChars := width ▸ ready.page.column_lt
  have line : t.cursorY < fb.area.heightChars := height ▸ ready.page.row_lt
  obtain ⟨m', drew, filled⟩ := bar_spec font sized area column line foreground m₁
  refine ⟨m', ?_, ?_, ?_⟩
  · unfold redrawAll
    rw [ran]
    show some (t.bar (fb.drawing font) t.cursorX t.cursorY t.fg (some m₁)) = _
    rw [← drew, area]
    rfl
  · intro x y i j inside
    have all : y * t.widthChars + x < t.heightChars * t.widthChars :=
      cell_lt (width ▸ inside.column) (height ▸ inside.line)
    rw [filled.cell sized inside, glyphs.cells inside, drawn, if_pos all]
    rfl
  · intro qx qy screen screen' outside
    have cell := outside t.cursorX t.cursorY column line
    rw [filled qx qy screen screen', if_neg (by omega)]
    exact glyphs.others screen screen' outside

/-- The pixels outside of the grid are the same in a full redraw anyway. -/
theorem displayed_iff (sized : fb.Sized) (regular : font.Regular) (ready : t.Ready fb p) :
    t.Displayed fb font ↔ t.Shown fb font := by
  constructor
  · rintro ⟨m, m', shown, redrawn, same⟩
    refine ⟨m, shown, ?_⟩
    intro x y i j inside
    obtain ⟨m'', redrawn', all⟩ := redrawAll_spec sized regular ready shown
    obtain rfl : m'' = m' := Option.some.inj (Option.some.inj (redrawn'.symm.trans redrawn))
    have right := column_le sized inside.column
    have bottom := line_le sized inside.line
    have dot := inside.dot
    have row := inside.row
    rw [← all.cells inside]
    exact (same _ _ (by omega) (by omega)).symm
  · rintro ⟨m, shown, cells⟩
    obtain ⟨m', redrawn, all⟩ := redrawAll_spec sized regular ready shown
    refine ⟨m, m', shown, redrawn, ?_⟩
    intro qx qy screen screen'
    by_cases outside : Outside fb qx qy
    · exact all.others screen screen' outside
    · simp only [Outside, not_forall, not_not] at outside
      obtain ⟨x, y, column, line, left, right, top, bottom⟩ := outside
      have inside : fb.Inside x y (qy - (4 + 16 * y)) (qx - (4 + 8 * x)) := ⟨column, line, by omega, by omega⟩
      have same := (all.cells inside).trans (cells inside).symm
      unfold cell at same
      rw [Nat.add_sub_cancel' left, Nat.add_sub_cancel' top] at same
      exact same

end Display

end Terminal

end FishOS.Gfx
