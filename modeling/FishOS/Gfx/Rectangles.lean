import FishOS.Gfx.Framebuffer
import Mathlib.Data.List.Flatten

/-!
# Rectangles and their pixels

`fill_rect` against one call of `put_pixel` for every pixel of the rectangle on the screen.
-/

namespace FishOS.Gfx.Framebuffer

open Loops

/-- A coordinate on the far edge passes the test. The place is a sum of 32-bit products. -/
def putPixel (fb : Framebuffer) (x y rgb : Nat) (m : Mem) : Mem :=
  let x := x % 2 ^ 16
  let y := y % 2 ^ 16
  if fb.width < x ∨ fb.height < y then m
  else m.writeLE (fb.addr + (x * fb.pixelWidth + y * fb.pitch) % 2 ^ 32) 3 rgb

/-- The pixels of a rectangle, line by line. -/
def pixels (x y w h : Nat) : List (Nat × Nat) :=
  (List.range' y h).flatMap fun j => (List.range' x w).map fun i => (i, j)

/-- One call of `put_pixel` for every pixel of the rectangle that is on the screen. -/
def putPixels (fb : Framebuffer) (x y w h rgb : Nat) (m : Mem) : Mem :=
  (pixels x y w h).foldl (fun m p => if p.1 < fb.width ∧ p.2 < fb.height then fb.putPixel p.1 p.2 rgb m else m) m

/-- Pixels of three bytes at least, and lines with room for all of them. -/
structure Lined (fb : Framebuffer) : Prop where
  pixel : 3 ≤ fb.pixelWidth
  line : fb.width * fb.pixelWidth ≤ fb.pitch
  word : fb.pitch < 2 ^ 32

/-- The bytes of the framebuffer. -/
def Covers (fb : Framebuffer) (a : Nat) : Prop := fb.addr ≤ a ∧ a < fb.addr + fb.height * fb.pitch

/-- `fill_rect` comes back with what the calls of `put_pixel` leave, and changes no other bytes. -/
def FillsAsPixels (fb : Framebuffer) (x y w h rgb : Nat) : Prop :=
  ∀ m, ∃ m', fb.fillRect x y w h rgb m = some m' ∧ m' = fb.putPixels x y w h rgb m ∧ ∀ a, ¬fb.Covers a → m' a = m a

def PutsInside (fb : Framebuffer) (x y rgb : Nat) : Prop := ∀ m a, ¬fb.Covers a → fb.putPixel x y rgb m a = m a

/-- The 16-bit counters reach the ends of their loops, the one of the columns when a line is drawn. -/
def Ends (fb : Framebuffer) (x y w h : Nat) : Prop :=
  y + h < 2 ^ 16 ∧ (h = 0 ∨ fb.height ≤ y ∨ x + w < 2 ^ 16)

/-- Every pixel that is drawn begins in the 4 GiB behind the address of the screen, as reckoned from the
32-bit place of its line. -/
def Near (fb : Framebuffer) (x y w h : Nat) : Prop :=
  ∀ i j, x ≤ i → i < x + w → i < fb.width → y ≤ j → j < y + h → j < fb.height →
    fb.pitch * j % 2 ^ 32 + i * fb.pixelWidth < 2 ^ 32

/-- A pixel that passes the test from the far edge comes to lie in the framebuffer. -/
def EdgeFits (fb : Framebuffer) (x y : Nat) : Prop :=
  x ≤ fb.width → y ≤ fb.height → x = fb.width ∨ y = fb.height →
    (x * fb.pixelWidth + y * fb.pitch) % 2 ^ 32 + 3 ≤ fb.height * fb.pitch

/-- The offset at which `fill_rect` writes a pixel. -/
def linePlace (fb : Framebuffer) (p : Nat × Nat) : Nat := fb.pitch * p.2 % 2 ^ 32 + p.1 * fb.pixelWidth % 2 ^ 32

/-- One round of the loops of `fill_rect`. -/
def fillPixel (fb : Framebuffer) (rgb : Nat) (m : Mem) (p : Nat × Nat) : Mem :=
  if p.1 < fb.width ∧ p.2 < fb.height then m.writeLE (fb.addr + fb.linePlace p) 3 rgb else m

variable {fb : Framebuffer} {x y w h rgb i j : Nat} {m m' : Mem} {p : Nat × Nat}

theorem mem_pixels : p ∈ pixels x y w h ↔ (x ≤ p.1 ∧ p.1 < x + w) ∧ y ≤ p.2 ∧ p.2 < y + h := by
  obtain ⟨i, j⟩ := p
  simp [pixels, List.mem_range'_1, and_comm]

theorem fillRow_eq (fits : x + w < 2 ^ 16) (row : j < fb.height) :
    fb.fillRow (fb.addr + fb.pitch * j % 2 ^ 32) x w rgb m =
      some ((List.range' x w).foldl (fun m i => fb.fillPixel rgb m (i, j)) m) := by
  have loop := count_eq_foldl
    (fun j' (m : Mem) => if fb.width ≤ j' then some m
      else some (m.writeLE (fb.addr + fb.pitch * j % 2 ^ 32 + j' * fb.pixelWidth % 2 ^ 32) 3 rgb))
    (fun i m => fb.fillPixel rgb m (i, j)) (show w + x < 2 ^ 16 by omega) (Nat.le_add_left x w)
    (by
      intro i m _ _
      unfold fillPixel linePlace
      by_cases column : i < fb.width
      · rw [if_neg (Nat.not_le.mpr column), if_pos ⟨column, row⟩, Nat.add_assoc]
      · rw [if_pos (Nat.not_lt.mp column), if_neg fun inside => column inside.1])
    m
  rw [Nat.add_sub_cancel] at loop
  exact loop

theorem fillLine_outside (row : ¬j < fb.height) (columns : List Nat) :
    columns.foldl (fun m i => fb.fillPixel rgb m (i, j)) m = m := by
  induction columns with
  | nil => rfl
  | cons i columns ih => rw [List.foldl_cons, fillPixel, if_neg fun inside => row inside.2, ih]

/-- Where the loops end, they go through the pixels of the rectangle. -/
theorem fillRect_ends (ends : fb.Ends x y w h) (column : x < 2 ^ 16) (width : w < 2 ^ 16) :
    fb.fillRect x y w h rgb m = some ((pixels x y w h).foldl (fb.fillPixel rgb) m) := by
  obtain ⟨rows, columns⟩ := ends
  have loop := count_eq_foldl
    (fun i (m : Mem) => if fb.height ≤ i then some m else fb.fillRow (fb.addr + fb.pitch * i % 2 ^ 32) x w rgb m)
    (fun j m => (List.range' x w).foldl (fun m i => fb.fillPixel rgb m (i, j)) m)
    (show h + y < 2 ^ 16 by omega) (Nat.le_add_left y h)
    (by
      intro j m lower upper
      by_cases row : j < fb.height
      · rw [if_neg (Nat.not_le.mpr row), fillRow_eq (by omega) row]
      · rw [if_pos (Nat.not_lt.mp row), fillLine_outside row])
    m
  rw [Nat.add_sub_cancel] at loop
  unfold fillRect pixels
  rw [Nat.mod_eq_of_lt column, Nat.mod_eq_of_lt width, Nat.mod_eq_of_lt (show y < 2 ^ 16 by omega),
    Nat.mod_eq_of_lt (show h < 2 ^ 16 by omega), List.foldl_flatMap]
  simp only [List.foldl_map]
  exact loop

theorem fillRect_spins (stuck : ¬fb.Ends x y w h) (column : x < 2 ^ 16) (row : y < 2 ^ 16) (width : w < 2 ^ 16)
    (height : h < 2 ^ 16) : fb.fillRect x y w h rgb m = none := by
  unfold fillRect
  rw [Nat.mod_eq_of_lt column, Nat.mod_eq_of_lt width, Nat.mod_eq_of_lt row, Nat.mod_eq_of_lt height]
  by_cases rows : y + h < 2 ^ 16
  · unfold Ends at stuck
    refine count_fails _ (by omega) ?_
    rw [if_neg (by omega)]
    exact count_wraps _ (by omega) column m
  · exact count_wraps _ (by omega) row m

/-- A byte that some round writes does not depend on the memory before. -/
theorem fillPixels_written {l : List (Nat × Nat)} {a : Nat}
    (same : m a = m' a ∨ ∃ p ∈ l, (p.1 < fb.width ∧ p.2 < fb.height) ∧
      fb.addr + fb.linePlace p ≤ a ∧ a < fb.addr + fb.linePlace p + 3) :
    l.foldl (fb.fillPixel rgb) m a = l.foldl (fb.fillPixel rgb) m' a := by
  induction l generalizing m m' with
  | nil => simpa using same
  | cons q l ih =>
    rw [List.foldl_cons, List.foldl_cons]
    refine ih ?_
    by_cases later : ∃ p ∈ l, (p.1 < fb.width ∧ p.2 < fb.height) ∧
        fb.addr + fb.linePlace p ≤ a ∧ a < fb.addr + fb.linePlace p + 3
    · exact .inr later
    left
    unfold fillPixel
    rcases same with same | ⟨p, member, inside, lower, upper⟩
    · split
      · unfold Mem.writeLE
        rw [same]
      · exact same
    · rcases List.mem_cons.mp member with rfl | behind
      · rw [if_pos inside, if_pos inside, Mem.writeLE, Mem.writeLE, if_pos ⟨lower, upper⟩, if_pos ⟨lower, upper⟩]
      · exact absurd ⟨p, behind, inside, lower, upper⟩ later

/-- The product of a column does not wrap on the screen. -/
theorem columnBytes_le (column : i < fb.width) : i * fb.pixelWidth + fb.pixelWidth ≤ fb.width * fb.pixelWidth := by
  rw [← Nat.succ_mul]
  exact Nat.mul_le_mul_right _ column

theorem lineBytes_le (row : j < fb.height) : j * fb.pitch + fb.pitch ≤ fb.height * fb.pitch := by
  rw [← Nat.succ_mul]
  exact Nat.mul_le_mul_right _ row

theorem linePlace_eq (lined : fb.Lined) (column : p.1 < fb.width) :
    fb.linePlace p = fb.pitch * p.2 % 2 ^ 32 + p.1 * fb.pixelWidth := by
  have inside := columnBytes_le column
  have pixel := lined.pixel
  have line := lined.line
  have word := lined.word
  rw [linePlace, Nat.mod_eq_of_lt (show p.1 * fb.pixelWidth < 2 ^ 32 by omega)]

/-- The two functions write a pixel to the same place as long as the sum does not wrap. -/
theorem fillPixel_eq (lined : fb.Lined) (column : p.1 < fb.width) (row : p.2 < fb.height) (small : p.1 < 2 ^ 16)
    (small' : p.2 < 2 ^ 16) (near : fb.pitch * p.2 % 2 ^ 32 + p.1 * fb.pixelWidth < 2 ^ 32) :
    fb.fillPixel rgb m p = fb.putPixel p.1 p.2 rgb m := by
  have place : (p.1 * fb.pixelWidth + p.2 * fb.pitch) % 2 ^ 32 = fb.pitch * p.2 % 2 ^ 32 + p.1 * fb.pixelWidth := by
    rw [Nat.mul_comm p.2, Nat.add_comm, ← Nat.mod_add_mod, Nat.mod_eq_of_lt near]
  unfold putPixel
  dsimp only
  rw [fillPixel, if_pos ⟨column, row⟩, linePlace_eq lined column, Nat.mod_eq_of_lt small, Nat.mod_eq_of_lt small',
    if_neg (by omega), place]

theorem fillPixel_inside (lined : fb.Lined) {a : Nat} (outside : ¬fb.Covers a) : fb.fillPixel rgb m p a = m a := by
  unfold fillPixel
  split
  · rename_i on
    have inside := columnBytes_le on.1
    have rows := lineBytes_le on.2
    have pixel := lined.pixel
    have line := lined.line
    have wrapped := Nat.mod_le (fb.pitch * p.2) (2 ^ 32)
    rw [Nat.mul_comm fb.pitch] at wrapped
    rw [linePlace_eq lined on.1, Nat.mul_comm fb.pitch]
    unfold Covers at outside
    rcases Nat.lt_or_ge a fb.addr with before | behind
    · exact Mem.writeLE_of_lt m (by omega)
    · exact Mem.writeLE_of_ge m (by omega)
  · rfl

theorem fillPixels_inside (lined : fb.Lined) (l : List (Nat × Nat)) {a : Nat} (outside : ¬fb.Covers a) :
    l.foldl (fb.fillPixel rgb) m a = m a := by
  induction l generalizing m with
  | nil => rfl
  | cons p l ih => rw [List.foldl_cons, ih, fillPixel_inside lined outside]

/-- `put_pixel` writes no byte from 4 GiB and two bytes on. -/
theorem putPixel_far {a : Nat} (far : fb.addr + 2 ^ 32 + 2 ≤ a) : fb.putPixel i j rgb m a = m a := by
  unfold putPixel
  split
  · rfl
  · have wrapped := Nat.mod_lt (i % 2 ^ 16 * fb.pixelWidth + j % 2 ^ 16 * fb.pitch) (show 0 < 2 ^ 32 by decide)
    exact Mem.writeLE_of_ge m (by omega)

theorem putPixels_far {a : Nat} (far : fb.addr + 2 ^ 32 + 2 ≤ a) : fb.putPixels x y w h rgb m a = m a := by
  unfold putPixels
  generalize pixels x y w h = l
  induction l generalizing m with
  | nil => rfl
  | cons p l ih =>
    rw [List.foldl_cons, ih]
    split
    · exact putPixel_far far
    · rfl

theorem fills_iff (lined : fb.Lined) (column : x < 2 ^ 16) (row : y < 2 ^ 16) (width : w < 2 ^ 16)
    (height : h < 2 ^ 16) : fb.FillsAsPixels x y w h rgb ↔ fb.Ends x y w h ∧ fb.Near x y w h := by
  constructor
  · intro fills
    have ends : fb.Ends x y w h := by
      by_contra stuck
      obtain ⟨m', ran, -⟩ := fills fun _ => 0
      rw [fillRect_spins stuck column row width height] at ran
      cases ran
    refine ⟨ends, fun i j left right on above below on' => ?_⟩
    by_contra far
    -- the third byte of this pixel, which put_pixel never reaches
    have kept : ∀ m : Mem, (pixels x y w h).foldl (fb.fillPixel rgb) m (fb.addr + fb.linePlace (i, j) + 2) =
        m (fb.addr + fb.linePlace (i, j) + 2) := by
      intro m
      obtain ⟨m', ran, same, -⟩ := fills m
      rw [fillRect_ends ends column width] at ran
      rw [Option.some.inj ran, same, putPixels_far]
      rw [linePlace_eq lined on]
      dsimp only
      omega
    have member : (i, j) ∈ pixels x y w h := mem_pixels.mpr ⟨⟨left, right⟩, above, below⟩
    have third : fb.addr + fb.linePlace (i, j) ≤ fb.addr + fb.linePlace (i, j) + 2 ∧
        fb.addr + fb.linePlace (i, j) + 2 < fb.addr + fb.linePlace (i, j) + 3 := by omega
    have written : (pixels x y w h).foldl (fb.fillPixel rgb) (fun _ => 0) (fb.addr + fb.linePlace (i, j) + 2) =
        (pixels x y w h).foldl (fb.fillPixel rgb) (fun _ => 1) (fb.addr + fb.linePlace (i, j) + 2) :=
      fillPixels_written (.inr ⟨(i, j), member, ⟨on, on'⟩, third⟩)
    rw [kept, kept] at written
    exact absurd written (by decide)
  · rintro ⟨ends, near⟩ m
    refine ⟨_, fillRect_ends ends column width, ?_, fun a outside => fillPixels_inside lined _ outside⟩
    apply List.foldl_ext
    rintro m ⟨i, j⟩ member
    obtain ⟨⟨left, right⟩, above, below⟩ := mem_pixels.mp member
    obtain ⟨rows, columns⟩ := ends
    dsimp only at left right above below ⊢
    split
    · rename_i on
      exact fillPixel_eq lined on.1 on.2 (by omega) (show j < 2 ^ 16 by omega)
        (near i j left right on.1 above below on.2)
    · rename_i off
      rw [fillPixel, if_neg off]

theorem puts_inside_iff (lined : fb.Lined) (column : x < 2 ^ 16) (row : y < 2 ^ 16) :
    fb.PutsInside x y rgb ↔ fb.EdgeFits x y := by
  have put : ∀ m, fb.putPixel x y rgb m = if fb.width < x ∨ fb.height < y then m
      else m.writeLE (fb.addr + (x * fb.pixelWidth + y * fb.pitch) % 2 ^ 32) 3 rgb := by
    intro m
    rw [putPixel, Nat.mod_eq_of_lt column, Nat.mod_eq_of_lt row]
  unfold PutsInside EdgeFits Covers
  simp only [put]
  constructor
  · intro inside left above _
    by_contra far
    let a := fb.addr + (x * fb.pixelWidth + y * fb.pitch) % 2 ^ 32 + 2
    have kept : ∀ m : Mem, m a = UInt8.ofNat (rgb / 256 ^ 2) := by
      intro m
      have same := inside m a (by omega)
      rw [if_neg (by omega), Mem.writeLE, if_pos (by omega)] at same
      rw [← same]
      congr 3
      omega
    exact absurd ((kept fun _ => 0).trans (kept fun _ => 1).symm) (by decide)
  · intro fits m a outside
    split
    · rfl
    · rename_i passed
      have wrapped := Nat.mod_le (x * fb.pixelWidth + y * fb.pitch) (2 ^ 32)
      have bytes : (x * fb.pixelWidth + y * fb.pitch) % 2 ^ 32 + 3 ≤ fb.height * fb.pitch := by
        by_cases edge : x = fb.width ∨ y = fb.height
        · exact fits (by omega) (by omega) edge
        · have inside := columnBytes_le (show x < fb.width by omega)
          have rows := lineBytes_le (show y < fb.height by omega)
          have pixel := lined.pixel
          have line := lined.line
          omega
      rcases Nat.lt_or_ge a fb.addr with before | behind
      · exact Mem.writeLE_of_lt m (by omega)
      · exact Mem.writeLE_of_ge m (by omega)

/-- For every rectangle and every pixel: `fill_rect` draws what `put_pixel` draws if and only if its
counters reach their ends and no pixel lies across a multiple of 4 GiB, and `put_pixel` stays in the
framebuffer if and only if it is not on the far edge, or the edge comes to lie inside. -/
theorem rectangle_iff (lined : fb.Lined) (column : x < 2 ^ 16) (row : y < 2 ^ 16) (width : w < 2 ^ 16)
    (height : h < 2 ^ 16) (rgb : Nat) :
    (fb.FillsAsPixels x y w h rgb ↔ fb.Ends x y w h ∧ fb.Near x y w h) ∧
      (fb.PutsInside x y rgb ↔ fb.EdgeFits x y) :=
  ⟨fills_iff lined column row width height, puts_inside_iff lined column row⟩

/-- A screen of 64 by 48 pixels of three bytes. -/
def packedScreen : Framebuffer := { addr := 0x1000, width := 64, height := 48, pitch := 192, pixelWidth := 3 }

/-- The corner of the screen, with a rectangle that reaches out of it. -/
theorem rectangle_iff_corner : packedScreen.FillsAsPixels 63 47 16 16 0xFF ∧ packedScreen.PutsInside 63 47 0xFF := by
  have lined : packedScreen.Lined := ⟨by decide, by decide, by decide⟩
  have place : 63 < 2 ^ 16 ∧ 47 < 2 ^ 16 ∧ 16 < 2 ^ 16 := by decide
  obtain ⟨fills, puts⟩ := rectangle_iff lined place.1 place.2.1 place.2.2 place.2.2 0xFF
  refine ⟨fills.mpr ⟨by unfold Ends; decide, ?_⟩, puts.mpr ?_⟩
  · intro i j left _ on above _ on'
    simp only [packedScreen] at on on' ⊢
    obtain rfl : i = 63 := by omega
    obtain rfl : j = 47 := by omega
    decide
  · unfold EdgeFits
    decide

/-- The counter of the lines never gets to 65536, and the line behind the last one is written. -/
theorem rectangle_never_ends :
    (∀ m, packedScreen.fillRect 0 65535 1 1 0xFF m = none) ∧
      ∃ a, ¬packedScreen.Covers a ∧ packedScreen.putPixel 0 48 0xFF (fun _ => 0) a = 0xFF := by
  refine ⟨fun m => fillRect_spins ?_ (by decide) (by decide) (by decide) (by decide), 0x3400, ?_, by decide⟩
  · rintro ⟨rows, -⟩
    exact absurd rows (by decide)
  · unfold Covers
    decide

end FishOS.Gfx.Framebuffer
