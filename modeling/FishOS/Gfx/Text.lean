import FishOS.Gfx.Terminal
import FishOS.Lib.Rows

/-!
# The text of the terminal

The buffer and the cursor follow a page of rows, whatever is drawn.
-/

namespace FishOS.Gfx

open Loops Rows

/-- A terminal as a list of rows. -/
structure Page where
  columns : Nat
  rows : List (List UInt8)
  x : Nat
  y : Nat

namespace Page

def blankRow (p : Page) : List UInt8 := List.replicate p.columns space

def blank (columns height : Nat) : Page :=
  { columns := columns, rows := List.replicate height (List.replicate columns space), x := 0, y := 0 }

def put (p : Page) (c : UInt8) : Page := { p with rows := p.rows.modify p.y fun row => row.set p.x c }

def newline (p : Page) : Page :=
  if p.y + 1 < p.rows.length then
    { p with x := 0, y := p.y + 1 }
  else
    { p with x := 0, rows := p.rows.tail ++ [p.blankRow] }

def write (p : Page) (c : UInt8) : Page :=
  if c = 8 then
    if 0 < p.x then { p with x := p.x - 1 }.put space else p
  else if c = '\r'.toUInt8 then
    { p with x := 0 }
  else if c = '\n'.toUInt8 then
    p.newline
  else if p.x + 1 < p.columns then
    { p.put c with x := p.x + 1 }
  else
    (p.put c).newline

/-- All rows have `columns` cells, and the cursor is on one of them. -/
structure Sound (p : Page) : Prop where
  width : ∀ row ∈ p.rows, row.length = p.columns
  column : p.x < p.columns
  row : p.y < p.rows.length

theorem Sound.put {p : Page} (sound : p.Sound) (c : UInt8) : (p.put c).Sound where
  width := fun row member => by
    obtain ⟨i, inside, rfl⟩ := List.getElem_of_mem member
    rw [Page.put, List.length_modify] at inside
    have width := sound.width p.rows[i] (List.getElem_mem inside)
    simp only [Page.put, List.getElem_modify]
    split
    · rw [List.length_set]
      exact width
    · exact width
  column := sound.column
  row := by
    rw [Page.put, List.length_modify]
    exact sound.row

theorem Sound.newline {p : Page} (sound : p.Sound) : p.newline.Sound ∧ p.newline.rows.length = p.rows.length := by
  have positive : 0 < p.columns := Nat.zero_lt_of_lt sound.column
  have inside := sound.row
  unfold Page.newline
  split
  · rename_i more
    exact ⟨⟨sound.width, positive, more⟩, rfl⟩
  · have count : (p.rows.tail ++ [p.blankRow]).length = p.rows.length := by
      rw [List.length_append, List.length_tail, List.length_singleton]
      omega
    refine ⟨⟨fun row member => ?_, positive, ?_⟩, count⟩
    · rcases List.mem_append.mp member with old | last
      · exact sound.width row (List.mem_of_mem_tail old)
      · rw [List.mem_singleton.mp last]
        exact List.length_replicate
    · show p.y < (p.rows.tail ++ [p.blankRow]).length
      rw [count]
      exact sound.row

@[simp] theorem newline_columns (p : Page) : p.newline.columns = p.columns := by
  unfold Page.newline
  split <;> rfl

theorem write_size {p : Page} (sound : p.Sound) (c : UInt8) :
    (p.write c).Sound ∧ (p.write c).columns = p.columns ∧ (p.write c).rows.length = p.rows.length := by
  have positive : 0 < p.columns := Nat.zero_lt_of_lt sound.column
  unfold Page.write
  split
  · split
    · have moved : Sound { p with x := p.x - 1 } :=
        ⟨sound.width, Nat.lt_of_le_of_lt (Nat.sub_le _ _) sound.column, sound.row⟩
      exact ⟨moved.put space, rfl, List.length_modify _ _ _⟩
    · exact ⟨sound, rfl, rfl⟩
  split
  · exact ⟨⟨sound.width, positive, sound.row⟩, rfl, rfl⟩
  split
  · exact ⟨sound.newline.1, p.newline_columns, sound.newline.2⟩
  split
  · rename_i more
    exact ⟨⟨(sound.put c).width, more, (sound.put c).row⟩, rfl, List.length_modify _ _ _⟩
  · have after := (sound.put c).newline
    exact ⟨after.1, newline_columns _, after.2.trans (List.length_modify _ _ _)⟩

theorem run_size {p : Page} (cs : List UInt8) (sound : p.Sound) :
    (cs.foldl write p).columns = p.columns ∧ (cs.foldl write p).rows.length = p.rows.length := by
  induction cs generalizing p with
  | nil => exact ⟨rfl, rfl⟩
  | cons c cs ih =>
    obtain ⟨sound', columns, height⟩ := write_size sound c
    obtain ⟨columns', height'⟩ := ih sound'
    exact ⟨columns'.trans columns, height'.trans height⟩

end Page

namespace Terminal

variable {σ : Type} {d : Drawing σ} {t t' t'' : Terminal σ} {p : Page} {x y : Nat} {c : UInt8}

/-- Nothing but the text, the screen and the flag differ. -/
structure SamePlace (t t' : Terminal σ) : Prop where
  area : t'.toArea = t.toArea
  cursorX : t'.cursorX = t.cursorX
  cursorY : t'.cursorY = t.cursorY
  oldCursorX : t'.oldCursorX = t.oldCursorX
  oldCursorY : t'.oldCursorY = t.oldCursorY

theorem SamePlace.refl (t : Terminal σ) : SamePlace t t := ⟨rfl, rfl, rfl, rfl, rfl⟩

theorem SamePlace.trans (first : SamePlace t t') (second : SamePlace t' t'') : SamePlace t t'' :=
  ⟨second.area.trans first.area, second.cursorX.trans first.cursorX, second.cursorY.trans first.cursorY,
    second.oldCursorX.trans first.oldCursorX, second.oldCursorY.trans first.oldCursorY⟩

/-- The early exit leaves the text as the assignment would. -/
theorem setCharAt_spec (d : Drawing σ) (c : UInt8) (inside : y * t.widthChars + x < t.buffer.length) :
    ∃ t', t.setCharAt d x y c = some t' ∧ SamePlace t t' ∧ t'.buffer = t.buffer.set (y * t.widthChars + x) c := by
  have read : t.getCharAt x y = some t.buffer[y * t.widthChars + x] := List.getElem?_eq_getElem inside
  unfold setCharAt
  rw [read]
  by_cases same : t.buffer[y * t.widthChars + x] = c
  · refine ⟨t, if_pos same, .refl t, ?_⟩
    rw [← same, List.set_getElem_self]
  · exact ⟨_, if_neg same, ⟨rfl, rfl, rfl, rfl, rfl⟩, rfl⟩

/-- What the text of `t` becomes when it scrolls. -/
def scrolled (t : Terminal σ) : List UInt8 := t.buffer.drop t.widthChars ++ List.replicate t.widthChars space

/-- `scroll` has replaced the first `k` cells. -/
structure Scrolling (t : Terminal σ) (P : Terminal σ → Prop) (k : Nat) (t' : Terminal σ) : Prop where
  place : SamePlace t t'
  text : t'.buffer = patch t.scrolled t.buffer k
  kept : P t'

theorem cell_lt {w h : Nat} (column : x < w) (row : y < h) : y * w + x < h * w := by
  calc y * w + x < y * w + w := Nat.add_lt_add_left column _
    _ = (y + 1) * w := (Nat.succ_mul y w).symm
    _ ≤ h * w := Nat.mul_le_mul_right w row

theorem length_scrolled (rows : 0 < t.heightChars) (full : t.buffer.length = t.heightChars * t.widthChars) :
    t.scrolled.length = t.buffer.length := by
  have row : t.widthChars ≤ t.heightChars * t.widthChars := Nat.le_mul_of_pos_left _ rows
  rw [scrolled, List.length_append, List.length_drop, List.length_replicate, full]
  omega

section Scroll

variable {P : Terminal σ → Prop} (rows : 0 < t.heightChars)
  (full : t.buffer.length = t.heightChars * t.widthChars)
  (kept : ∀ {t₁ t₂ x y c}, SamePlace t t₁ → x < t.widthChars → y < t.heightChars → P t₁ →
    t₁.setCharAt d x y c = some t₂ → P t₂)

include rows full kept

theorem scrolling_step {t₁ : Terminal σ} (column : x < t.widthChars) (row : y < t.heightChars)
    (scrolling : Scrolling t P (y * t.widthChars + x) t₁) (next : t.scrolled[y * t.widthChars + x]? = some c) :
    ∃ t₂, t₁.setCharAt d x y c = some t₂ ∧ Scrolling t P (y * t.widthChars + x + 1) t₂ := by
  have same : t.scrolled.length = t.buffer.length := length_scrolled rows full
  have width : t₁.widthChars = t.widthChars := congrArg Area.widthChars scrolling.place.area
  have cell := cell_lt column row
  have inside : y * t₁.widthChars + x < t₁.buffer.length := by
    rw [scrolling.text, width, patch, List.length_append, List.length_take, List.length_drop]
    omega
  obtain ⟨t₂, ran, place, text⟩ := setCharAt_spec d c inside
  refine ⟨t₂, ran, scrolling.place.trans place, ?_, kept scrolling.place column row scrolling.kept ran⟩
  rw [text, scrolling.text, width, set_patch same next]

theorem scroll_spec (start : P t) :
    ∃ t', t.scroll d = some { t' with cursorNeedsUndrawing := true } ∧ SamePlace t t' ∧
      t'.buffer = t.scrolled ∧ P t' := by
  have same : t.scrolled.length = t.buffer.length := length_scrolled rows full
  have size : (t.heightChars - 1) * t.widthChars + t.widthChars = t.heightChars * t.widthChars := by
    rw [← Nat.succ_mul, Nat.succ_eq_add_one, Nat.sub_add_cancel rows]
  obtain ⟨t₁, copied, shifted⟩ := times_rule (n := t.heightChars - 1)
    (P := fun y => Scrolling t P (y * t.widthChars)) (s := t)
    (fun y t => times t.widthChars (fun x t => (t.getCharAt x (y + 1)).bind (t.setCharAt d x y)) t)
    ⟨.refl t, by rw [Nat.zero_mul, patch_zero], start⟩ <| by
      intro y t₁ upper begun
      have width : t₁.widthChars = t.widthChars := congrArg Area.widthChars begun.place.area
      rw [width, Nat.succ_mul]
      refine times_rule _ (P := fun x => Scrolling t P (y * t.widthChars + x)) begun ?_
      intro x t₂ column scrolling
      have width : t₂.widthChars = t.widthChars := congrArg Area.widthChars scrolling.place.area
      have below := cell_lt column (Nat.add_lt_of_lt_sub upper)
      have later : y * t.widthChars + x + t.widthChars = (y + 1) * t.widthChars + x := by
        rw [Nat.succ_mul, Nat.add_right_comm]
      -- the row below has not been overwritten yet
      have read : t₂.getCharAt x (y + 1) = t.buffer[(y + 1) * t.widthChars + x]? := by
        rw [getCharAt, scrolling.text, width, getElem?_patch same (by omega), if_neg (by omega)]
      have next : t.scrolled[y * t.widthChars + x]? = t.buffer[(y + 1) * t.widthChars + x]? := by
        rw [scrolled, List.getElem?_append_left (by rw [List.length_drop]; omega), List.getElem?_drop,
          Nat.add_comm t.widthChars, later]
      have char : t.buffer[(y + 1) * t.widthChars + x]? = some t.buffer[(y + 1) * t.widthChars + x] :=
        List.getElem?_eq_getElem (by omega)
      show ∃ t₃, (t₂.getCharAt x (y + 1)).bind (t₂.setCharAt d x y) = some t₃ ∧ _
      rw [read, char, Option.bind_some]
      exact scrolling_step rows full kept column (by omega) scrolling (next.trans char)
  have width : t₁.widthChars = t.widthChars := congrArg Area.widthChars shifted.place.area
  have height : t₁.heightChars = t.heightChars := congrArg Area.heightChars shifted.place.area
  obtain ⟨t', cleared, done⟩ := times_rule (n := t.widthChars)
    (P := fun x => Scrolling t P ((t.heightChars - 1) * t.widthChars + x))
    (s := t₁) (fun x t₂ => t₂.setCharAt d x (t₂.heightChars - 1) space) shifted <| by
      intro x t₂ column scrolling
      have height : t₂.heightChars = t.heightChars := congrArg Area.heightChars scrolling.place.area
      have next : t.scrolled[(t.heightChars - 1) * t.widthChars + x]? = some space := by
        rw [scrolled, List.getElem?_append_right (by rw [List.length_drop]; omega), List.length_drop, full,
          List.getElem?_replicate, if_pos (by omega)]
      rw [height]
      exact scrolling_step rows full kept column (by omega) scrolling next
  have all : t'.buffer = t.scrolled := by
    rw [done.text, size, ← full, patch_length same]
  refine ⟨t', ?_, done.place, all, done.kept⟩
  unfold scroll
  rw [copied]
  show (times t₁.widthChars _ t₁).bind _ = _
  rw [width, cleared]
  rfl

end Scroll

/-- The text and the cursor of `t` are those of the page. -/
structure Represents (t : Terminal σ) (p : Page) : Prop where
  sound : p.Sound
  columns : t.widthChars = p.columns
  height : t.heightChars = p.rows.length
  text : t.buffer = p.rows.flatten
  x : t.cursorX = p.x
  y : t.cursorY = p.y

theorem Represents.full (shown : t.Represents p) : t.buffer.length = t.heightChars * t.widthChars := by
  rw [shown.text, length_flatten shown.sound.width, shown.height, shown.columns]

theorem Represents.columns_pos (shown : t.Represents p) : 0 < t.widthChars := by
  rw [shown.columns]
  exact Nat.zero_lt_of_lt shown.sound.column

theorem Represents.row_lt (shown : t.Represents p) : t.cursorY < t.heightChars := by
  rw [shown.y, shown.height]
  exact shown.sound.row

theorem Represents.column_lt (shown : t.Represents p) : t.cursorX < t.widthChars := by
  rw [shown.x, shown.columns]
  exact shown.sound.column

theorem Represents.cursor_lt (shown : t.Represents p) : t.cursorY * t.widthChars + t.cursorX < t.buffer.length := by
  rw [shown.full]
  exact cell_lt shown.column_lt shown.row_lt

theorem Represents.put (shown : t.Represents p) (d : Drawing σ) (c : UInt8) :
    ∃ t', t.setCharAtCursor d c = some t' ∧ SamePlace t t' ∧ t'.Represents (p.put c) := by
  obtain ⟨t', ran, place, text⟩ := setCharAt_spec d c shown.cursor_lt
  refine ⟨t', ran, place, ?_⟩
  exact {
    sound := shown.sound.put c
    columns := (congrArg Area.widthChars place.area).trans shown.columns
    height := by
      rw [congrArg Area.heightChars place.area, shown.height]
      exact (List.length_modify _ _ _).symm
    text := by
      rw [text, shown.text, shown.y, shown.columns, shown.x]
      exact (flatten_set shown.sound.width shown.sound.column).symm
    x := place.cursorX.trans shown.x
    y := place.cursorY.trans shown.y }

/-- The cursor has gone to the next line, which may be behind the last one. -/
theorem scrollPage_newline (sound : p.Sound) (columns : t.widthChars = p.columns) (height : t.heightChars = p.rows.length)
    (text : t.buffer = p.rows.flatten) (x : t.cursorX = 0) (y : t.cursorY = p.y + 1) (d : Drawing σ) :
    ∃ t', t.scrollPage d = some t' ∧ t'.Represents p.newline := by
  obtain ⟨after, count⟩ := sound.newline
  have rows : 0 < p.rows.length := Nat.zero_lt_of_lt sound.row
  unfold scrollPage
  unfold Page.newline at after count ⊢
  by_cases more : p.y + 1 < p.rows.length
  · rw [if_pos more] at after count ⊢
    rw [if_neg (by omega)]
    exact ⟨t, rfl, after, columns, height, text, x, y⟩
  · rw [if_neg more] at after count ⊢
    rw [if_pos (by omega)]
    have full : t.buffer.length = t.heightChars * t.widthChars := by
      rw [text, length_flatten sound.width, height, columns]
    obtain ⟨t', ran, place, moved, _⟩ := scroll_spec (d := d) (P := fun _ => True) (by omega) full
      (fun _ _ _ _ _ => trivial) trivial
    refine ⟨_, by rw [ran]; rfl, ?_⟩
    exact {
      sound := after
      columns := (congrArg Area.widthChars place.area).trans columns
      height := (congrArg Area.heightChars place.area).trans (height.trans count.symm)
      text := by
        show t'.buffer = (p.rows.tail ++ [p.blankRow]).flatten
        rw [moved, flatten_scroll sound.width (List.ne_nil_of_length_pos rows), scrolled, text, columns]
        rfl
      x := place.cursorX.trans x
      y := by
        show t'.cursorY - 1 = p.y
        rw [place.cursorY, y, Nat.add_sub_cancel] }

theorem Represents.redraw (shown : t.Represents p) (d : Drawing σ) : (t.redrawCursor d).Represents p :=
  ⟨shown.sound, shown.columns, shown.height, shown.text, shown.x, shown.y⟩

theorem Represents.backspace (shown : t.Represents p) (d : Drawing σ) :
    ∃ t', t.backspace d = some t' ∧ t'.Represents (p.write 8) := by
  unfold Terminal.backspace Page.write
  rw [if_pos rfl]
  by_cases inner : 0 < t.cursorX
  · rw [if_pos inner, if_pos (shown.x ▸ inner)]
    have moved : Represents { t with cursorX := t.cursorX - 1 } { p with x := p.x - 1 } :=
      ⟨⟨shown.sound.width, Nat.lt_of_le_of_lt (Nat.sub_le _ _) shown.sound.column, shown.sound.row⟩, shown.columns,
        shown.height, shown.text, congrArg (· - 1) shown.x, shown.y⟩
    obtain ⟨t', ran, _, after⟩ := moved.put d space
    refine ⟨_, by rw [ran]; rfl, ?_⟩
    exact ⟨after.sound, after.columns, after.height, after.text, after.x, after.y⟩
  · rw [if_neg inner, if_neg (shown.x ▸ inner)]
    exact ⟨_, rfl, shown.sound, shown.columns, shown.height, shown.text, shown.x, shown.y⟩

/-- The part of `write_char` behind the `switch`. -/
theorem settle (d : Drawing σ) (ran : ∃ t', t.wrapLine.scrollPage d = some t' ∧ t'.Represents p) :
    ∃ t', ((t.wrapLine.scrollPage d).bind fun t => some { t.redrawCursor d with cursorNeedsUndrawing := true }) = some t' ∧
      t'.Represents p := by
  obtain ⟨t', ran, shown⟩ := ran
  rw [ran]
  exact ⟨_, rfl, shown.sound, shown.columns, shown.height, shown.text, shown.x, shown.y⟩

theorem wrapLine_of_lt (inside : t.cursorX < t.widthChars) : t.wrapLine = t := if_neg (Nat.not_le.mpr inside)

theorem scrollPage_of_lt (inside : t.cursorY < t.heightChars) : t.scrollPage d = some t := if_neg (Nat.not_le.mpr inside)

theorem Represents.wrap (shown : t.Represents p) (d : Drawing σ) :
    ∃ t', (wrapLine { t with cursorX := t.cursorX + 1 }).scrollPage d = some t' ∧
      t'.Represents (if p.x + 1 < p.columns then { p with x := p.x + 1 } else p.newline) := by
  by_cases more : p.x + 1 < p.columns
  · have inside : t.cursorX + 1 < t.widthChars := by
      rw [shown.x, shown.columns]
      exact more
    rw [wrapLine_of_lt inside, if_pos more]
    exact ⟨_, scrollPage_of_lt shown.row_lt, ⟨shown.sound.width, more, shown.sound.row⟩, shown.columns, shown.height, shown.text,
      congrArg (· + 1) shown.x, shown.y⟩
  · have last : t.widthChars ≤ t.cursorX + 1 := by
      rw [shown.x, shown.columns]
      exact Nat.not_lt.mp more
    rw [wrapLine, if_pos last, if_neg more]
    exact scrollPage_newline (t := { t with cursorX := 0, cursorY := t.cursorY + 1 }) shown.sound shown.columns shown.height shown.text rfl (congrArg (· + 1) shown.y) d

theorem Represents.write (shown : t.Represents p) (d : Drawing σ) (c : UInt8) :
    ∃ t', t.writeChar d c = some t' ∧ t'.Represents (p.write c) := by
  by_cases back : c = 8
  · subst back
    exact shown.backspace d
  unfold writeChar act Page.write
  rw [if_neg back, if_neg back]
  by_cases home : c = '\r'.toUInt8
  · rw [if_pos home, if_pos home]
    refine settle (t := { t with cursorX := 0 }) d ?_
    rw [wrapLine_of_lt shown.columns_pos]
    exact ⟨_, scrollPage_of_lt shown.row_lt, ⟨shown.sound.width, Nat.zero_lt_of_lt shown.sound.column, shown.sound.row⟩, shown.columns,
      shown.height, shown.text, rfl, shown.y⟩
  rw [if_neg home, if_neg home]
  by_cases line : c = '\n'.toUInt8
  · rw [if_pos line, if_pos line]
    refine settle (t := { t with cursorX := 0, cursorY := t.cursorY + 1, cursorNeedsUndrawing := true }) d ?_
    rw [wrapLine_of_lt shown.columns_pos]
    exact scrollPage_newline (t := { t with cursorX := 0, cursorY := t.cursorY + 1, cursorNeedsUndrawing := true }) shown.sound shown.columns shown.height shown.text rfl (congrArg (· + 1) shown.y) d
  rw [if_neg line, if_neg line]
  obtain ⟨t', ran, _, after⟩ := shown.put d c
  rw [ran]
  exact settle (t := { t' with cursorX := t'.cursorX + 1 }) d (after.wrap d)

/-- A terminal before the first character. -/
structure Blank (t : Terminal σ) : Prop where
  text : t.buffer = List.replicate (t.heightChars * t.widthChars) space
  x : t.cursorX = 0
  y : t.cursorY = 0

theorem create_blank (d : Drawing σ) (fbWidth fbHeight : Nat) (screen : σ) : (create d fbWidth fbHeight screen).Blank where
  text := by
    show List.replicate _ space = List.replicate _ space
    rw [Nat.mul_comm]
    rfl
  x := rfl
  y := rfl

theorem Blank.represents (blank : t.Blank) (columns : 1 ≤ t.widthChars) (rows : 1 ≤ t.heightChars) :
    t.Represents (.blank t.widthChars t.heightChars) where
  sound := {
    width := fun row member => by
      rw [List.eq_of_mem_replicate member]
      exact List.length_replicate
    column := columns
    row := by
      rw [Page.blank, List.length_replicate]
      exact rows }
  columns := rfl
  height := List.length_replicate.symm
  text := by
    rw [blank.text, Page.blank, List.flatten_replicate_replicate]
  x := blank.x
  y := blank.y

theorem Represents.run (shown : t.Represents p) (d : Drawing σ) (cs : List UInt8) :
    ∃ t', t.write d cs = some t' ∧ t'.Represents (cs.foldl Page.write p) := by
  induction cs generalizing t p with
  | nil => exact ⟨t, rfl, shown⟩
  | cons c cs ih =>
    obtain ⟨t₁, first, after⟩ := shown.write d c
    obtain ⟨t', rest, final⟩ := ih after
    refine ⟨t', ?_, final⟩
    rw [Terminal.write, List.foldlM_cons, first]
    exact rest

theorem text_refines_page (d : Drawing σ) (t : Terminal σ) (blank : t.Blank) (columns : 1 ≤ t.widthChars)
    (rows : 1 ≤ t.heightChars) (cs : List UInt8) :
    ∃ t', t.write d cs = some t' ∧ t'.cursorX < t.widthChars ∧ t'.cursorY < t.heightChars ∧
      t'.Represents (cs.foldl Page.write (.blank t.widthChars t.heightChars)) := by
  obtain ⟨t', ran, shown⟩ := (blank.represents columns rows).run d cs
  obtain ⟨width, height⟩ := Page.run_size cs (blank.represents columns rows).sound
  refine ⟨t', ran, ?_, ?_, shown⟩
  · have column := shown.sound.column
    rw [width] at column
    rw [shown.x]
    exact column
  · have row := shown.sound.row
    rw [height, Page.blank, List.length_replicate] at row
    rw [shown.y]
    exact row

/-- A screen that nothing is drawn on. -/
def dark : Drawing Unit := { drawPsfChar := fun _ _ _ _ _ _ _ s => s, fillRect := fun _ _ _ _ _ s => s }

/-- 48 by 24 pixels give two columns and one row. -/
theorem text_refines_page_narrow :
    ∃ t', (create dark 48 24 ()).write dark (['a', 'b', 'c', '\r', 'd'].map Char.toUInt8) = some t' ∧
      t'.cursorX < 2 ∧ t'.cursorY < 1 ∧ t'.buffer = ['d', ' '].map Char.toUInt8 := by
  obtain ⟨t', ran, column, row, shown⟩ := text_refines_page dark (create dark 48 24 ()) (create_blank dark 48 24 ())
    (by decide) (by decide) (['a', 'b', 'c', '\r', 'd'].map Char.toUInt8)
  exact ⟨t', ran, column, row, shown.text.trans (by decide)⟩

end Terminal

end FishOS.Gfx
