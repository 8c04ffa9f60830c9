import FishOS.Gfx.Display

/-!
# Damage by the cursor

The bar of the cursor takes one column of pixels of a cell. It is erased by painting that column
with the background, which is right where the glyph has nothing there.
-/

namespace FishOS.Gfx

open Loops Framebuffer

/-- The column under the bar is background in all rows of the glyph. -/
def Psf.Bare (font : Psf) (c : UInt8) : Prop := ∀ i < 16, (font.start (font.glyph (extend c) + i)).toNat &&& 64 = 0

/-- The column under the bar is foreground in all rows of the glyph. -/
def Psf.Solid (font : Psf) (c : UInt8) : Prop := ∀ i < 16, (font.start (font.glyph (extend c) + i)).toNat &&& 64 ≠ 0

instance (font : Psf) (c : UInt8) : Decidable (font.Bare c) := by unfold Psf.Bare; infer_instance

instance (font : Psf) (c : UInt8) : Decidable (font.Solid c) := by unfold Psf.Solid; infer_instance

namespace Psf

variable {font : Psf} {c : UInt8} {i : Nat}

theorem bare_iff : font.Bare c ↔ ∀ i < 16, background = font.ink c i 1 := by
  have dot : ∀ i, background = font.ink c i 1 ↔ (font.start (font.glyph (extend c) + i)).toNat &&& 64 = 0 := by
    intro i
    show background = (if _ &&& 64 ≠ 0 then foreground else background) ↔ _
    split
    · rename_i inked
      exact ⟨fun same => absurd same (by decide), fun bare => absurd bare inked⟩
    · rename_i bare
      exact ⟨fun _ => not_not.mp bare, fun _ => rfl⟩
  exact forall₂_congr fun i _ => (dot i).symm

theorem solid_iff : font.Solid c ↔ ∀ i < 16, foreground = font.ink c i 1 := by
  have dot : ∀ i, foreground = font.ink c i 1 ↔ (font.start (font.glyph (extend c) + i)).toNat &&& 64 ≠ 0 := by
    intro i
    show foreground = (if _ &&& 64 ≠ 0 then foreground else background) ↔ _
    split
    · rename_i inked
      exact ⟨fun _ => inked, fun _ => rfl⟩
    · rename_i bare
      exact ⟨fun same => absurd same (by decide), fun inked => absurd inked bare⟩
  exact forall₂_congr fun i _ => (dot i).symm

end Psf

namespace Terminal

/-- The step of `write_char` leaves no trace of the bar, and takes nothing from a glyph. -/
def Spared {σ : Type} (t : Terminal σ) (font : Psf) (c : UInt8) : Prop :=
  if c = 8 ∨ c = '\r'.toUInt8 then
    t.cursorX = 0 ∨ font.Bare (t.charAt t.cursorX t.cursorY)
  else if c = '\n'.toUInt8 then
    t.cursorY + 1 = t.heightChars ∨ font.Bare (t.charAt t.cursorX t.cursorY)
  else
    (t.cursorX + 1 = t.widthChars ∧ t.cursorY + 1 = t.heightChars) ∨ t.charAt t.cursorX t.cursorY ≠ c ∨
      if t.cursorNeedsUndrawing then font.Bare c else font.Solid c

/-- Every character of the list is spared where it is written. -/
def Undamaged {σ : Type} (d : Drawing σ) (font : Psf) : Terminal σ → List UInt8 → Prop
  | _, [] => True
  | t, c :: cs => t.Spared font c ∧ ∀ t', t.writeChar d c = some t' → Undamaged d font t' cs

/-- All cells show their glyphs, but for the column that the old bar was in. -/
structure Kept (fb : Framebuffer) (font : Psf) (t : Terminal (Option Mem)) (m : Mem) : Prop where
  screen : t.screen = some m
  cells : ∀ {x y i j}, fb.Inside x y i j → ¬(j = 1 ∧ x = t.oldCursorX ∧ y = t.oldCursorY) →
    fb.cell m x y i j = font.ink (t.charAt x y) i j

/-- Where the bar moves, its old column is right when `redraw_cursor` leaves it. -/
def Erased (fb : Framebuffer) (font : Psf) (t : Terminal (Option Mem)) (m : Mem) : Prop :=
  (t.cursorX = t.oldCursorX ∧ t.cursorY = t.oldCursorY) ∨
    ∀ i < 16, (if t.cursorNeedsUndrawing then background else fb.cell m t.oldCursorX t.oldCursorY i 1) =
      font.ink (t.charAt t.oldCursorX t.oldCursorY) i 1

section Damage

variable {fb : Framebuffer} {font : Psf} {t t' : Terminal (Option Mem)} {p : Page} {m : Mem} {x y i j : Nat} {c : UInt8}

theorem redrawCursor_spec (font : Psf) (sized : fb.Sized) (area : t.toArea = fb.area)
    (column : t.cursorX < fb.area.widthChars) (line : t.cursorY < fb.area.heightChars)
    (oldColumn : t.oldCursorX < fb.area.widthChars) (oldLine : t.oldCursorY < fb.area.heightChars)
    (screen : t.screen = some m) :
    ∃ m', (t.redrawCursor (fb.drawing font)).screen = some m' ∧
      ∀ {x y i j}, fb.Inside x y i j → fb.cell m' x y i j =
        if j = 1 ∧ x = t.cursorX ∧ y = t.cursorY then foreground
        else if t.cursorNeedsUndrawing = true ∧ j = 1 ∧ x = t.oldCursorX ∧ y = t.oldCursorY then background
        else fb.cell m x y i j := by
  have colours : t.fg = foreground ∧ t.bg = background := by simp [area]
  unfold redrawCursor
  simp only [colours, screen]
  by_cases undraw : t.cursorNeedsUndrawing = true
  · obtain ⟨m₁, erased, back⟩ := bar_spec font sized area oldColumn oldLine background m
    obtain ⟨m', drew, front⟩ := bar_spec font sized area column line foreground m₁
    refine ⟨m', by rw [if_pos undraw, erased, drew], ?_⟩
    intro x y i j inside
    rw [front.cell sized inside, back.cell sized inside]
    simp only [undraw, true_and]
    rfl
  · obtain ⟨m', drew, front⟩ := bar_spec font sized area column line foreground m
    refine ⟨m', by rw [if_neg undraw, drew], ?_⟩
    intro x y i j inside
    rw [front.cell sized inside]
    simp only [undraw]
    rfl

theorem shown_redrawCursor (sized : fb.Sized) (area : t.toArea = fb.area)
    (column : t.cursorX < fb.area.widthChars) (line : t.cursorY < fb.area.heightChars)
    (oldColumn : t.oldCursorX < fb.area.widthChars) (oldLine : t.oldCursorY < fb.area.heightChars)
    (kept : t.Kept fb font m) : (t.redrawCursor (fb.drawing font)).Shown fb font ↔ t.Erased fb font m := by
  obtain ⟨m', screen, cells⟩ := redrawCursor_spec font sized area column line oldColumn oldLine kept.screen
  have look : ∀ x y i j, (t.redrawCursor (fb.drawing font)).look font x y i j = t.look font x y i j := fun _ _ _ _ => rfl
  constructor
  · rintro ⟨m'', screen', shown⟩
    obtain rfl : m'' = m' := Option.some.inj (screen'.symm.trans screen)
    by_cases moved : t.oldCursorX = t.cursorX ∧ t.oldCursorY = t.cursorY
    · exact Or.inl ⟨moved.1.symm, moved.2.symm⟩
    refine Or.inr fun i row => ?_
    have inside : fb.Inside t.oldCursorX t.oldCursorY i 1 := ⟨oldColumn, oldLine, row, by decide⟩
    have old := shown inside
    have apart : ¬(1 = 1 ∧ t.oldCursorX = t.cursorX ∧ t.oldCursorY = t.cursorY) := fun here => moved here.2
    rw [cells inside, look, Terminal.look, if_neg apart, if_neg apart] at old
    rw [← old]
    simp
  · intro erased
    refine ⟨m', screen, ?_⟩
    intro x y i j inside
    rw [cells inside, look, Terminal.look]
    by_cases bar : j = 1 ∧ x = t.cursorX ∧ y = t.cursorY
    · rw [if_pos bar, if_pos bar]
    rw [if_neg bar, if_neg bar]
    by_cases old : j = 1 ∧ x = t.oldCursorX ∧ y = t.oldCursorY
    · obtain ⟨rfl, rfl, rfl⟩ := old
      rcases erased with same | erased
      · exact absurd ⟨rfl, same.1.symm, same.2.symm⟩ bar
      · rw [← erased i inside.row]
        simp
    · rw [if_neg (fun here => old here.2)]
      exact kept.cells inside old

theorem setCharAt_cases {σ : Type} {d : Drawing σ} {t t' : Terminal σ} (ran : t.setCharAt d x y c = some t') :
    y * t.widthChars + x < t.buffer.length ∧
      ((t.charAt x y = c ∧ t' = t) ∨ (t.charAt x y ≠ c ∧ t' = { t with
        buffer := t.buffer.set (y * t.widthChars + x) c
        screen := d.drawPsfChar (extend c) x y t.actualX t.actualY t.fg t.bg t.screen
        cursorNeedsUndrawing := false })) := by
  unfold setCharAt at ran
  obtain ⟨old, read, ran⟩ := Option.bind_eq_some_iff.mp ran
  have char : t.charAt x y = old := by rw [charAt, read, Option.getD_some]
  refine ⟨(List.getElem?_eq_some_iff.mp read).1, ?_⟩
  rw [char]
  split at ran
  · rename_i same
    exact Or.inl ⟨same, (Option.some.inj ran).symm⟩
  · rename_i other
    exact Or.inr ⟨other, (Option.some.inj ran).symm⟩

theorem charAt_set {σ : Type} {t t' : Terminal σ} (inside : y * t.widthChars + x < t.buffer.length)
    (width : t'.widthChars = t.widthChars) (text : t'.buffer = t.buffer.set (y * t.widthChars + x) c)
    (column : x < t.widthChars) {x' y' : Nat} (column' : x' < t.widthChars) :
    t'.charAt x' y' = if x' = x ∧ y' = y then c else t.charAt x' y' := by
  unfold charAt getCharAt
  rw [text, width, List.getElem?_set]
  by_cases here : x' = x ∧ y' = y
  · obtain ⟨rfl, rfl⟩ := here
    rw [if_pos rfl, if_pos inside, if_pos ⟨rfl, rfl⟩, Option.getD_some]
  · have apart : ¬y * t.widthChars + x = y' * t.widthChars + x' := fun same =>
      here ⟨(cell_inj column column' same).1.symm, (cell_inj column column' same).2.symm⟩
    rw [if_neg apart, if_neg here]

/-- A drawn cell shows its glyph whether the bar was on it or not. -/
theorem Kept.setCharAt (kept : t.Kept fb font m) (sized : fb.Sized) (regular : font.Regular) (area : t.toArea = fb.area)
    (column : x < fb.area.widthChars) (line : y < fb.area.heightChars)
    (ran : t.setCharAt (fb.drawing font) x y c = some t') :
    SamePlace t t' ∧ (∀ {x' y'}, x' < t.widthChars → t'.charAt x' y' = if x' = x ∧ y' = y then c else t.charAt x' y') ∧
      ((t.charAt x y = c ∧ t' = t) ∨
        (t.charAt x y ≠ c ∧ t'.cursorNeedsUndrawing = false ∧
          ∃ m', t'.Kept fb font m' ∧ ∀ i < 16, fb.cell m' x y i 1 = font.ink c i 1)) := by
  have width : t.widthChars = fb.area.widthChars := congrArg Area.widthChars area
  obtain ⟨inside, ⟨same, rfl⟩ | ⟨other, after⟩⟩ := setCharAt_cases ran
  · refine ⟨.refl t', fun {x' y'} _ => ?_, Or.inl ⟨same, rfl⟩⟩
    split
    · rename_i here
      rw [here.1, here.2, same]
    · rfl
  · have chars : ∀ {x' y'}, x' < t.widthChars → t'.charAt x' y' = if x' = x ∧ y' = y then c else t.charAt x' y' :=
      fun column' => charAt_set inside (by rw [after]) (by rw [after]) (width ▸ column) column'
    refine ⟨by rw [after]; exact ⟨rfl, rfl, rfl, rfl, rfl⟩, chars, Or.inr ⟨other, by rw [after],
      fb.drawPsfChar font (extend c) x y 4 4 foreground background m, ⟨?_, ?_⟩, ?_⟩⟩
    · rw [after]
      show Option.map _ t.screen = _
      rw [kept.screen, area]
      rfl
    · intro x' y' i j cell old
      rw [cell_drawPsfChar sized regular column line cell, chars (width ▸ cell.column)]
      split
      · rfl
      · rw [after] at old
        exact kept.cells cell old
    · intro i row
      rw [cell_drawPsfChar sized regular column line ⟨column, line, row, by decide⟩, if_pos ⟨rfl, rfl⟩]

theorem Ready.column_lt (ready : t.Ready fb p) : t.oldCursorX < fb.area.widthChars := by
  rw [ready.oldX, ← congrArg Area.widthChars ready.area]
  exact ready.page.column_lt

theorem Ready.line_lt (ready : t.Ready fb p) : t.oldCursorY < fb.area.heightChars := by
  rw [ready.oldY, ← congrArg Area.heightChars ready.area]
  exact ready.page.row_lt

theorem Represents.charAt_cursor {σ : Type} {t : Terminal σ} (shown : t.Represents p) :
    t.charAt t.cursorX t.cursorY = (p.rows.flatten[p.y * p.columns + p.x]?).getD 0 := by
  unfold charAt getCharAt
  rw [shown.text, shown.columns, shown.x, shown.y]

/-- In a scroll the last row becomes blank, and the bar is erased from it. -/
theorem Kept.scroll (kept : t.Kept fb font m) (sized : fb.Sized) (regular : font.Regular) (area : t.toArea = fb.area)
    (full : t.buffer.length = t.heightChars * t.widthChars) (oldColumn : t.oldCursorX < t.widthChars)
    (last : t.oldCursorY + 1 = t.heightChars) (ran : t.scroll (fb.drawing font) = some t') :
    SamePlace t t' ∧ t'.cursorNeedsUndrawing = true ∧ ∃ m', t'.Kept fb font m' ∧
      ∀ i < 16, background = font.ink (t'.charAt t.oldCursorX t.oldCursorY) i 1 := by
  have width : t.widthChars = fb.area.widthChars := congrArg Area.widthChars area
  have height : t.heightChars = fb.area.heightChars := congrArg Area.heightChars area
  obtain ⟨t₁, ran', place, text, m', kept'⟩ := scroll_spec (d := fb.drawing font)
    (P := fun t => ∃ m, t.Kept fb font m) (by omega) full (by
      rintro t₁ t₂ x y c place column line ⟨m₁, kept⟩ set
      obtain ⟨_, _, ⟨_, rfl⟩ | ⟨_, _, m₂, kept', _⟩⟩ := kept.setCharAt sized regular (place.area.trans area)
        (width ▸ column) (height ▸ line) set
      · exact ⟨m₁, kept⟩
      · exact ⟨m₂, kept'⟩) ⟨m, kept⟩
  obtain rfl : { t₁ with cursorNeedsUndrawing := true } = t' := Option.some.inj (ran'.symm.trans ran)
  have blank : charAt { t₁ with cursorNeedsUndrawing := true } t.oldCursorX t.oldCursorY = space := by
    have before : t.oldCursorY * t.widthChars + t.widthChars = t.heightChars * t.widthChars := by
      rw [← last, Nat.succ_mul]
    have dropped : (t.buffer.drop t.widthChars).length = t.oldCursorY * t.widthChars := by
      rw [List.length_drop, full]
      omega
    have width' : t₁.widthChars = t.widthChars := congrArg Area.widthChars place.area
    show (t₁.buffer[t.oldCursorY * t₁.widthChars + t.oldCursorX]?).getD 0 = space
    rw [text, width', scrolled, List.getElem?_append_right (by omega), dropped, Nat.add_sub_cancel_left,
      List.getElem?_replicate, if_pos oldColumn, Option.getD_some]
  refine ⟨⟨place.area, place.cursorX, place.cursorY, place.oldCursorX, place.oldCursorY⟩, rfl, m',
    ⟨kept'.screen, kept'.cells⟩, ?_⟩
  intro i row
  rw [blank, regular.ink_space row]

theorem Kept.scrollPage (kept : t.Kept fb font m) (sized : fb.Sized) (regular : font.Regular) (area : t.toArea = fb.area)
    (full : t.buffer.length = t.heightChars * t.widthChars) (oldColumn : t.oldCursorX < t.widthChars)
    (below : t.heightChars ≤ t.cursorY → t.oldCursorY + 1 = t.heightChars)
    (ran : t.scrollPage (fb.drawing font) = some t') :
    (t.cursorY < t.heightChars ∧ t' = t) ∨
      (t.heightChars ≤ t.cursorY ∧ t'.toArea = t.toArea ∧ t'.oldCursorX = t.oldCursorX ∧ t'.oldCursorY = t.oldCursorY ∧
        ∃ m', t'.Kept fb font m' ∧ t'.Erased fb font m') := by
  unfold Terminal.scrollPage at ran
  split at ran
  · rename_i behind
    obtain ⟨t₁, scrolled, rfl⟩ := Option.map_eq_some_iff.mp ran
    obtain ⟨place, flag, m', kept', blank⟩ := kept.scroll sized regular area full oldColumn (below behind) scrolled
    refine Or.inr ⟨behind, place.area, place.oldCursorX, place.oldCursorY, m', ⟨kept'.screen, kept'.cells⟩, Or.inr ?_⟩
    intro i row
    simp only [flag, if_true, place.oldCursorX, place.oldCursorY]
    exact blank i row
  · rename_i more
    exact Or.inl ⟨Nat.not_le.mp more, (Option.some.inj ran).symm⟩

theorem Shown.kept (shown : t.Shown fb font) (ready : t.Ready fb p) :
    ∃ m, t.Kept fb font m ∧ ∀ i < 16, fb.cell m t.oldCursorX t.oldCursorY i 1 = foreground := by
  obtain ⟨m, screen, cells⟩ := shown
  refine ⟨m, ⟨screen, fun inside apart => ?_⟩, fun i row => ?_⟩
  · rw [cells inside, look, if_neg (by rw [← ready.oldX, ← ready.oldY]; exact apart)]
  · have inside : fb.Inside t.oldCursorX t.oldCursorY i 1 := ⟨ready.column_lt, ready.line_lt, row, by decide⟩
    rw [cells inside, look, if_pos ⟨rfl, ready.oldX, ready.oldY⟩]

/-- The end of `write_char`, for a terminal that has its new text and cursor. -/
theorem Kept.redraw (kept : t.Kept fb font m) (sized : fb.Sized) (area : t.toArea = fb.area) (page : t.Represents p)
    (oldColumn : t.oldCursorX < fb.area.widthChars) (oldLine : t.oldCursorY < fb.area.heightChars) :
    Ready fb { t.redrawCursor (fb.drawing font) with cursorNeedsUndrawing := true } p ∧
      (Shown fb font { t.redrawCursor (fb.drawing font) with cursorNeedsUndrawing := true } ↔ t.Erased fb font m) := by
  have column : t.cursorX < fb.area.widthChars := by
    rw [← congrArg Area.widthChars area]
    exact page.column_lt
  have line : t.cursorY < fb.area.heightChars := by
    rw [← congrArg Area.heightChars area]
    exact page.row_lt
  refine ⟨?_, shown_redrawCursor sized area column line oldColumn oldLine kept⟩
  exact {
    area := area
    page := ⟨page.sound, page.columns, page.height, page.text, page.x, page.y⟩
    oldX := rfl
    oldY := rfl
    flag := fun unset => by cases unset }

theorem Ready.backspace (sized : fb.Sized) (regular : font.Regular) (ready : t.Ready fb p) (shown : t.Shown fb font)
    (ran : t.backspace (fb.drawing font) = some t') (page : t'.Represents (p.write 8)) :
    t'.Ready fb (p.write 8) ∧ (t'.Shown fb font ↔ t.Spared font 8) := by
  rw [Spared, if_pos (Or.inl rfl)]
  unfold Terminal.backspace at ran
  split at ran
  · rename_i inner
    obtain ⟨t₁, set, rfl⟩ := Option.map_eq_some_iff.mp ran
    obtain ⟨m, kept, _⟩ := shown.kept ready
    have before : Kept fb font { t with cursorX := t.cursorX - 1 } m := ⟨kept.screen, kept.cells⟩
    have left : t.cursorX - 1 < fb.area.widthChars := by
      have column := ready.column_lt
      rw [ready.oldX] at column
      omega
    have line : t.cursorY < fb.area.heightChars := ready.oldY ▸ ready.line_lt
    obtain ⟨place, chars, drawn⟩ := before.setCharAt sized regular ready.area left line set
    have oldX : t₁.oldCursorX = t.cursorX := place.oldCursorX.trans ready.oldX
    have oldY : t₁.oldCursorY = t.cursorY := place.oldCursorY.trans ready.oldY
    have under : t₁.charAt t.cursorX t.cursorY = t.charAt t.cursorX t.cursorY := by
      refine (chars ready.page.column_lt).trans (if_neg ?_)
      show ¬(t.cursorX = t.cursorX - 1 ∧ _)
      omega
    obtain ⟨m₁, kept₁⟩ : ∃ m₁, t₁.Kept fb font m₁ := by
      rcases drawn with ⟨_, rfl⟩ | ⟨_, _, m₁, kept₁, _⟩
      · exact ⟨m, before⟩
      · exact ⟨m₁, kept₁⟩
    have staged : Kept fb font { t₁ with cursorNeedsUndrawing := true } m₁ := ⟨kept₁.screen, kept₁.cells⟩
    obtain ⟨after, iff⟩ := staged.redraw sized (place.area.trans ready.area)
      ⟨page.sound, page.columns, page.height, page.text, page.x, page.y⟩
      (by rw [oldX, ← ready.oldX]; exact ready.column_lt) (by rw [oldY, ← ready.oldY]; exact ready.line_lt)
    refine ⟨after, iff.trans ?_⟩
    unfold Erased
    simp only [if_true, oldX, oldY, place.cursorX]
    show _ ∨ (∀ i < 16, background = font.ink (t₁.charAt t.cursorX t.cursorY) i 1) ↔ _
    rw [under, ← Psf.bare_iff]
    exact or_congr_left ⟨fun same => absurd same.1 (by omega), fun first => absurd first (by omega)⟩
  · rename_i first
    obtain rfl := Option.some.inj ran
    refine ⟨⟨ready.area, page, ready.oldX, ready.oldY, fun _ => by show t.cursorX = 0; omega⟩, ?_⟩
    exact ⟨fun _ => Or.inl (by omega), fun _ => shown⟩

/-- `t'` has the new text and cursor, while the bar on its screen is that of `t`. -/
structure Staged (fb : Framebuffer) (font : Psf) (t : Terminal (Option Mem)) (c : UInt8) (t' : Terminal (Option Mem))
    (m : Mem) : Prop where
  area : t'.toArea = t.toArea
  oldX : t'.oldCursorX = t.oldCursorX
  oldY : t'.oldCursorY = t.oldCursorY
  kept : t'.Kept fb font m
  erased : t'.Erased fb font m ↔ t.Spared font c

theorem Ready.home (ready : t.Ready fb p) (shown : t.Shown fb font)
    (ran : (wrapLine { t with cursorX := 0 }).scrollPage (fb.drawing font) = some t') :
    ∃ m, Staged fb font t '\r'.toUInt8 t' m := by
  obtain ⟨m, kept, _⟩ := shown.kept ready
  rw [wrapLine_of_lt (t := { t with cursorX := 0 }) ready.page.columns_pos,
    scrollPage_of_lt (t := { t with cursorX := 0 }) ready.page.row_lt] at ran
  obtain rfl := Option.some.inj ran
  refine ⟨m, rfl, rfl, rfl, ⟨kept.screen, kept.cells⟩, ?_⟩
  rw [Spared, if_pos (Or.inr rfl), Psf.bare_iff]
  show (0 = t.oldCursorX ∧ t.cursorY = t.oldCursorY) ∨
    (∀ i < 16, (if t.cursorNeedsUndrawing then background else fb.cell m t.oldCursorX t.oldCursorY i 1) =
      font.ink (t.charAt t.oldCursorX t.oldCursorY) i 1) ↔ _
  rw [ready.oldX, ready.oldY]
  by_cases undraw : t.cursorNeedsUndrawing = true
  · simp only [undraw, if_true]
    exact or_congr_left ⟨fun same => same.1.symm, fun first => ⟨first.symm, trivial⟩⟩
  · have first : t.cursorX = 0 := ready.flag (by simpa using undraw)
    exact ⟨fun _ => Or.inl first, fun _ => Or.inl ⟨first.symm, rfl⟩⟩

theorem Ready.line (sized : fb.Sized) (regular : font.Regular) (ready : t.Ready fb p) (shown : t.Shown fb font)
    (ran : (wrapLine { t with cursorX := 0, cursorY := t.cursorY + 1, cursorNeedsUndrawing := true }).scrollPage
      (fb.drawing font) = some t') : ∃ m, Staged fb font t '\n'.toUInt8 t' m := by
  obtain ⟨m, kept, _⟩ := shown.kept ready
  have row := ready.page.row_lt
  rw [wrapLine_of_lt (t := { t with cursorX := 0, cursorY := t.cursorY + 1, cursorNeedsUndrawing := true })
    ready.page.columns_pos] at ran
  have before : Kept fb font { t with cursorX := 0, cursorY := t.cursorY + 1, cursorNeedsUndrawing := true } m :=
    ⟨kept.screen, kept.cells⟩
  have last (behind : t.heightChars ≤ t.cursorY + 1) : t.oldCursorY + 1 = t.heightChars := by
    rw [ready.oldY]
    omega
  have spared : t.Spared font '\n'.toUInt8 ↔
      t.cursorY + 1 = t.heightChars ∨ font.Bare (t.charAt t.cursorX t.cursorY) := by
    rw [Spared, if_neg (by decide), if_pos rfl]
  rcases before.scrollPage sized regular ready.area ready.page.full (ready.oldX ▸ ready.page.column_lt) last ran
    with ⟨more, rfl⟩ | ⟨behind, area, oldX, oldY, m', kept', erased⟩
  · have more : t.cursorY + 1 < t.heightChars := more
    refine ⟨m, rfl, rfl, rfl, before, ?_⟩
    rw [spared, Psf.bare_iff]
    show (0 = t.oldCursorX ∧ t.cursorY + 1 = t.oldCursorY) ∨
      (∀ i < 16, background = font.ink (t.charAt t.oldCursorX t.oldCursorY) i 1) ↔ _
    rw [ready.oldX, ready.oldY]
    exact or_congr_left ⟨fun same => absurd same.2 (by omega), fun ends => absurd ends (by omega)⟩
  · have behind : t.heightChars ≤ t.cursorY + 1 := behind
    exact ⟨m', area, oldX, oldY, kept', iff_of_true erased (spared.mpr (Or.inl (by omega)))⟩

/-- Whether the bar is gone from a character that has been written. -/
theorem Ready.wiped (sized : fb.Sized) (regular : font.Regular) (ready : t.Ready fb p) (shown : t.Shown fb font)
    (set : t.setCharAtCursor (fb.drawing font) c = some t') :
    SamePlace t t' ∧ t'.charAt t.cursorX t.cursorY = c ∧ ∃ m, t'.Kept fb font m ∧
      ((∀ i < 16, (if t'.cursorNeedsUndrawing then background else fb.cell m t.cursorX t.cursorY i 1) = font.ink c i 1) ↔
        t.charAt t.cursorX t.cursorY ≠ c ∨ if t.cursorNeedsUndrawing then font.Bare c else font.Solid c) := by
  obtain ⟨m, kept, barred⟩ := shown.kept ready
  rw [ready.oldX, ready.oldY] at barred
  obtain ⟨place, chars, drawn⟩ := kept.setCharAt sized regular ready.area (ready.oldX ▸ ready.column_lt)
    (ready.oldY ▸ ready.line_lt) set
  refine ⟨place, (chars ready.page.column_lt).trans (if_pos ⟨rfl, rfl⟩), ?_⟩
  rcases drawn with ⟨same, rfl⟩ | ⟨other, flag, m', kept', inked⟩
  · refine ⟨m, kept, ?_⟩
    rw [or_iff_right (not_not.mpr same), Psf.bare_iff, Psf.solid_iff]
    by_cases undraw : t'.cursorNeedsUndrawing = true
    · simp only [undraw, if_true]
    · simp only [undraw]
      exact forall₂_congr fun i row => by rw [← barred i row]; rfl
  · refine ⟨m', kept', iff_of_true (fun i row => ?_) (Or.inl other)⟩
    rw [flag]
    exact inked i row

theorem wrapLine_next {σ : Type} (t : Terminal σ) :
    ∃ x y, wrapLine { t with cursorX := t.cursorX + 1 } = { t with cursorX := x, cursorY := y } ∧
      ((t.cursorX + 1 < t.widthChars ∧ x = t.cursorX + 1 ∧ y = t.cursorY) ∨
        (t.widthChars ≤ t.cursorX + 1 ∧ x = 0 ∧ y = t.cursorY + 1)) := by
  by_cases last : t.widthChars ≤ t.cursorX + 1
  · exact ⟨0, t.cursorY + 1, if_pos last, Or.inr ⟨last, rfl, rfl⟩⟩
  · exact ⟨t.cursorX + 1, t.cursorY, if_neg last, Or.inl ⟨Nat.not_le.mp last, rfl, rfl⟩⟩

theorem Ready.char (sized : fb.Sized) (regular : font.Regular) (ready : t.Ready fb p) (shown : t.Shown fb font)
    (plain : c ≠ 8 ∧ c ≠ '\r'.toUInt8 ∧ c ≠ '\n'.toUInt8) {t₁ : Terminal (Option Mem)}
    (set : t.setCharAtCursor (fb.drawing font) c = some t₁)
    (ran : (wrapLine { t₁ with cursorX := t₁.cursorX + 1 }).scrollPage (fb.drawing font) = some t') :
    ∃ m, Staged fb font t c t' m := by
  obtain ⟨place, char, m, kept, wiped⟩ := ready.wiped sized regular shown set
  have full : t₁.buffer.length = t₁.heightChars * t₁.widthChars := by
    obtain ⟨t₂, set', _, page⟩ := ready.page.put (fb.drawing font) c
    obtain rfl : t₂ = t₁ := Option.some.inj (set'.symm.trans set)
    exact page.full
  have width : t₁.widthChars = t.widthChars := congrArg Area.widthChars place.area
  have height : t₁.heightChars = t.heightChars := congrArg Area.heightChars place.area
  have oldX : t₁.oldCursorX = t.cursorX := place.oldCursorX.trans ready.oldX
  have oldY : t₁.oldCursorY = t.cursorY := place.oldCursorY.trans ready.oldY
  have column := ready.page.column_lt
  have row := ready.page.row_lt
  obtain ⟨x, y, wrapped, moved⟩ := t₁.wrapLine_next
  rw [place.cursorX, place.cursorY, width] at moved
  rw [wrapped] at ran
  have before : Kept fb font { t₁ with cursorX := x, cursorY := y } m := ⟨kept.screen, kept.cells⟩
  have last (behind : t₁.heightChars ≤ y) : t₁.oldCursorY + 1 = t₁.heightChars := by
    rw [oldY]
    omega
  have spared : t.Spared font c ↔ (t.cursorX + 1 = t.widthChars ∧ t.cursorY + 1 = t.heightChars) ∨
      t.charAt t.cursorX t.cursorY ≠ c ∨ if t.cursorNeedsUndrawing then font.Bare c else font.Solid c := by
    rw [Spared, if_neg (not_or.mpr ⟨plain.1, plain.2.1⟩), if_neg plain.2.2]
  rcases before.scrollPage sized regular (place.area.trans ready.area) full (by rw [oldX, width]; exact column) last ran
    with ⟨more, rfl⟩ | ⟨behind, area, oldX', oldY', m', kept', erased⟩
  · have more : y < t₁.heightChars := more
    refine ⟨m, place.area, place.oldCursorX, place.oldCursorY, before, ?_⟩
    rw [spared, ← wiped]
    show (x = t₁.oldCursorX ∧ y = t₁.oldCursorY) ∨
      (∀ i < 16, (if t₁.cursorNeedsUndrawing then background else fb.cell m t₁.oldCursorX t₁.oldCursorY i 1) =
        font.ink (t₁.charAt t₁.oldCursorX t₁.oldCursorY) i 1) ↔ _
    rw [oldX, oldY, char]
    exact or_congr_left ⟨fun same => absurd same (by omega), fun ends => absurd ends (by omega)⟩
  · have behind : t₁.heightChars ≤ y := behind
    refine ⟨m', area.trans place.area, oldX'.trans place.oldCursorX, oldY'.trans place.oldCursorY, kept', ?_⟩
    exact iff_of_true erased (spared.mpr (Or.inl (by omega)))

theorem Ready.write (sized : fb.Sized) (regular : font.Regular) (ready : t.Ready fb p) (shown : t.Shown fb font)
    (ran : t.writeChar (fb.drawing font) c = some t') :
    t'.Ready fb (p.write c) ∧ (t'.Shown fb font ↔ t.Spared font c) := by
  obtain ⟨t'', ran', page⟩ := ready.page.write (fb.drawing font) c
  obtain rfl : t'' = t' := Option.some.inj (ran'.symm.trans ran)
  unfold writeChar at ran
  by_cases back : c = 8
  · subst back
    exact ready.backspace sized regular shown ran page
  rw [if_neg back] at ran
  obtain ⟨t₀, acted, ran⟩ := Option.bind_eq_some_iff.mp ran
  obtain ⟨t₁, scrolled, ran⟩ := Option.bind_eq_some_iff.mp ran
  obtain rfl := Option.some.inj ran
  have staged : ∃ m, Staged fb font t c t₁ m := by
    unfold act at acted
    by_cases home : c = '\r'.toUInt8
    · rw [if_pos home] at acted
      obtain rfl := Option.some.inj acted
      subst home
      exact ready.home shown scrolled
    rw [if_neg home] at acted
    by_cases line : c = '\n'.toUInt8
    · rw [if_pos line] at acted
      obtain rfl := Option.some.inj acted
      subst line
      exact ready.line sized regular shown scrolled
    rw [if_neg line] at acted
    obtain ⟨t₂, set, rfl⟩ := Option.map_eq_some_iff.mp acted
    exact ready.char sized regular shown ⟨back, home, line⟩ set scrolled
  obtain ⟨m, area, oldX, oldY, kept, erased⟩ := staged
  obtain ⟨after, iff⟩ := kept.redraw sized (area.trans ready.area)
    ⟨page.sound, page.columns, page.height, page.text, page.x, page.y⟩ (oldX ▸ ready.column_lt) (oldY ▸ ready.line_lt)
  exact ⟨after, iff.trans erased⟩

theorem drawBackground_spec (font : Psf) (sized : fb.Sized) (m : Mem) :
    ∃ m', drawBackground (fb.drawing font) fb.area (some m) = some m' ∧
      ∀ {x y i j}, fb.Inside x y i j → fb.cell m' x y i j = background := by
  have wide := sized.wide
  have tall := sized.tall
  have columns := sized.columns
  have rows := sized.rows
  have fields : fb.area.x = 0 ∧ fb.area.y = 0 ∧ fb.area.width = fb.width / 2 ∧ fb.area.height = fb.height ∧
      fb.area.paddingTop = 4 ∧ fb.area.paddingBottom = 4 ∧ fb.area.paddingLeft = 4 ∧ fb.area.paddingRight = 4 ∧
      fb.area.border = background :=
    ⟨rfl, rfl, rfl, rfl, rfl, rfl, rfl, rfl, rfl⟩
  have right : sub64 (fb.width / 2) 4 = fb.width / 2 - 4 := sub64_of_le (by omega) (by omega)
  have bottom : sub64 fb.height 4 = fb.height - 4 := sub64_of_le (by omega) (by omega)
  have actualWidth : fb.area.actualWidth = fb.width / 2 - 8 := by
    show sub64 (sub64 (fb.width / 2) 4) 4 = _
    rw [right, sub64_of_le (by omega) (by omega), Nat.sub_sub]
  have actualHeight : fb.area.actualHeight = fb.height - 8 := by
    show sub64 (sub64 fb.height 4) 4 = _
    rw [bottom, sub64_of_le (by omega) (by omega), Nat.sub_sub]
  obtain ⟨m₁, ran₁, filled₁⟩ := fillRect_spec (x := 4) (y := 4) (w := fb.width / 2 - 8) (h := fb.height - 8) sized
    (by omega) (by omega) background m
  obtain ⟨m₂, ran₂, filled₂⟩ := fillRect_spec (x := 0) (y := 0) (w := fb.width / 2) (h := 4) sized (by omega)
    (by omega) background m₁
  obtain ⟨m₃, ran₃, filled₃⟩ := fillRect_spec (x := 0) (y := fb.height - 4) (w := fb.width / 2) (h := 4) sized
    (by omega) (by omega) background m₂
  obtain ⟨m₄, ran₄, filled₄⟩ := fillRect_spec (x := 0) (y := 4) (w := 4) (h := fb.height - 8) sized (by omega)
    (by omega) background m₃
  obtain ⟨m₅, ran₅, filled₅⟩ := fillRect_spec (x := fb.width / 2 - 4) (y := 4) (w := 4) (h := fb.height - 8) sized
    (by omega) (by omega) background m₄
  refine ⟨m₅, ?_, ?_⟩
  · unfold drawBackground
    simp only [fields, actualWidth, actualHeight, right, bottom, drawing_fillRect, area_actualX, area_actualY, area_bg]
    rw [ran₁, drawing_fillRect, ran₂, drawing_fillRect, ran₃, drawing_fillRect, ran₄, drawing_fillRect, ran₅]
  rintro x y i j ⟨column, line, row, dot⟩
  have right := column_le sized column
  have bottom := line_le sized line
  rw [widthChars_eq sized] at column
  rw [heightChars_eq sized] at line
  unfold cell
  rw [filled₅ _ _ (by omega) (by omega), filled₄ _ _ (by omega) (by omega), filled₃ _ _ (by omega) (by omega),
    filled₂ _ _ (by omega) (by omega), filled₁ _ _ (by omega) (by omega)]
  have first : 4 ≤ 4 + 8 * x + j ∧ 4 + 8 * x + j < 4 + (fb.width / 2 - 8) ∧ 4 ≤ 4 + 16 * y + i ∧
      4 + 16 * y + i < 4 + (fb.height - 8) := by omega
  rw [if_pos first]
  simp only [ite_self]
  rfl

theorem create_ready (sized : fb.Sized) (regular : font.Regular) (m : Mem) :
    (create (fb.drawing font) fb.width fb.height (some m)).Ready fb (.blank fb.area.widthChars fb.area.heightChars) ∧
      (create (fb.drawing font) fb.width fb.height (some m)).Shown fb font := by
  have wide := sized.wide
  have tall := sized.tall
  have columns : 1 ≤ fb.area.widthChars := by
    rw [widthChars_eq sized]
    omega
  have rows : 1 ≤ fb.area.heightChars := by
    rw [heightChars_eq sized]
    omega
  obtain ⟨m', painted, cells⟩ := drawBackground_spec font sized m
  have made : create (fb.drawing font) fb.width fb.height (some m) =
      (empty fb.area (some m')).redrawCursor (fb.drawing font) := by
    rw [← painted]
    rfl
  have blank : (create (fb.drawing font) fb.width fb.height (some m)).Represents
      (.blank fb.area.widthChars fb.area.heightChars) := (create_blank _ _ _ _).represents columns rows
  have kept : Kept fb font (empty fb.area (some m')) m' := by
    refine ⟨rfl, fun {x y i j} inside _ => ?_⟩
    have number : y * fb.area.widthChars + x < fb.area.widthChars * fb.area.heightChars := by
      rw [Nat.mul_comm fb.area.widthChars]
      exact cell_lt inside.column inside.line
    have char : charAt (empty fb.area (some m')) x y = space := by
      unfold charAt getCharAt empty
      rw [List.getElem?_replicate, if_pos number, Option.getD_some]
    rw [cells inside, char, regular.ink_space inside.row]
  rw [made] at blank ⊢
  refine ⟨⟨rfl, blank, rfl, rfl, fun _ => rfl⟩, ?_⟩
  have still : Erased fb font (empty fb.area (some m')) m' := Or.inl ⟨rfl, rfl⟩
  exact (shown_redrawCursor (t := empty fb.area (some m')) sized rfl columns rows columns rows kept).mpr still

theorem Ready.undamaged_iff (sized : fb.Sized) (regular : font.Regular) (ready : t.Ready fb p) (shown : t.Shown fb font)
    (cs : List UInt8) :
    (∀ before, before <+: cs → ∃ t', t.write (fb.drawing font) before = some t' ∧ t'.Displayed fb font) ↔
      t.Undamaged (fb.drawing font) font cs := by
  induction cs generalizing t p with
  | nil =>
    refine iff_of_true (fun before nothing => ?_) trivial
    rw [List.prefix_nil.mp nothing]
    exact ⟨t, rfl, (displayed_iff sized regular ready).mpr shown⟩
  | cons c cs ih =>
    obtain ⟨t₁, ran, _⟩ := ready.page.write (fb.drawing font) c
    obtain ⟨ready₁, spared⟩ := ready.write sized regular shown ran
    have rest (before : List UInt8) : t.write (fb.drawing font) (c :: before) = t₁.write (fb.drawing font) before := by
      rw [Terminal.write, List.foldlM_cons, ran]
      rfl
    constructor
    · intro displayed
      have shown₁ : t₁.Shown fb font := by
        obtain ⟨t', written, now⟩ := displayed [c] ⟨cs, rfl⟩
        rw [rest] at written
        obtain rfl : t₁ = t' := Option.some.inj written
        exact (displayed_iff sized regular ready₁).mp now
      refine ⟨spared.mp shown₁, fun t' ran' => ?_⟩
      obtain rfl : t' = t₁ := Option.some.inj (ran'.symm.trans ran)
      refine (ih ready₁ shown₁).mp fun before inside => ?_
      rw [← rest]
      exact displayed (c :: before) (List.prefix_cons_inj c |>.mpr inside)
    · rintro ⟨safe, undamaged⟩ before inside
      cases before with
      | nil => exact ⟨t, rfl, (displayed_iff sized regular ready).mpr shown⟩
      | cons c' before =>
        obtain ⟨rfl, inside'⟩ := List.cons_prefix_cons.mp inside
        rw [rest]
        exact (ih ready₁ (spared.mpr safe)).mpr (undamaged t₁ ran) before inside'

/-- The screen is right after every character if and only if every character is spared. -/
theorem incremental_drawing_iff (sized : fb.Sized) (regular : font.Regular) (m : Mem) (cs : List UInt8) :
    (∀ before, before <+: cs → ∃ t, (create (fb.drawing font) fb.width fb.height (some m)).write (fb.drawing font) before =
      some t ∧ t.Displayed fb font) ↔
      (create (fb.drawing font) fb.width fb.height (some m)).Undamaged (fb.drawing font) font cs :=
  have ⟨ready, shown⟩ := create_ready sized regular m
  ready.undamaged_iff sized regular shown cs

end Damage

/-- A screen of 64 by 48 pixels. -/
def smallScreen : Framebuffer := { addr := 0x1000, width := 64, height := 48, pitch := 256, pixelWidth := 4 }

/-- The header of `font.psfu` and its glyph of `A`; the others are left blank. -/
def fontOfA : Psf where
  headerSize := 32
  numGlyph := 256
  bytesPerGlyph := 16
  height := 16
  width := 8
  start a := [0, 0, 60, 66, 66, 66, 66, 126, 66, 66, 66, 66].getD (a - (32 + 65 * 16)) 0

theorem smallScreen_sized : smallScreen.Sized := by constructor <;> decide

theorem fontOfA_regular : fontOfA.Regular := by constructor <;> decide

def smallTerminal : Terminal (Option Mem) :=
  create (smallScreen.drawing fontOfA) smallScreen.width smallScreen.height (some fun _ => 0)

theorem smallTerminal_ready : smallTerminal.Ready smallScreen (.blank smallScreen.area.widthChars smallScreen.area.heightChars) :=
  (create_ready smallScreen_sized fontOfA_regular fun _ => 0).1

theorem smallTerminal_spared : smallTerminal.Spared fontOfA 'A'.toUInt8 := by
  unfold Spared
  rw [if_neg (by decide), if_neg (by decide), smallTerminal_ready.page.charAt_cursor]
  exact Or.inr (Or.inl (by decide))

theorem incremental_drawing_iff_letter :
    ∃ t, smallTerminal.write (smallScreen.drawing fontOfA) ['A'.toUInt8] = some t ∧ t.Displayed smallScreen fontOfA :=
  (incremental_drawing_iff smallScreen_sized fontOfA_regular (fun _ => 0) ['A'.toUInt8]).mpr
    ⟨smallTerminal_spared, fun _ _ => trivial⟩ _ (List.prefix_refl _)

/-- A carriage return puts the bar on the `A`, and the newline takes a column of its pixels. -/
theorem crlf_damages_letter :
    smallScreen.Sized ∧ fontOfA.Regular ∧ ∃ t, smallTerminal.write (smallScreen.drawing fontOfA) (['A', '\r', '\n'].map Char.toUInt8) = some t ∧
      ¬t.Displayed smallScreen fontOfA := by
  have ready := smallTerminal_ready
  have shown : smallTerminal.Shown smallScreen fontOfA := (create_ready smallScreen_sized fontOfA_regular fun _ => 0).2
  obtain ⟨t₁, letter, _⟩ := ready.page.write (smallScreen.drawing fontOfA) 'A'.toUInt8
  obtain ⟨ready₁, shown₁⟩ := ready.write smallScreen_sized fontOfA_regular shown letter
  obtain ⟨t₂, home, _⟩ := ready₁.page.write (smallScreen.drawing fontOfA) '\r'.toUInt8
  obtain ⟨ready₂, shown₂⟩ := ready₁.write smallScreen_sized fontOfA_regular (shown₁.mpr smallTerminal_spared) home
  have spared : t₁.Spared fontOfA '\r'.toUInt8 := by
    unfold Spared
    rw [if_pos (Or.inr rfl), ready₁.page.charAt_cursor]
    exact Or.inr (by decide)
  obtain ⟨t₃, line, _⟩ := ready₂.page.write (smallScreen.drawing fontOfA) '\n'.toUInt8
  obtain ⟨ready₃, shown₃⟩ := ready₂.write smallScreen_sized fontOfA_regular (shown₂.mpr spared) line
  have damaged : ¬t₂.Spared fontOfA '\n'.toUInt8 := by
    unfold Spared
    rw [if_neg (by decide), if_pos rfl, ready₂.page.charAt_cursor, ready₂.page.y, ready₂.page.height]
    decide
  refine ⟨smallScreen_sized, fontOfA_regular, t₃, ?_, fun displayed =>
    damaged (shown₃.mp ((displayed_iff smallScreen_sized fontOfA_regular ready₃).mp displayed))⟩
  show ['A'.toUInt8, '\r'.toUInt8, '\n'.toUInt8].foldlM (writeChar (smallScreen.drawing fontOfA)) smallTerminal = some t₃
  simp only [List.foldlM_cons, letter, home, line, Option.bind_eq_bind, Option.bind_some, List.foldlM_nil]
  rfl

end Terminal

end FishOS.Gfx
