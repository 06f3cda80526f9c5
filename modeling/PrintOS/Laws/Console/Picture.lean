import PrintOS.Laws.Console.Screen
import PrintOS.Laws.Console.Simulation
import PrintOS.Console.ConsoleFont

/-!
# The picture of a text

A glyph leaves four zero bytes right of each of its rows. They blacken the first pixel of a row of
the next cell or, after the last column of a text that is as wide as a scanline, the first pixel one
row of pixels further down. `Picture` is the screen with that: the character of each cell, and the
heights at which its first pixel is cut off. It is what the pixels on the display are the picture
of, whatever was printed (`Pixels`).

Where a text is printed that neither goes back nor leaves a gap, the next cell is still empty when
it is cut, and its own glyph comes after that. What stays is the left edge that a full line loses on
a display of 800 pixels with glyphs of 8 (`Lost`).
-/

namespace PrintOS

open ByteMemory (Mem Byte)

namespace Console

/-! ## The pixels of a cell -/

section

variable (fb : Framebuffer) (font : ConsoleFont)

/-- The bit of a glyph at a pixel of its cell. -/
def glyphBit (m : Mem) (chr : Byte) (x y : Nat) : Bool :=
  (m (font.glyphBuffer + chr.toNat * font.charsize m + y)).getLsbD (7 - x)

/-- The pixel that a full line loses: the first one of a row of its first cell, unless that is the
first row, where the text is as wide as a scanline. -/
def Lost (cells : Nat → Nat → Option Byte) (row col x y : Nat) : Prop :=
  ConsoleDefault.maxCol * font.glyphWidth = fb.pxPerScan ∧ col = 0 ∧ x = 0 ∧ 0 < y ∧
    (cells row (ConsoleDefault.maxCol - 1)).isSome

instance (cells : Nat → Nat → Option Byte) (row col x y : Nat) :
    Decidable (Lost fb font cells row col x y) :=
  inferInstanceAs (Decidable (_ ∧ _ ∧ _ ∧ _ ∧ _))

/-- The colour of a pixel of a cell. -/
def cellPixel (m : Mem) (cells : Nat → Nat → Option Byte) (row col x y : Nat) : Nat :=
  if Lost fb font cells row col x y then BLACK
  else match cells row col with
    | none => BLACK
    | some chr => if glyphBit font m chr x y then WHITE else BLACK

/-- The pixel right of a row of a glyph at the cursor is the first one of a cell, at a height. -/
def Cuts (cursor : ConsoleCursor) (row col y : Nat) : Prop :=
  (row = cursor.row ∧ col = cursor.col + 1) ∨
    (ConsoleDefault.maxCol * font.glyphWidth = fb.pxPerScan ∧
      cursor.col + 1 = ConsoleDefault.maxCol ∧ col = 0 ∧
      (row = cursor.row ∧ 0 < y ∨ row = cursor.row + 1 ∧ y = 0))

instance (cursor : ConsoleCursor) (row col y : Nat) : Decidable (Cuts fb font cursor row col y) :=
  inferInstanceAs (Decidable (_ ∨ _))

end

end Console

/-! ## The picture -/

/-- The character of each cell, and the heights at which its first pixel is cut off. -/
structure Picture where
  cells : Nat → Nat → Option Byte
  cut : Nat → Nat → Nat → Bool

namespace Picture

open Console (Cuts glyphBit)

def blank : Picture where
  cells _ _ := none
  cut _ _ _ := false

/-- What the console does to the picture. -/
def surface (fb : Framebuffer) (font : ConsoleFont) : Surface Picture where
  setAllPixels _ _ := blank
  printGlyph p cursor chr :=
    { cells := fun row col =>
        if row = cursor.row ∧ col = cursor.col then some chr else p.cells row col
      cut := fun row col y =>
        if row = cursor.row ∧ col = cursor.col then false
        else decide (Cuts fb font cursor row col y) || p.cut row col y }
  moveUp p :=
    { cells := fun row col => p.cells (row + 1) col
      cut := fun row col y => p.cut (row + 1) col y }
  blankLine p line :=
    { cells := fun row col => if row = line then none else p.cells row col
      cut := fun row col y => if row = line then false else p.cut row col y }
  draw p := p

/-- The colour of a pixel of a cell. -/
def pixel (p : Picture) (font : ConsoleFont) (m : Mem) (row col x y : Nat) : Nat :=
  if x = 0 ∧ p.cut row col y then BLACK
  else match p.cells row col with
    | none => BLACK
    | some chr => if glyphBit font m chr x y then WHITE else BLACK

/-- A console that was cleared. -/
def cleared : Console Picture where
  cursor := .reset
  screen := blank
  drawn := []

/-- The picture of some characters that are printed after a `clear`. -/
def ofChars (fb : Framebuffer) (font : ConsoleFont) (chars : List Byte) : Picture :=
  (Console.printChars (surface fb font) cleared chars).screen

variable {fb : Framebuffer} {font : ConsoleFont} {m : Mem} {p : Picture} {row col x y : Nat}

theorem pixel_of_none (h : p.cells row col = none) : p.pixel font m row col x y = BLACK := by
  rw [pixel, h]
  split_ifs <;> rfl

theorem scroll_cells (p : Picture) (row col : Nat) :
    ((Console.Surface.scroll (surface fb font) p).cells row col) =
      if row = ConsoleDefault.maxRow - 1 then none else p.cells (row + 1) col := rfl

theorem scroll_cut (p : Picture) (row col y : Nat) :
    ((Console.Surface.scroll (surface fb font) p).cut row col y) =
      if row = ConsoleDefault.maxRow - 1 then false else p.cut (row + 1) col y := rfl

end Picture

namespace Console

variable {fb : Framebuffer} {font : ConsoleFont} {m : Mem} {p : Picture} {chr : Byte}

/-- The picture has the characters that are in the cells. -/
def SameCells (p : Picture) (q : Cells) : Prop := p.cells = q.back

theorem sameCells_simulates : Simulates (Picture.surface fb font) Cells.surface SameCells where
  printGlyph := by
    intro p q cursor chr same _ _ _
    funext row col
    show (if _ then _ else p.cells row col) = if _ then _ else q.back row col
    rw [same]
  scroll := by
    intro p q same
    funext row col
    show (if _ then _ else p.cells (row + 1) col) = if _ then _ else q.back (row + 1) col
    rw [same]
  draw same := same

theorem cleared_sameCells (d : Console Cells) :
    Agree SameCells Picture.cleared (clear Cells.surface d) where
  cursor := rfl
  plain := ConsoleCursor.plain_reset
  area := clear_inArea Cells.surface d
  screen := rfl

/-! ## A text -/

/-- Of the cells that have a character, those of the first column of a full line are cut off, where
the text is as wide as a scanline. -/
def EdgesLost (fb : Framebuffer) (font : ConsoleFont) (p : Picture) : Prop :=
  ∀ row col y, (p.cells row col).isSome →
    (p.cut row col y = true ↔ Lost fb font p.cells row col 0 y)

theorem EdgesLost.pixel (edges : EdgesLost fb font p) (row col x y : Nat) :
    p.pixel font m row col x y = cellPixel fb font m p.cells row col x y := by
  cases hcell : p.cells row col with
  | none =>
    rw [Picture.pixel_of_none hcell, cellPixel, hcell]
    split_ifs <;> rfl
  | some chr =>
    have hcut := edges row col y (by rw [hcell]; rfl)
    have hlost : (x = 0 ∧ p.cut row col y = true) ↔ Lost fb font p.cells row col x y := by
      rw [hcut]
      exact ⟨fun ⟨hx, wide, hcol, _, hy, full⟩ => ⟨wide, hcol, hx, hy, full⟩,
        fun ⟨wide, hcol, hx, hy, full⟩ => ⟨hx, wide, hcol, rfl, hy, full⟩⟩
    simp only [Picture.pixel, cellPixel, hcell, hlost]

/-- The cells from the cursor on are empty. -/
def Fresh (cursor : ConsoleCursor) (cells : Nat → Nat → Option Byte) : Prop :=
  ∀ row col, row = cursor.row ∧ cursor.col ≤ col ∨ cursor.row < row → cells row col = none

/-- A glyph in the next empty cell. -/
theorem EdgesLost.printGlyph (edges : EdgesLost fb font p) {cursor : ConsoleCursor}
    (fresh : Fresh cursor p.cells) (hcol : cursor.col < ConsoleDefault.maxCol) (chr : Byte) :
    EdgesLost fb font ((Picture.surface fb font).printGlyph p cursor chr) := by
  have hmax : 1 < ConsoleDefault.maxCol := by decide
  intro row col y hsome
  have hcells : ∀ row col, ((Picture.surface fb font).printGlyph p cursor chr).cells row col =
      if row = cursor.row ∧ col = cursor.col then some chr else p.cells row col := fun _ _ => rfl
  have hcut : ((Picture.surface fb font).printGlyph p cursor chr).cut row col y =
      if row = cursor.row ∧ col = cursor.col then false
      else decide (Cuts fb font cursor row col y) || p.cut row col y := rfl
  rw [hcells] at hsome
  rw [hcut]
  by_cases hcell : row = cursor.row ∧ col = cursor.col
  · -- Its own cell. The line is not full, or this is not its first cell.
    obtain ⟨rfl, rfl⟩ := hcell
    rw [if_pos ⟨rfl, rfl⟩]
    refine iff_of_false Bool.false_ne_true ?_
    rintro ⟨-, hfirst, -, -, hfull⟩
    rw [hcells, if_neg (by omega), fresh _ _ (.inl ⟨rfl, by omega⟩)] at hfull
    exact absurd hfull Bool.false_ne_true
  · rw [if_neg hcell] at hsome ⊢
    have hbefore : row = cursor.row ∧ col < cursor.col ∨ row < cursor.row := by
      by_contra hafter
      rw [fresh row col (by omega)] at hsome
      exact absurd hsome Bool.false_ne_true
    rw [Bool.or_eq_true, decide_eq_true_iff, edges row col y hsome, Lost, Lost, Cuts, hcells]
    by_cases hlast : row = cursor.row ∧ ConsoleDefault.maxCol - 1 = cursor.col
    · rw [if_pos hlast]
      refine ⟨?_, fun ⟨wide, h0, _, hy, _⟩ => .inl (.inr ⟨wide, by omega, h0, .inl ⟨hlast.1, hy⟩⟩)⟩
      rintro ((hnext | ⟨wide, -, h0, ⟨-, hy⟩ | ⟨hrow, -⟩⟩) | ⟨wide, h0, -, hy, -⟩)
      · omega
      · exact ⟨wide, h0, rfl, hy, rfl⟩
      · omega
      · exact ⟨wide, h0, rfl, hy, rfl⟩
    · rw [if_neg hlast]
      refine ⟨?_, .inr⟩
      rintro ((hnext | ⟨-, hend, -, ⟨hrow, -⟩ | ⟨hrow, -⟩⟩) | lost)
      · omega
      · exact absurd ⟨hrow, by omega⟩ hlast
      · omega
      · exact lost

theorem EdgesLost.scroll (edges : EdgesLost fb font p) :
    EdgesLost fb font (Surface.scroll (Picture.surface fb font) p) := by
  intro row col y hsome
  rw [Picture.scroll_cells] at hsome
  rw [Picture.scroll_cut, Lost, Picture.scroll_cells]
  split_ifs at hsome ⊢ with h
  · exact absurd hsome Bool.false_ne_true
  · exact edges (row + 1) col y hsome

/-- What comes after the last character is empty. -/
theorem Shows.fresh {d : Console Cells} {done : List (List Byte)} {cur : List Byte} {k : Nat}
    (shows : Shows d done cur k) : Fresh d.cursor d.screen.back := by
  intro row col h
  have hrow := shows.row
  have hle := shows.hidden_le
  rw [shows.back]
  rcases h with ⟨rfl, hcol⟩ | h
  · have hlast : k + d.cursor.row = done.length := by omega
    rw [shows.col] at hcol
    rw [hlast, cell, List.getElem?_concat_length]
    exact List.getElem?_eq_none hcol
  · apply cell_of_ge
    rw [List.length_append]
    show done.length + 1 ≤ k + row
    omega

variable {c : Console Picture} {d : Console Cells}

theorem EdgesLost.scrollIfFull (edges : EdgesLost fb font c.screen) (sized : c.cursor.Sized) :
    EdgesLost fb font (scrollIfFull (Picture.surface fb font) c).screen := by
  by_cases full : c.cursor.maxRow = c.cursor.row
  · rw [Console.scrollIfFull, if_pos full, scrollDown_screen _ sized]
    exact edges.scroll
  · rw [Console.scrollIfFull, if_neg full]
    exact edges

/-- A character of the text more. -/
theorem EdgesLost.printChar (edges : EdgesLost fb font c.screen) (agree : Agree SameCells c d)
    {s : List Byte} (shows : ShowsText d s) (text : Text chr) :
    EdgesLost fb font (printChar (Picture.surface fb font) c chr).screen := by
  obtain ⟨done, cur, -, shows⟩ := shows
  have ready := shows.scrollIfFull
  have scrolled := agree.scrollIfFull (@sameCells_simulates fb font)
  have edges := edges.scrollIfFull (agree.cursor ▸ agree.plain.sized)
  have hcells : (Console.scrollIfFull (Picture.surface fb font) c).screen.cells =
      (Console.scrollIfFull Cells.surface d).screen.back := scrolled.screen
  by_cases hprint : Printable chr
  · rw [Console.printChar, if_pos hprint]
    refine edges.printGlyph ?_ ?_ chr
    · rw [scrolled.cursor, hcells]
      exact ready.fresh
    · rw [scrolled.cursor, ready.col]
      exact ready.short
  · have hnew : chr = NEW_LINE := text.resolve_left hprint
    rw [Console.printChar, if_neg hprint, if_pos hnew]
    exact edges

theorem Text.ne_backspace (text : Text chr) : chr ≠ BACKSPACE := by
  rintro rfl
  revert text
  decide

theorem stays_of_text {δ : Type} {s : Surface δ} {c : Console δ} {chars : List Byte}
    (text : ∀ chr ∈ chars, Text chr) : Stays s c chars :=
  stays_of_not_mem fun mem => (text _ mem).ne_backspace rfl

theorem EdgesLost.printChars (edges : EdgesLost fb font c.screen) (agree : Agree SameCells c d)
    {s : List Byte} (shows : ShowsText d s) {chars : List Byte} (text : ∀ chr ∈ chars, Text chr) :
    EdgesLost fb font (printChars (Picture.surface fb font) c chars).screen := by
  induction chars generalizing c d s with
  | nil => exact edges
  | cons chr chars ih =>
    have htext := text chr List.mem_cons_self
    have htail : ∀ chr ∈ chars, Text chr := fun chr mem => text chr (List.mem_cons_of_mem _ mem)
    have stays : ¬ Escapes d chr := fun escapes => htext.ne_backspace escapes.1
    exact ih (edges.printChar agree shows htext) (agree.printChar sameCells_simulates stays)
      (shows.printChar htext) htail

/-- The picture of a text is that of its last lines. -/
theorem ofChars_pixel {s : List Byte} (text : ∀ chr ∈ s, Text chr) (row col x y : Nat) :
    (Picture.ofChars fb font s).pixel font m row col x y =
      cellPixel fb font m (cell ((shownLines s).drop (offTop s))) row col x y := by
  have agree := cleared_sameCells unused
  have shows : ShowsText (clear Cells.surface unused) [] := clear_showsText unused
  have start : EdgesLost fb font Picture.cleared.screen := by
    intro row col y hsome
    cases hsome
  have edges : EdgesLost fb font (Picture.ofChars fb font s) := start.printChars agree shows text
  have same : (Picture.ofChars fb font s).cells =
      (printChars Cells.surface (clear Cells.surface unused) s).screen.back :=
    (agree.printChars (@sameCells_simulates fb font) (stays_of_text text)).screen
  have hcells : (printChars Cells.surface (clear Cells.surface unused) s).screen.back =
      cell ((shownLines s).drop (offTop s)) :=
    funext fun row => funext fun col => (shows.printChars text).eq.1 row col
  rw [edges.pixel, same, hcells]

end Console

end PrintOS
