import PrintOS.Laws.Console.Picture
import PrintOS.Laws.Console.Scroll

/-!
# From the characters to the pixels

`Picture` says which character is in which cell and where its left edge is cut off, over a
framebuffer of cells. Here the console runs on the framebuffer in memory, and beside it on the
picture; `Pictured` says that the pixels of each cell are those of the picture. Whatever the console
does with the one framebuffer and with the other keeps that (`pictured_simulates`), so that every
sequence of characters does, as long as none is a backspace in the first cell.

Of a text that is printed after a `clear`, the display then has what `Screen` says of its last
lines.
-/

namespace PrintOS.Console

open ByteMemory (Mem Byte)

variable {fb : Framebuffer} {font : ConsoleFont} {m : Mem}

/-! ## The text on the display -/

/-- The text area is on the display. The bounds of 2^16 are those of the fields' types. -/
structure TextArea (fb : Framebuffer) (font : ConsoleFont) : Prop where
  placed : fb.Placed
  apart : Apart fb
  pxPerScan : fb.pxPerScan < 2 ^ 16
  height : fb.height < 2 ^ 16
  memory : fb.doubleFbAddr + fb.bSize + 4 ≤ 2 ^ 64
  glyphWidth : font.glyphWidth ≤ 8
  cols : ConsoleDefault.maxCol * font.glyphWidth ≤ fb.width
  rows : ConsoleDefault.maxRow * font.glyphHeight ≤ fb.height

/-- The bytes are in neither buffer, nor in the four after the second one. -/
def ApartFrom (fb : Framebuffer) (a n : Nat) : Prop :=
  (a + n ≤ fb.doubleFbAddr ∨ fb.doubleFbAddr + fb.bSize + 4 ≤ a) ∧
    (a + n ≤ fb.fbAddr ∨ fb.fbAddr + fb.bSize ≤ a)

/-- The font is in memory, and no drawing reaches it. -/
structure FontApart (fb : Framebuffer) (font : ConsoleFont) (m : Mem) : Prop where
  header : ApartFrom fb (font.psfHeader + 3) 1
  glyphs : ApartFrom fb font.glyphBuffer
    (ASCII_PRINTABLE_MAX * font.charsize m + font.glyphHeight)
  memory : font.glyphBuffer + (ASCII_PRINTABLE_MAX * font.charsize m + font.glyphHeight) < 2 ^ 64

/-! ## Pixels and cells -/

theorem mul_add_inj {a b i j w : Nat} (hi : i < w) (hj : j < w) (h : a * w + i = b * w + j) :
    a = b ∧ i = j := by
  rcases Nat.lt_trichotomy a b with hlt | rfl | hlt
  · have hrow : (a + 1) * w ≤ b * w := Nat.mul_le_mul_right w hlt
    rw [Nat.succ_mul] at hrow
    omega
  · exact ⟨rfl, by omega⟩
  · have hrow : (b + 1) * w ≤ a * w := Nat.mul_le_mul_right w hlt
    rw [Nat.succ_mul] at hrow
    omega

theorem pixelAt_inj {x y x' y' : Nat} (hx : x < fb.pxPerScan) (hx' : x' < fb.pxPerScan)
    (h : fb.pixelAt x y = fb.pixelAt x' y') : x = x' ∧ y = y' := by
  simp only [Framebuffer.pixelAt] at h
  have hpixel := mul_add_inj hx hx' (show y * fb.pxPerScan + x = y' * fb.pxPerScan + x' by omega)
  exact ⟨hpixel.2, hpixel.1⟩

/-- The last pixel of a scanline and one more is the first of the next. -/
theorem pixelAt_scan (y : Nat) : fb.pixelAt fb.pxPerScan y = fb.pixelAt 0 (y + 1) := by
  simp only [Framebuffer.pixelAt, Nat.succ_mul]
  omega

/-- A pixel of a cell is in the row of cells. -/
theorem cell_lt {a n w i : Nat} (ha : a < n) (hi : i < w) : a * w + i < n * w := by
  have hle : (a + 1) * w ≤ n * w := Nat.mul_le_mul_right w ha
  rw [Nat.succ_mul] at hle
  omega

/-- What a glyph that is narrower than a scanline does to a pixel: it is a pixel of the glyph, or it
is right of a row of the glyph and becomes black, or it stays. -/
theorem printed_pixel_cases {glyph : Glyph} {bitmap x y : Nat} {m' : Mem}
    (rows : Framebuffer.RowsDrawn fb glyph glyph.height 0 bitmap m m') (pos : 0 < glyph.width)
    (narrow : glyph.width < fb.pxPerScan) (right : glyph.xOff + glyph.width ≤ fb.pxPerScan)
    (hx : x < fb.pxPerScan) :
    (∃ i < glyph.width, ∃ j < glyph.height, x = glyph.xOff + i ∧ y = glyph.yOff + j) ∨
      (∃ j < glyph.height,
        fb.pixelAt x y = fb.pixelAt (glyph.xOff + glyph.width) (glyph.yOff + j) ∧
          m'.readLE (fb.pixelAt x y) 4 = 0) ∨
      (∀ j < glyph.height,
        fb.pixelAt x y ≠ fb.pixelAt (glyph.xOff + glyph.width) (glyph.yOff + j)) ∧
          m'.readLE (fb.pixelAt x y) 4 = m.readLE (fb.pixelAt x y) 4 := by
  by_cases hright : ∃ j < glyph.height,
      fb.pixelAt x y = fb.pixelAt (glyph.xOff + glyph.width) (glyph.yOff + j)
  · obtain ⟨j, hj, hpixel⟩ := hright
    refine .inr (.inl ⟨j, hj, hpixel, Mem.readLE_eq_zero fun b hb hb' => ?_⟩)
    have hzero := rows.after pos j hj (fun _ => narrow) (b - fb.pixelAt x y) (by omega)
    rw [Nat.zero_add, ← Framebuffer.pixelAt_row, ← hpixel, Nat.add_sub_cancel' hb] at hzero
    exact hzero
  push Not at hright
  by_cases hstay : ∀ j < glyph.height, fb.pixelAt x y + 4 ≤ fb.rowAt glyph j ∨
      fb.rowAt glyph j + 4 * glyph.width + 4 ≤ fb.pixelAt x y
  · refine .inr (.inr ⟨hright, Mem.readLE_congr fun b hb hb' => rows.outside b fun j hj => ?_⟩)
    have hrow := hstay j hj
    rw [Nat.zero_add]
    omega
  · -- neither beside the row nor right of it: it is one of its pixels
    push Not at hstay
    obtain ⟨j, hj, hlo, hhi⟩ := hstay
    have hne := hright j hj
    simp only [Framebuffer.rowAt, Framebuffer.pixelAt] at hlo hhi hne
    obtain ⟨i, hi, hindex⟩ : ∃ i < glyph.width,
        y * fb.pxPerScan + x = (glyph.yOff + j) * fb.pxPerScan + (glyph.xOff + i) :=
      ⟨y * fb.pxPerScan + x - ((glyph.yOff + j) * fb.pxPerScan + glyph.xOff), by omega, by omega⟩
    have hpixel := mul_add_inj hx (show glyph.xOff + i < fb.pxPerScan by omega) hindex
    exact .inl ⟨i, hi, j, hj, hpixel.2, hpixel.1⟩

/-! ## A glyph in its cell -/

section Glyph

variable {cursor : ConsoleCursor} {chr : Byte}

theorem TextArea.glyph_xOff (area : TextArea fb font) (hcol : cursor.col < ConsoleDefault.maxCol) :
    (font.glyph m cursor chr).xOff = cursor.col * font.glyphWidth := by
  have hwidth := area.placed.width_le
  have hcols := area.cols
  have hscan := area.pxPerScan
  have hle : cursor.col * font.glyphWidth ≤ ConsoleDefault.maxCol * font.glyphWidth :=
    Nat.mul_le_mul_right _ (Nat.le_of_lt hcol)
  exact u16_of_lt (by omega)

theorem TextArea.glyph_yOff (area : TextArea fb font) (hrow : cursor.row < ConsoleDefault.maxRow) :
    (font.glyph m cursor chr).yOff = cursor.row * font.glyphHeight := by
  have hrows := area.rows
  have hheight := area.height
  have hle : cursor.row * font.glyphHeight ≤ ConsoleDefault.maxRow * font.glyphHeight :=
    Nat.mul_le_mul_right _ (Nat.le_of_lt hrow)
  exact u16_of_lt (by omega)

/-- The glyphs of the characters that have one are in the font. -/
theorem glyph_le (hchr : Printable chr) :
    chr.toNat * font.charsize m ≤ ASCII_PRINTABLE_MAX * font.charsize m :=
  Nat.mul_le_mul_right _ hchr.2

theorem FontApart.glyph_bitmap (apart : FontApart fb font m) (hchr : Printable chr) :
    (font.glyph m cursor chr).bitmap = font.glyphBuffer + chr.toNat * font.charsize m := by
  have hmemory := apart.memory
  have hle : chr.toNat * font.charsize m ≤ ASCII_PRINTABLE_MAX * font.charsize m :=
      glyph_le hchr
  exact u64_of_lt (by omega)

/-- The glyph at a cursor in the text area is on the display. -/
theorem TextArea.glyph_inside (area : TextArea fb font) (apart : FontApart fb font m)
    (hcol : cursor.col < ConsoleDefault.maxCol) (hrow : cursor.row < ConsoleDefault.maxRow)
    (hchr : Printable chr) : Framebuffer.Inside fb (font.glyph m cursor chr) where
  bPerPx := area.placed.bPerPx
  pxPerScan := area.pxPerScan
  width_le := area.placed.width_le
  glyph_width := area.glyphWidth
  right := by
    have hle : (cursor.col + 1) * font.glyphWidth ≤ ConsoleDefault.maxCol * font.glyphWidth :=
      Nat.mul_le_mul_right _ hcol
    rw [Nat.succ_mul] at hle
    have hcols := area.cols
    rw [area.glyph_xOff hcol]
    show cursor.col * font.glyphWidth + font.glyphWidth ≤ fb.width
    omega
  bottom := by
    have hle : (cursor.row + 1) * font.glyphHeight ≤ ConsoleDefault.maxRow * font.glyphHeight :=
      Nat.mul_le_mul_right _ hrow
    rw [Nat.succ_mul] at hle
    have hrows := area.rows
    rw [area.glyph_yOff hrow]
    show cursor.row * font.glyphHeight + font.glyphHeight ≤ fb.height
    omega
  colors := ⟨Nat.mod_lt _ (by decide), Nat.mod_lt _ (by decide)⟩
  memory := by
    have hstop := area.placed.stop_le
    have hmemory := area.memory
    omega
  bitmap := by
    have hglyphs := apart.glyphs.1
    have hle : chr.toNat * font.charsize m ≤ ASCII_PRINTABLE_MAX * font.charsize m :=
      glyph_le hchr
    have hstop := area.placed.stop_le
    rw [apart.glyph_bitmap hchr]
    show font.glyphBuffer + chr.toNat * font.charsize m + font.glyphHeight ≤ fb.doubleFbAddr ∨
      fb.stop + 4 ≤ font.glyphBuffer + chr.toNat * font.charsize m
    omega

/-- No row of it is 2^32 bytes from the start of the buffer. -/
theorem TextArea.glyph_noWrap (area : TextArea fb font)
    (inside : Framebuffer.Inside fb (font.glyph m cursor chr)) :
    Framebuffer.NoWrap fb (font.glyph m cursor chr) := by
  intro hpos y hy
  have hbottom := inside.bottom
  have hright := inside.right
  have hwidth := area.placed.width_le
  have hpixel : fb.pixelAt 0 ((font.glyph m cursor chr).yOff + y) + 4 ≤ fb.stop :=
    Framebuffer.pixelAt_lt_stop (by omega) (by omega)
  have hstop := area.placed.stop_le
  have hsize := area.placed.size_lt
  simp only [Framebuffer.pixelAt] at hpixel
  omega

end Glyph

/-! ## The pixels of the cells -/

/-- The pixels of each cell are those of the picture. The font is the one that is in the memory
`m`, and what no drawing reaches is as in `m`. -/
structure Pictured (fb : Framebuffer) (font : ConsoleFont) (m m' : Mem) (p : Picture) : Prop where
  kept : ∀ b, ApartFrom fb b 1 → m' b = m b
  printable : ∀ row col chr, p.cells row col = some chr → Printable chr
  pixels : ∀ row < ConsoleDefault.maxRow, ∀ col < ConsoleDefault.maxCol,
    ∀ x < font.glyphWidth, ∀ y < font.glyphHeight,
      m'.readLE (fb.pixelAt (col * font.glyphWidth + x) (row * font.glyphHeight + y)) 4 =
        p.pixel font m row col x y

/-! ### What the drawing leaves alone -/

theorem store_kept (placed : fb.Placed) {color y rows n b : Nat} (hn : n ≤ fb.width)
    (hrows : y + rows ≤ fb.height) (apart : ApartFrom fb b 1) :
    m.store color (fb.rectAddrs y rows 0 n) b = m b := by
  have hwidth := placed.width_le
  have hstop := placed.stop_le
  obtain ⟨apart, -⟩ := apart
  refine Mem.store_of_outside fun a ha => ?_
  obtain ⟨i, ⟨-, hi⟩, j, -, hj, rfl⟩ := Framebuffer.mem_rectAddrs.mp ha
  have hpixel : fb.pixelAt i j + 4 ≤ fb.stop := Framebuffer.pixelAt_lt_stop (by omega) (by omega)
  have hoffset : fb.pixelAt i j = fb.doubleFbAddr + 4 * (j * fb.pxPerScan + i) := rfl
  omega

theorem draw_kept {b : Nat} (apart : ApartFrom fb b 1) : fb.draw m b = m b := by
  have hfront := apart.2
  exact Mem.move_of_outside (by omega)

/-- The rows of a line are in the buffer. -/
theorem TextArea.line_le (area : TextArea fb font) :
    4 * (font.glyphHeight * fb.pxPerScan) ≤ fb.bSize := by
  have hsize := area.placed.size_le
  have hrows : font.glyphHeight ≤ fb.height :=
    Nat.le_trans (Nat.le_mul_of_pos_left _ (by decide)) area.rows
  have hline : font.glyphHeight * fb.pxPerScan ≤ fb.height * fb.pxPerScan :=
    Nat.mul_le_mul_right _ hrows
  rw [Nat.mul_comm fb.pxPerScan] at hsize
  omega

theorem moveUp_kept (area : TextArea fb font) {b : Nat} (apart : ApartFrom fb b 1) :
    moveUp fb font m b = m b := by
  have hback := apart.1
  have hline := area.line_le
  have hsize := area.placed.size_lt
  have hmemory := area.memory
  have hpixel : fb.pixelAt 0 font.glyphHeight =
      fb.doubleFbAddr + 4 * (font.glyphHeight * fb.pxPerScan) := rfl
  have hstart : fb.getPixelAddr 0 font.glyphHeight =
      fb.doubleFbAddr + 4 * (font.glyphHeight * fb.pxPerScan) := by
    rw [← hpixel]
    exact Framebuffer.getPixelAddr_of_lt area.placed.bPerPx (by omega) (by decide) (by omega)
  simp only [moveUp, hstart, memcpy]
  rw [sub64_of_le (a := fb.doubleFbAddr + _) (by omega) (by omega),
    sub64_of_le (by omega) (by omega)]
  exact Mem.move_of_outside (by omega)

theorem blankLine_kept (area : TextArea fb font) {b : Nat} (apart : ApartFrom fb b 1) :
    blankLine fb font m (ConsoleDefault.maxRow - 1) b = m b := by
  have hrows : (ConsoleDefault.maxRow - 1 + 1) * font.glyphHeight ≤ fb.height := area.rows
  rw [blankLine_eq_store area.placed hrows]
  rw [Nat.succ_mul] at hrows
  exact store_kept area.placed (Nat.le_refl _) hrows apart

theorem printGlyph_kept {glyph : Glyph} {bitmap b : Nat} {m' : Mem} (placed : fb.Placed)
    (inside : Framebuffer.Inside fb glyph)
    (rows : Framebuffer.RowsDrawn fb glyph glyph.height 0 bitmap m m') (apart : ApartFrom fb b 1) :
    m' b = m b := by
  have hback := apart.1
  have hstop := placed.stop_le
  refine rows.outside b fun j hj => ?_
  have hrow := Framebuffer.row_le_stop inside hj
  rw [Nat.zero_add]
  omega

/-! ### What the console does -/

theorem setAllPixels_black (placed : fb.Placed) {x y b : Nat} (hx : x < fb.width)
    (hy : y < fb.height) (hb : fb.pixelAt x y ≤ b) (hb' : b < fb.pixelAt x y + 4) :
    fb.setAllPixels m BLACK b = 0 := by
  rw [Framebuffer.setAllPixels_eq_store placed]
  apply Mem.store_eq_of_forall
  · intro a _ _ _
    have hzero : BLACK = 0 := rfl
    rw [hzero, Nat.zero_div]
    rfl
  · exact .inr ⟨_, Framebuffer.mem_rectAddrs.mpr ⟨x, by omega, y, by omega, by omega, rfl⟩, hb,
      by omega⟩

/-- A pixel of a cell is a pixel of the display. -/
theorem TextArea.cell_lt (area : TextArea fb font) {row col x y : Nat}
    (hrow : row < ConsoleDefault.maxRow) (hcol : col < ConsoleDefault.maxCol)
    (hx : x < font.glyphWidth) (hy : y < font.glyphHeight) :
    col * font.glyphWidth + x < fb.width ∧ row * font.glyphHeight + y < fb.height :=
  ⟨Nat.lt_of_lt_of_le (Console.cell_lt hcol hx) area.cols,
    Nat.lt_of_lt_of_le (Console.cell_lt hrow hy) area.rows⟩

/-- Its bytes are in the second buffer. -/
theorem TextArea.pixelAt_mem (area : TextArea fb font) {x y b : Nat} (hx : x < fb.width)
    (hy : y < fb.height) (hb : fb.pixelAt x y ≤ b) (hb' : b < fb.pixelAt x y + 4) :
    fb.doubleFbAddr ≤ b ∧ b < fb.doubleFbAddr + fb.bSize := by
  have hpixel := Framebuffer.pixelAt_lt_stop (Nat.lt_of_lt_of_le hx area.placed.width_le) hy
  have hstop := area.placed.stop_le
  have hoffset : fb.pixelAt x y = fb.doubleFbAddr + 4 * (y * fb.pxPerScan + x) := rfl
  omega

/-- After a `clear` everything is black. -/
theorem clear_pictured (area : TextArea fb font) (c : Console Mem) :
    Agree (Pictured fb font c.screen) (clear (framebuffer fb font) c) Picture.cleared where
  cursor := rfl
  plain := ConsoleCursor.plain_reset
  area := clear_inArea (Picture.surface fb font) Picture.cleared
  screen := by
    constructor
    case kept =>
      intro b apart
      show fb.draw (fb.setAllPixels c.screen BLACK) b = c.screen b
      rw [draw_kept apart, Framebuffer.setAllPixels_eq_store area.placed]
      exact store_kept area.placed (Nat.le_refl _) (by omega) apart
    case printable =>
      intro row col chr hcell
      cases hcell
    case pixels =>
      intro row hrow col hcol x hx y hy
      obtain ⟨hx', hy'⟩ := area.cell_lt hrow hcol hx hy
      show (fb.draw (fb.setAllPixels c.screen BLACK)).readLE _ 4 = _
      rw [Picture.pixel_of_none rfl]
      refine Mem.readLE_eq_zero fun b hb hb' => ?_
      obtain ⟨hlo, hhi⟩ := area.pixelAt_mem hx' hy' hb hb'
      rw [draw_double area.apart hlo hhi, setAllPixels_black area.placed hx' hy' hb hb']

variable {m' : Mem} {p : Picture} {cursor : ConsoleCursor} {chr : Byte}

/-! ### The scroll -/

/-- The pixels of all lines but the last are those of the line below. -/
theorem scroll_moved (area : TextArea fb font) {x y : Nat} (hx : x < fb.pxPerScan)
    (hy : y < (ConsoleDefault.maxRow - 1) * font.glyphHeight) :
    (Surface.scroll (framebuffer fb font) m').readLE (fb.pixelAt x y) 4 =
      m'.readLE (fb.pixelAt x (y + font.glyphHeight)) 4 := by
  have hstop := area.placed.stop_le
  have lines : (ConsoleDefault.maxRow - 1 + 1) * font.glyphHeight ≤ fb.height := area.rows
  have hbelow : y + font.glyphHeight < fb.height := by
    rw [Nat.succ_mul] at lines
    omega
  have hsource := Framebuffer.pixelAt_lt_stop hx hbelow
  have hpixel : fb.pixelAt x y = fb.doubleFbAddr + 4 * (y * fb.pxPerScan + x) := rfl
  rw [pixelAt_add_rows] at hsource ⊢
  apply Mem.readLE_eq_of_bytes
  intro i hi
  show fb.draw (blankLine fb font (moveUp fb font m') (ConsoleDefault.maxRow - 1)) _ = _
  rw [draw_double area.apart (by omega) (by omega),
    blankLine_above area.placed lines hx hy (by omega), hpixel, Nat.add_assoc,
    moveUp_apply area.placed (by omega)]
  refine congrArg m' ?_
  omega

/-- The last line is black. -/
theorem scroll_blank (area : TextArea fb font) {x y : Nat} (hx : x < fb.width)
    (hlo : (ConsoleDefault.maxRow - 1) * font.glyphHeight ≤ y)
    (hhi : y < ConsoleDefault.maxRow * font.glyphHeight) :
    (Surface.scroll (framebuffer fb font) m').readLE (fb.pixelAt x y) 4 = BLACK := by
  have lines : (ConsoleDefault.maxRow - 1 + 1) * font.glyphHeight ≤ fb.height := area.rows
  refine Mem.readLE_eq_zero fun b hb hb' => ?_
  obtain ⟨hb₁, hb₂⟩ := area.pixelAt_mem hx (Nat.lt_of_lt_of_le hhi lines) hb hb'
  show fb.draw (blankLine fb font (moveUp fb font m') (ConsoleDefault.maxRow - 1)) b = 0
  rw [draw_double area.apart hb₁ hb₂, blankLine_black area.placed lines hx hlo hhi hb hb']

/-- The scroll moves the cells and their pixels. -/
theorem Pictured.scroll (pictured : Pictured fb font m m' p) (area : TextArea fb font) :
    Pictured fb font m (Surface.scroll (framebuffer fb font) m')
      (Surface.scroll (Picture.surface fb font) p) := by
  constructor
  case kept =>
    intro b apart
    show fb.draw (blankLine fb font (moveUp fb font m') _) b = m b
    rw [draw_kept apart, blankLine_kept area apart, moveUp_kept area apart, pictured.kept b apart]
  case printable =>
    intro row col chr hcell
    rw [Picture.scroll_cells] at hcell
    split_ifs at hcell
    exact pictured.printable _ _ _ hcell
  case pixels =>
    intro row hrow col hcol x hx y hy
    have hx' := (area.cell_lt hrow hcol hx hy).1
    by_cases h : row = ConsoleDefault.maxRow - 1
    · rw [Picture.pixel_of_none (by rw [Picture.scroll_cells, if_pos h])]
      refine scroll_blank area hx' ?_ (Console.cell_lt hrow hy)
      rw [h]
      exact Nat.le_add_right _ _
    · have hup : row + 1 < ConsoleDefault.maxRow := by omega
      rw [scroll_moved area (Nat.lt_of_lt_of_le hx' area.placed.width_le)
        (Console.cell_lt (by omega) hy), Nat.add_right_comm, ← Nat.succ_mul,
        pictured.pixels (row + 1) hup col hcol x hx y hy]
      simp only [Picture.pixel, Picture.scroll_cells, Picture.scroll_cut, if_neg h]

/-! ### A glyph -/

/-- The glyph that is drawn is that of the font in `m`. -/
theorem Pictured.glyph_eq (pictured : Pictured fb font m m' p) (apart : FontApart fb font m) :
    font.glyph m' cursor chr = font.glyph m cursor chr := by
  have hsize : font.charsize m' = font.charsize m := by
    rw [ConsoleFont.charsize, pictured.kept _ apart.header]
    rfl
  rw [ConsoleFont.glyph, hsize]
  rfl

/-- A row of the glyph is in the memory as it is in `m`. -/
theorem Pictured.bits_eq (pictured : Pictured fb font m m' p) (apart : FontApart fb font m)
    (hchr : Printable chr) {y : Nat} (hy : y < font.glyphHeight) :
    m' (font.glyphBuffer + chr.toNat * font.charsize m + y) =
      m (font.glyphBuffer + chr.toNat * font.charsize m + y) := by
  obtain ⟨back, front⟩ := apart.glyphs
  have hle : chr.toNat * font.charsize m ≤ ASCII_PRINTABLE_MAX * font.charsize m :=
      glyph_le hchr
  refine pictured.kept _ ⟨?_, ?_⟩ <;> omega

section Cuts

variable {row col x y : Nat}

/-- A pixel of a cell that is right of a row of the glyph is the first one of its row, at a height
where the cell is cut off. -/
theorem cuts_of_right (area : TextArea fb font) (hcol : cursor.col < ConsoleDefault.maxCol)
    (hcol' : col < ConsoleDefault.maxCol) (hx : x < font.glyphWidth) (hy : y < font.glyphHeight)
    {j : Nat} (hj : j < font.glyphHeight)
    (h : fb.pixelAt (col * font.glyphWidth + x) (row * font.glyphHeight + y) =
      fb.pixelAt (cursor.col * font.glyphWidth + font.glyphWidth)
        (cursor.row * font.glyphHeight + j)) :
    x = 0 ∧ Cuts fb font cursor row col y := by
  have hcols : ConsoleDefault.maxCol * font.glyphWidth ≤ fb.pxPerScan :=
    Nat.le_trans area.cols area.placed.width_le
  have hpixel : col * font.glyphWidth + x < fb.pxPerScan :=
    Nat.lt_of_lt_of_le (Console.cell_lt hcol' hx) hcols
  have hright : (cursor.col + 1) * font.glyphWidth ≤ ConsoleDefault.maxCol * font.glyphWidth :=
    Nat.mul_le_mul_right _ hcol
  rw [Nat.succ_mul] at hright
  rcases Nat.lt_or_eq_of_le (Nat.le_trans hright hcols) with hlt | heq
  · obtain ⟨hx', hy'⟩ := pixelAt_inj hpixel hlt h
    have hnext : col * font.glyphWidth + x = (cursor.col + 1) * font.glyphWidth + 0 := by
      rw [Nat.succ_mul, hx', Nat.add_zero]
    obtain ⟨rfl, rfl⟩ := mul_add_inj hx (Nat.zero_lt_of_lt hx) hnext
    exact ⟨rfl, .inl ⟨(mul_add_inj hy hj hy').1, rfl⟩⟩
  · -- the last column of a text that is as wide as a scanline
    have hlast : cursor.col + 1 = ConsoleDefault.maxCol := by
      by_contra hne
      have hmore : (cursor.col + 1 + 1) * font.glyphWidth ≤
          ConsoleDefault.maxCol * font.glyphWidth := Nat.mul_le_mul_right _ (by omega)
      rw [Nat.succ_mul, Nat.succ_mul] at hmore
      omega
    have wide : ConsoleDefault.maxCol * font.glyphWidth = fb.pxPerScan := by
      rw [← hlast, Nat.succ_mul, heq]
    rw [heq, pixelAt_scan] at h
    obtain ⟨hx', hy'⟩ := pixelAt_inj hpixel (by omega) h
    have hcol0 : col = 0 := by
      rcases Nat.mul_eq_zero.mp (Nat.eq_zero_of_add_eq_zero_right hx') with h | h
      · exact h
      · omega
    refine ⟨Nat.eq_zero_of_add_eq_zero_left hx', .inr ⟨wide, hlast, hcol0, ?_⟩⟩
    by_cases hrow : j + 1 < font.glyphHeight
    · obtain ⟨rfl, rfl⟩ := mul_add_inj hy hrow hy'
      exact .inl ⟨rfl, Nat.succ_pos j⟩
    · have hbelow : row * font.glyphHeight + y = (cursor.row + 1) * font.glyphHeight + 0 := by
        rw [Nat.succ_mul]
        omega
      exact .inr (mul_add_inj hy (Nat.zero_lt_of_lt hy) hbelow)

/-- The first pixel of a cell, at a height where it is cut off, is right of a row of the glyph. -/
theorem right_of_cuts (hy : y < font.glyphHeight) (cuts : Cuts fb font cursor row col y) :
    ∃ j < font.glyphHeight, fb.pixelAt (col * font.glyphWidth) (row * font.glyphHeight + y) =
      fb.pixelAt (cursor.col * font.glyphWidth + font.glyphWidth)
        (cursor.row * font.glyphHeight + j) := by
  rcases cuts with ⟨rfl, rfl⟩ | ⟨wide, hlast, rfl, hrow⟩
  · refine ⟨y, hy, ?_⟩
    rw [Nat.succ_mul]
  · have hright : cursor.col * font.glyphWidth + font.glyphWidth = fb.pxPerScan := by
      rw [← Nat.succ_mul, ← wide, ← hlast]
    rw [hright, Nat.zero_mul]
    rcases hrow with ⟨rfl, hpos⟩ | ⟨rfl, rfl⟩
    · refine ⟨y - 1, by omega, ?_⟩
      rw [pixelAt_scan, Nat.add_assoc, Nat.sub_add_cancel hpos]
    · refine ⟨font.glyphHeight - 1, by omega, ?_⟩
      rw [pixelAt_scan, Nat.add_assoc, Nat.sub_add_cancel (Nat.zero_lt_of_lt hy), Nat.succ_mul]
      rfl

end Cuts

/-- A glyph at the cursor. -/
theorem Pictured.printGlyph (pictured : Pictured fb font m m' p) (area : TextArea fb font)
    (apart : FontApart fb font m) (plain : cursor.Plain) (inCell : cursor.Inside)
    (hchr : Printable chr) :
    Pictured fb font m ((framebuffer fb font).printGlyph m' cursor chr)
      ((Picture.surface fb font).printGlyph p cursor chr) := by
  have hcol : cursor.col < ConsoleDefault.maxCol := plain.sized.1 ▸ inCell.1
  have hrow : cursor.row < ConsoleDefault.maxRow := plain.sized.2 ▸ inCell.2
  have inside : Framebuffer.Inside fb (font.glyph m cursor chr) :=
    area.glyph_inside apart hcol hrow hchr
  have noWrap := area.glyph_noWrap inside
  have hxOff : (font.glyph m cursor chr).xOff = cursor.col * font.glyphWidth :=
    area.glyph_xOff hcol
  have hyOff : (font.glyph m cursor chr).yOff = cursor.row * font.glyphHeight :=
    area.glyph_yOff hrow
  have hbitmap : (font.glyph m cursor chr).bitmap =
      font.glyphBuffer + chr.toNat * font.charsize m := apart.glyph_bitmap hchr
  have hscreen : (framebuffer fb font).printGlyph m' cursor chr =
      (fb.printGlyph (font.glyph m cursor chr) m').1 := by
    rw [← pictured.glyph_eq apart]
    rfl
  have rows : Framebuffer.RowsDrawn fb (font.glyph m cursor chr) font.glyphHeight 0
      (font.glyph m cursor chr).bitmap m' (fb.printGlyph (font.glyph m cursor chr) m').1 :=
    Framebuffer.printRows_drawn inside noWrap (Nat.le_of_eq (Nat.zero_add _)) inside.bitmap
  rw [hscreen]
  constructor
  case kept =>
    intro b hb
    rw [printGlyph_kept area.placed inside rows hb, pictured.kept b hb]
  case printable =>
    intro row col chr' hcell
    by_cases h : row = cursor.row ∧ col = cursor.col
    · obtain rfl : chr = chr' := Option.some.inj ((if_pos h).symm.trans hcell)
      exact hchr
    · exact pictured.printable _ _ _ ((if_neg h).symm.trans hcell)
  case pixels =>
    intro row hrow' col hcol' x hx y hy
    obtain ⟨hx', hy'⟩ := area.cell_lt hrow' hcol' hx hy
    by_cases hcell : row = cursor.row ∧ col = cursor.col
    · have hfresh : ((Picture.surface fb font).printGlyph p cursor chr).pixel font m row col x y =
          if glyphBit font m chr x y then WHITE else BLACK := by
        simp only [Picture.pixel, Picture.surface, if_pos hcell, Bool.false_eq_true, and_false,
          if_false]
      obtain ⟨rfl, rfl⟩ := hcell
      have hpixel := rows.pixels y hy x hx
      rw [Nat.zero_add, ← Framebuffer.pixelAt_row, hxOff, hyOff] at hpixel
      have hfg : (font.glyph m cursor chr).fgColor = WHITE := by
        rw [ConsoleFont.glyph, plain.fg]
        rfl
      have hbg : (font.glyph m cursor chr).bgColor = BLACK := by
        rw [ConsoleFont.glyph, plain.bg]
        rfl
      rw [hfresh, hpixel, hbitmap, pictured.bits_eq apart hchr hy,
        Framebuffer.color_eq _ (Nat.lt_of_lt_of_le hx area.glyphWidth), hfg, hbg]
      rfl
    have hwide : 2 * font.glyphWidth ≤ ConsoleDefault.maxCol * font.glyphWidth :=
      Nat.mul_le_mul_right _ (by decide)
    have hcols := area.cols
    have hscan := area.placed.width_le
    have hnarrow : font.glyphWidth < fb.pxPerScan := by omega
    have hnew : ((Picture.surface fb font).printGlyph p cursor chr).pixel font m row col x y =
        if x = 0 ∧ Cuts fb font cursor row col y then BLACK else p.pixel font m row col x y := by
      simp only [Picture.pixel, Picture.surface, if_neg hcell, Bool.or_eq_true, decide_eq_true_iff,
        and_or_left]
      by_cases h : x = 0 ∧ Cuts fb font cursor row col y
      · rw [if_pos (.inl h), if_pos h]
      · simp only [h, false_or, if_false]
    rw [hnew]
    rcases printed_pixel_cases rows (Nat.zero_lt_of_lt hx) hnarrow
        (Nat.le_trans inside.right inside.width_le) (Nat.lt_of_lt_of_le hx' hscan) with
      ⟨i, hi, j, hj, hX, hY⟩ | ⟨j, hj, hright, hzero⟩ | ⟨hright, hsame⟩
    · rw [hxOff] at hX
      rw [hyOff] at hY
      exact absurd ⟨(mul_add_inj hy hj hY).1, (mul_add_inj hx hi hX).1⟩ hcell
    · rw [hxOff, hyOff] at hright
      rw [hzero, if_pos (cuts_of_right area hcol hcol' hx hy hj hright)]
      rfl
    · rw [hxOff, hyOff] at hright
      have hnone : ¬ (x = 0 ∧ Cuts fb font cursor row col y) := by
        rintro ⟨rfl, cuts⟩
        obtain ⟨j, hj, h⟩ := right_of_cuts hy cuts
        exact hright j hj h
      rw [hsame, if_neg hnone, pictured.pixels row hrow' col hcol' x hx y hy]

/-- Drawing shows the pixels, and leaves them. -/
theorem Pictured.draw (pictured : Pictured fb font m m' p) (area : TextArea fb font) :
    Pictured fb font m (fb.draw m') p where
  kept := by
    intro b apart
    rw [draw_kept apart, pictured.kept b apart]
  printable := pictured.printable
  pixels := by
    intro row hrow col hcol x hx y hy
    obtain ⟨hx', hy'⟩ := area.cell_lt hrow hcol hx hy
    refine Eq.trans (Mem.readLE_congr fun b hb hb' => ?_)
      (pictured.pixels row hrow col hcol x hx y hy)
    obtain ⟨hlo, hhi⟩ := area.pixelAt_mem hx' hy' hb hb'
    exact draw_double area.apart hlo hhi

/-- **The framebuffer in memory does what the picture does.** -/
theorem pictured_simulates (area : TextArea fb font) (apart : FontApart fb font m) :
    Simulates (framebuffer fb font) (Picture.surface fb font) (Pictured fb font m) where
  printGlyph pictured plain inside hchr := pictured.printGlyph area apart plain inside hchr
  scroll pictured := pictured.scroll area
  draw pictured := pictured.draw area

/-! ## What others write -/

/-- The font is as it was: the size of a character, and the glyphs. -/
structure SameFont (font : ConsoleFont) (m m' : Mem) : Prop where
  header : m' (font.psfHeader + 3) = m (font.psfHeader + 3)
  glyphs : ∀ b, font.glyphBuffer ≤ b →
    b < font.glyphBuffer + (ASCII_PRINTABLE_MAX * font.charsize m + font.glyphHeight) → m' b = m b

theorem SameFont.charsize (same : SameFont font m m') : font.charsize m' = font.charsize m :=
  congrArg BitVec.toNat same.header

theorem SameFont.refl (font : ConsoleFont) (m : Mem) : SameFont font m m :=
  ⟨rfl, fun _ _ _ => rfl⟩

theorem SameFont.trans {m'' : Mem} (first : SameFont font m m') (second : SameFont font m' m'') :
    SameFont font m m'' where
  header := second.header.trans first.header
  glyphs b hb hb' := by
    rw [second.glyphs b hb (by rwa [first.charsize]), first.glyphs b hb hb']

theorem SameFont.apart (same : SameFont font m m') (apart : FontApart fb font m) :
    FontApart fb font m' where
  header := apart.header
  glyphs := by
    rw [same.charsize]
    exact apart.glyphs
  memory := by
    rw [same.charsize]
    exact apart.memory

/-- The bits of a glyph that there is. -/
theorem SameFont.pixel (same : SameFont font m m') (printable : ∀ row col chr,
    p.cells row col = some chr → Printable chr) {row col x y : Nat} (hy : y < font.glyphHeight) :
    p.pixel font m' row col x y = p.pixel font m row col x y := by
  cases hcell : p.cells row col with
  | none => rw [Picture.pixel_of_none hcell, Picture.pixel_of_none hcell]
  | some chr =>
    have hle : chr.toNat * font.charsize m ≤ ASCII_PRINTABLE_MAX * font.charsize m :=
      glyph_le (printable row col chr hcell)
    have hbit : glyphBit font m' chr x y = glyphBit font m chr x y := by
      rw [glyphBit, glyphBit, same.charsize, same.glyphs _ (by omega) (by omega)]
    simp only [Picture.pixel, hcell, hbit]

/-- What the console leaves alone is the font, too. -/
theorem Pictured.sameFont (pictured : Pictured fb font m m' p) (apart : FontApart fb font m) :
    SameFont font m m' where
  header := pictured.kept _ apart.header
  glyphs b hb hb' := by
    obtain ⟨back, front⟩ := apart.glyphs
    refine pictured.kept b ⟨?_, ?_⟩ <;> omega

/-- Stores to neither the second buffer nor the font leave the picture. -/
theorem Pictured.write {m'' : Mem} (pictured : Pictured fb font m m' p) (area : TextArea fb font)
    (apart : FontApart fb font m)
    (back : ∀ b, fb.doubleFbAddr ≤ b → b < fb.doubleFbAddr + fb.bSize → m'' b = m' b)
    (same : SameFont font m' m'') : Pictured fb font m'' m'' p where
  kept _ _ := rfl
  printable := pictured.printable
  pixels := by
    intro row hrow col hcol x hx y hy
    obtain ⟨hx', hy'⟩ := area.cell_lt hrow hcol hx hy
    rw [((pictured.sameFont apart).trans same).pixel pictured.printable hy,
      ← pictured.pixels row hrow col hcol x hx y hy]
    refine Mem.readLE_congr fun b hb hb' => ?_
    obtain ⟨hlo, hhi⟩ := area.pixelAt_mem hx' hy' hb hb'
    exact back b hlo hhi

/-! ## The display -/

/-- The framebuffer has what the second buffer has. -/
def Drawn (fb : Framebuffer) (m : Mem) : Prop :=
  ∀ i < fb.bSize, m (fb.fbAddr + i) = m (fb.doubleFbAddr + i)

theorem draw_drawn (area : TextArea fb font) (m : Mem) : Drawn fb (fb.draw m) :=
  fun _ hi => draw_shown area.apart hi

/-- The address of a pixel of the framebuffer itself. -/
def frontAt (fb : Framebuffer) (x y : Nat) : Nat := fb.fbAddr + 4 * (y * fb.pxPerScan + x)

/-- What was drawn is on the display. -/
theorem Pictured.front (pictured : Pictured fb font m m' p) (drawn : Drawn fb m')
    (area : TextArea fb font) {row col x y : Nat} (hrow : row < ConsoleDefault.maxRow)
    (hcol : col < ConsoleDefault.maxCol) (hx : x < font.glyphWidth) (hy : y < font.glyphHeight) :
    m'.readLE (frontAt fb (col * font.glyphWidth + x) (row * font.glyphHeight + y)) 4 =
      p.pixel font m row col x y := by
  obtain ⟨hx', hy'⟩ := area.cell_lt hrow hcol hx hy
  rw [← pictured.pixels row hrow col hcol x hx y hy]
  refine Mem.readLE_eq_of_bytes fun i hi => ?_
  have hend := (area.pixelAt_mem hx' hy' (Nat.le_add_right _ i) (Nat.add_lt_add_left hi _)).2
  simp only [Framebuffer.pixelAt, Nat.add_assoc] at hend
  simp only [frontAt, Framebuffer.pixelAt, Nat.add_assoc]
  exact drawn _ (Nat.lt_of_add_lt_add_left hend)

/-- A call of `print`. -/
theorem Agree.print {c : Console Mem} {d : Console Picture} {call : Call}
    (agree : Agree (Pictured fb font m) c d) (area : TextArea fb font)
    (apart : FontApart fb font m) (stays : Stays (Picture.surface fb font) d call.chars) :
    Agree (Pictured fb font m) (Console.print (framebuffer fb font) c call)
        (Console.printChars (Picture.surface fb font) d call.chars) ∧
      Drawn fb (print (framebuffer fb font) c call).screen :=
  ⟨(agree.printChars (pictured_simulates area apart) stays).draw (pictured_simulates area apart),
    draw_drawn area _⟩

theorem Agree.prints {c : Console Mem} {d : Console Picture} {calls : List Call}
    (agree : Agree (Pictured fb font m) c d) (drawn : Drawn fb c.screen) (area : TextArea fb font)
    (apart : FontApart fb font m) (text : ∀ chr ∈ calls.flatMap Call.text, Text chr) :
    Agree (Pictured fb font m) (prints (framebuffer fb font) c calls)
        (Console.printChars (Picture.surface fb font) d (calls.flatMap Call.text)) ∧
      Drawn fb (prints (framebuffer fb font) c calls).screen := by
  induction calls generalizing c d with
  | nil => exact ⟨agree, drawn⟩
  | cons call calls ih =>
    rw [List.flatMap_cons] at text ⊢
    have first : ∀ chr ∈ call.text, Text chr := fun chr mem => text chr (List.mem_append_left _ mem)
    have stays : Stays (Picture.surface fb font) d call.chars := by
      rw [Call.chars_eq_text first]
      exact stays_of_text first
    obtain ⟨agree', drawn'⟩ := agree.print area apart stays
    rw [Call.chars_eq_text first] at agree'
    rw [Console.printChars, List.foldl_append]
    exact ih agree' drawn' fun chr mem => text chr (List.mem_append_right _ mem)

/-- **What a text looks like.** After a `clear`, calls of `print` that print a text `s` between them
leave on the display the glyphs of its last lines, pixel by pixel: all of them, but for the left
edge that a full line loses where it is as wide as a scanline. -/
theorem text_on_display (fb : Framebuffer) (font : ConsoleFont) (c : Console Mem)
    (area : TextArea fb font) (apart : FontApart fb font c.screen) (s : List Byte)
    (text : ∀ chr ∈ s, Text chr) (calls : List Call) (parts : calls.flatMap Call.text = s) :
    ∀ row < ConsoleDefault.maxRow, ∀ col < ConsoleDefault.maxCol,
      ∀ x < font.glyphWidth, ∀ y < font.glyphHeight,
        (prints (framebuffer fb font) (clear (framebuffer fb font) c) calls).screen.readLE
            (frontAt fb (col * font.glyphWidth + x) (row * font.glyphHeight + y)) 4 =
          cellPixel fb font c.screen (cell ((shownLines s).drop (offTop s))) row col x y := by
  subst parts
  have cleared := clear_pictured area c
  obtain ⟨agree, drawn⟩ := cleared.prints (fun i hi => draw_shown area.apart hi) area apart text
  intro row hrow col hcol x hx y hy
  rw [agree.screen.front drawn area hrow hcol hx hy]
  exact ofChars_pixel text row col x y

/-- A display of 800 by 600, which is as wide as the text with glyphs of 8. -/
def display : Framebuffer where
  bSize := 800 * 600 * 4
  width := 800
  height := 600
  pxPerScan := 800
  bPerPx := 4
  fbAddr := 0x80000000
  doubleFbAddr := 0x1000000

def displayFont : ConsoleFont where
  psfHeader := 0x100
  glyphHeight := 16
  glyphWidth := 8
  glyphBuffer := 0x1000

/-- A font of full glyphs of 16 bytes, and nothing else in the memory. -/
def fullFont : Mem := fun a => if a = 0x103 then 16 else if 0x1000 ≤ a ∧ a < 0x2000 then 0xff else 0

theorem display_area : TextArea display displayFont where
  placed := ⟨rfl, by decide, by decide, by decide, by decide⟩
  apart := by
    unfold Apart
    decide
  pxPerScan := by decide
  height := by decide
  memory := by decide
  glyphWidth := by decide
  cols := by decide
  rows := by decide

theorem fullFont_apart : FontApart display displayFont fullFont where
  header := by
    unfold ApartFrom
    decide
  glyphs := by
    unfold ApartFrom
    decide
  memory := by decide

/-- A letter, with a newline after it: the first pixel of its second row is white. -/
theorem letter_on_display :
    (prints (framebuffer display displayFont) (clear (framebuffer display displayFont)
        ⟨.reset, fullFont, []⟩) [.str [0x41], .chr NEW_LINE]).screen.readLE
      (frontAt display (0 * 8 + 0) (0 * 16 + 1)) 4 = WHITE :=
  (text_on_display display displayFont ⟨.reset, fullFont, []⟩ display_area fullFont_apart
    [0x41, NEW_LINE] (by decide) [.str [0x41], .chr NEW_LINE] rfl 0 (by decide) 0 (by decide) 0
    (by decide) 1 (by decide)).trans (by decide)

end PrintOS.Console
