import PrintOS.Console.ConsoleFont
import PrintOS.Laws.Console.Console
import PrintOS.Laws.Framebuffer.Fill

/-!
# The scroll, pixel by pixel

`_scroll_down` copies the second buffer onto itself, upwards by the rows of a line, and then makes
the last line black. The copy goes to lower addresses and begins with the first byte, so that each
byte is read before it is written over. The stores of the clear are too wide for a pixel, but they
are of zeros, and they are all from the last line on: the lines above keep what was copied.
-/

namespace PrintOS.Console

open ByteMemory (Mem Byte)

variable {fb : Framebuffer} {font : ConsoleFont} {m : Mem} {x y line : Nat}

/-- What a scroll should leave in the second buffer, in the framebuffer and at the cursor. -/
structure Scrolled (fb : Framebuffer) (font : ConsoleFont) (c c' : Console Mem) : Prop where
  moved : ∀ x < fb.pxPerScan, ∀ y < (c.cursor.maxRow - 1) * font.glyphHeight,
    c'.screen.readLE (fb.pixelAt x y) 4 = c.screen.readLE (fb.pixelAt x (y + font.glyphHeight)) 4
  blank : ∀ x < fb.width, ∀ y, (c.cursor.maxRow - 1) * font.glyphHeight ≤ y →
    y < c.cursor.maxRow * font.glyphHeight → c'.screen.readLE (fb.pixelAt x y) 4 = BLACK
  shown : ∀ i < fb.bSize, c'.screen (fb.fbAddr + i) = c'.screen (fb.doubleFbAddr + i)
  row : c'.cursor.row = sub16 c.cursor.row 1 ∧ (0 < c.cursor.row → c'.cursor.row + 1 = c.cursor.row)
  col : c'.cursor.col = c.cursor.col

/-! ## The copy -/

theorem pixelAt_add_rows (rows : Nat) :
    fb.pixelAt x (y + rows) = fb.pixelAt x y + 4 * (rows * fb.pxPerScan) := by
  simp only [Framebuffer.pixelAt, Nat.add_mul]
  omega

/-- A byte that has the rows of a line below it gets the byte from there. -/
theorem moveUp_apply (placed : fb.Placed) {i : Nat}
    (hi : i + 4 * (font.glyphHeight * fb.pxPerScan) < fb.bSize) :
    moveUp fb font m (fb.doubleFbAddr + i) =
      m (fb.doubleFbAddr + 4 * (font.glyphHeight * fb.pxPerScan) + i) := by
  have hsize := placed.size_lt
  have hmemory := placed.memory
  have hpixel : fb.pixelAt 0 font.glyphHeight =
      fb.doubleFbAddr + 4 * (font.glyphHeight * fb.pxPerScan) := rfl
  have hstart : fb.getPixelAddr 0 font.glyphHeight =
      fb.doubleFbAddr + 4 * (font.glyphHeight * fb.pxPerScan) := by
    rw [← hpixel]
    exact Framebuffer.getPixelAddr_of_lt placed.bPerPx (by omega) (by decide) (by omega)
  have hlength : sub64 (fb.doubleFbAddr + 4 * (font.glyphHeight * fb.pxPerScan)) fb.doubleFbAddr =
      4 * (font.glyphHeight * fb.pxPerScan) := by
    rw [sub64_of_le (by omega) (by omega)]
    omega
  simp only [moveUp, hstart, hlength, memcpy]
  rw [sub64_of_le (by omega) (by omega), Mem.move_apply m (.inl (by omega)), if_pos (by omega),
    Nat.add_sub_cancel_left]

/-! ## The blank line -/

theorem blankLine_eq_store (placed : fb.Placed) (hline : (line + 1) * font.glyphHeight ≤ fb.height) :
    blankLine fb font m line =
      m.store BLACK (fb.rectAddrs (line * font.glyphHeight) font.glyphHeight 0 fb.width) := by
  rw [Nat.succ_mul] at hline
  exact placed.setColumns_eq_store (Nat.le_refl _) hline

/-- The rows above the line are left. -/
theorem blankLine_above (placed : fb.Placed) (hline : (line + 1) * font.glyphHeight ≤ fb.height)
    (hx : x < fb.pxPerScan) (hy : y < line * font.glyphHeight) {b : Nat}
    (hb : b < fb.pixelAt x y + 4) : blankLine fb font m line b = m b := by
  rw [blankLine_eq_store placed hline]
  refine Mem.store_of_outside fun a ha => .inl ?_
  obtain ⟨i, -, j, hj, -, rfl⟩ := Framebuffer.mem_rectAddrs.mp ha
  have hrow : fb.pixelAt x y + 4 * fb.pxPerScan + 4 * i ≤ fb.pixelAt i j + 4 * x :=
    Framebuffer.pixelAt_of_row_lt (by omega)
  omega

/-- Every byte of a pixel of the line is zero: each store is of zeros only. -/
theorem blankLine_black (placed : fb.Placed) (hline : (line + 1) * font.glyphHeight ≤ fb.height)
    (hx : x < fb.width) (hlo : line * font.glyphHeight ≤ y)
    (hhi : y < (line + 1) * font.glyphHeight) {b : Nat} (hb : fb.pixelAt x y ≤ b)
    (hb' : b < fb.pixelAt x y + 4) : blankLine fb font m line b = 0 := by
  rw [Nat.succ_mul] at hhi
  rw [blankLine_eq_store placed hline]
  apply Mem.store_eq_of_forall
  · intro a _ _ _
    have hzero : BLACK = 0 := rfl
    rw [hzero, Nat.zero_div]
    rfl
  · exact .inr ⟨_, Framebuffer.mem_rectAddrs.mpr ⟨x, by omega, y, hlo, hhi, rfl⟩, hb, by omega⟩

/-! ## The scroll -/

/-- The framebuffer itself is apart from the second buffer. -/
def Apart (fb : Framebuffer) : Prop :=
  fb.fbAddr + fb.bSize ≤ fb.doubleFbAddr ∨ fb.doubleFbAddr + fb.bSize ≤ fb.fbAddr

theorem draw_double (apart : Apart fb) {b : Nat} (hlo : fb.doubleFbAddr ≤ b)
    (hhi : b < fb.doubleFbAddr + fb.bSize) : fb.draw m b = m b := by
  unfold Apart at apart
  exact Mem.move_of_outside (by omega)

theorem draw_shown (apart : Apart fb) {i : Nat} (hi : i < fb.bSize) :
    fb.draw m (fb.fbAddr + i) = fb.draw m (fb.doubleFbAddr + i) := by
  have hsrc : fb.draw m (fb.doubleFbAddr + i) = m (fb.doubleFbAddr + i) :=
    draw_double apart (by omega) (by omega)
  unfold Apart at apart
  rw [hsrc, Framebuffer.draw, memcpy, Mem.move_apply m (by omega), if_pos (by omega),
    Nat.add_sub_cancel_left]

/-- **A scroll moves the text up by one line and leaves the last line black.** For every framebuffer
whose buffer has room for the lines, every content and every cursor. -/
theorem scrollDown_scrolled (fb : Framebuffer) (font : ConsoleFont) (c : Console Mem)
    (placed : fb.Placed) (apart : Apart fb)
    (lines : c.cursor.maxRow * font.glyphHeight ≤ fb.height) (hmax : c.cursor.maxRow < 2 ^ 16)
    (hrow : c.cursor.row < 2 ^ 16) :
    Scrolled fb font c (scrollDown (framebuffer fb font) c) := by
  have hstop := placed.stop_le
  have hwidth := placed.width_le
  have hscreen : (scrollDown (framebuffer fb font) c).screen =
      fb.draw (blankLine fb font (moveUp fb font c.screen) (sub16 c.cursor.maxRow 1)) := by
    rw [scrollDown_eq]
    rfl
  have hcursor := scrollDown_cursor (framebuffer fb font) c
  -- the line that is cleared is the last one, where there is one
  have hline : 0 < c.cursor.maxRow → sub16 c.cursor.maxRow 1 = c.cursor.maxRow - 1 ∧
      c.cursor.maxRow - 1 + 1 = c.cursor.maxRow :=
    fun hpos => ⟨sub16_of_le hpos hmax, Nat.sub_add_cancel hpos⟩
  constructor
  case moved =>
    intro x hx y hy
    have hpos : 0 < c.cursor.maxRow := by
      by_contra hzero
      rw [Nat.eq_zero_of_not_pos hzero, Nat.zero_sub, Nat.zero_mul] at hy
      exact absurd hy (Nat.not_lt_zero y)
    obtain ⟨hlast, hsucc⟩ := hline hpos
    rw [← hsucc] at lines
    have hbelow : y + font.glyphHeight < fb.height := by
      rw [Nat.succ_mul] at lines
      omega
    have hsource := Framebuffer.pixelAt_lt_stop hx hbelow
    rw [pixelAt_add_rows] at hsource ⊢
    have hpixel : fb.pixelAt x y = fb.doubleFbAddr + 4 * (y * fb.pxPerScan + x) := rfl
    rw [hscreen, hlast]
    apply Mem.readLE_eq_of_bytes
    intro i hi
    rw [draw_double apart (by omega) (by omega), blankLine_above placed lines hx hy (by omega), hpixel,
      Nat.add_assoc, moveUp_apply placed (by omega)]
    refine congrArg c.screen ?_
    omega
  case blank =>
    intro x hx y hlo hhi
    have hpos : 0 < c.cursor.maxRow := by
      by_contra hzero
      rw [Nat.eq_zero_of_not_pos hzero, Nat.zero_mul] at hhi
      exact absurd hhi (Nat.not_lt_zero y)
    obtain ⟨hlast, hsucc⟩ := hline hpos
    have hpixel := Framebuffer.pixelAt_lt_stop (Nat.lt_of_lt_of_le hx hwidth)
      (Nat.lt_of_lt_of_le hhi lines)
    have hoffset : fb.pixelAt x y = fb.doubleFbAddr + 4 * (y * fb.pxPerScan + x) := rfl
    rw [← hsucc] at lines hhi
    rw [hscreen, hlast]
    apply Mem.readLE_eq_zero
    intro b hb hb'
    rw [draw_double apart (by omega) (by omega), blankLine_black placed lines hx hlo hhi hb hb']
  case shown =>
    intro i hi
    rw [hscreen]
    exact draw_shown apart hi
  case row =>
    rw [hcursor]
    refine ⟨rfl, fun hpos => ?_⟩
    rw [ConsoleCursor.gotoxy_row, sub16_of_le hpos hrow]
    omega
  case col => rw [hcursor, ConsoleCursor.gotoxy_col]

/-- A console of two lines, one row of pixels each, on a framebuffer of two rows: the cursor is
below the last line. -/
def tinyConsole (m : Mem) : Console Mem where
  cursor := { ConsoleCursor.reset with row := 2, maxRow := 2 }
  screen := m
  drawn := []

def tinyFont : ConsoleFont where
  psfHeader := 0x100
  glyphHeight := 1
  glyphWidth := 8
  glyphBuffer := 0x200

theorem tiny_scrolled :
    Scrolled (Framebuffer.tinyFramebuffer 2) tinyFont (tinyConsole fun a => BitVec.ofNat 8 a)
      (scrollDown (framebuffer (Framebuffer.tinyFramebuffer 2) tinyFont)
        (tinyConsole fun a => BitVec.ofNat 8 a)) :=
  scrollDown_scrolled (Framebuffer.tinyFramebuffer 2) tinyFont (tinyConsole fun a => BitVec.ofNat 8 a)
    ⟨rfl, by decide, by decide, by decide, by decide⟩ (by unfold Apart; decide) (by decide) (by decide)
    (by decide)

end PrintOS.Console
