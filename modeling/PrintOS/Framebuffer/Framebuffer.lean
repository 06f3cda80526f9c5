import PrintOS.Libc.Stdlib

/-!
# The framebuffer

Pixels are drawn in a second buffer in memory, row by row. A pixel has `b_per_px` bytes, and a row
`px_per_scan` pixels, of which the first `width` are seen. The address of a pixel is computed in 32
bits, up to the base.

A pixel is set by a store of 64 bits, whatever the size of a pixel. `draw` copies the second buffer
to the framebuffer itself.
-/

namespace PrintOS

open ByteMemory (Mem Byte)

/-- `class Framebuffer`. -/
structure Framebuffer where
  bSize : Nat
  width : Nat
  height : Nat
  pxPerScan : Nat
  bPerPx : Nat
  fbAddr : Nat
  doubleFbAddr : Nat
  deriving Repr, DecidableEq

/-- `struct Glyph`. The bitmap is a pointer to one byte for each row. -/
structure Glyph where
  bitmap : Nat
  xOff : Nat
  yOff : Nat
  height : Nat
  width : Nat
  fgColor : Nat
  bgColor : Nat
  deriving Repr, DecidableEq

/-- The colour of a pixel of a row. The mask has one of the low eight bits, so that the sign of the
`char` does not matter. -/
def Glyph.color (glyph : Glyph) (bits : Byte) (x : Nat) : Nat :=
  if bits.toNat &&& ((1 <<< 7) >>> x) > 0 then glyph.fgColor else glyph.bgColor

namespace Framebuffer

variable (fb : Framebuffer)

/-- `Framebuffer::get_pixel_addr`. The two offsets are `u32`s. -/
def getPixelAddr (x y : Nat) : Nat :=
  u64 (fb.doubleFbAddr + u32 (u32 (y * fb.pxPerScan) * fb.bPerPx) + u32 (x * fb.bPerPx))

/-- `Framebuffer::set_pixel`. -/
def setPixel (m : Mem) (x y color : Nat) : Mem := m.write64 (fb.getPixelAddr x y) color

/-- Pixels of one colour in a column, downwards from a row, for the rows that are left. It is the
inner loop of `set_all_pixels` and of `Console::clear_line`. -/
def setColumn (x color : Nat) : Nat → Nat → Mem → Mem
  | 0, _, m => m
  | left + 1, y, m => setColumn x color left (y + 1) (fb.setPixel m x y color)

/-- Such columns with their first row at `y`, for the columns that are left: the outer loop of both.
-/
def setColumns (y rows color : Nat) : Nat → Nat → Mem → Mem
  | 0, _, m => m
  | left + 1, x, m => setColumns y rows color left (x + 1) (fb.setColumn x color rows y m)

/-- `Framebuffer::set_all_pixels`. -/
def setAllPixels (m : Mem) (color : Nat) : Mem := fb.setColumns 0 fb.height color fb.width 0 m

/-- The inner loop of `print_glyph`, for the pixels of a row that are left. -/
def printRow (glyph : Glyph) (y : Nat) : Nat → Nat → Mem → Mem
  | 0, _, m => m
  | left + 1, x, m =>
    let color := glyph.color (m glyph.bitmap) x
    printRow glyph y left (x + 1) (fb.setPixel m (glyph.xOff + x) (glyph.yOff + y) color)

/-- The outer loop of `print_glyph`, for the rows that are left. -/
def printRows : Nat → Nat → Glyph → Mem → Mem × Glyph
  | 0, _, glyph, m => (m, glyph)
  | left + 1, y, glyph, m =>
    let m := fb.printRow glyph y glyph.width 0 m
    printRows left (y + 1) { glyph with bitmap := glyph.bitmap + 1 } m

/-- `Framebuffer::print_glyph`, with the glyph that is left: its bitmap is moved on. -/
def printGlyph (glyph : Glyph) (m : Mem) : Mem × Glyph := fb.printRows glyph.height 0 glyph m

/-- `Framebuffer::draw`. -/
def draw (m : Mem) : Mem := memcpy m fb.fbAddr fb.doubleFbAddr fb.bSize

end Framebuffer

end PrintOS
