import PrintOS.Console.Console
import PrintOS.Framebuffer.Framebuffer

/-!
# The console on the framebuffer

What the console does to the framebuffer, in the bytes of the memory. A glyph is made from the
cursor and the font: its bitmap is found by the size of a character in the font's header, and it is
as high as the font says.
-/

namespace PrintOS

open ByteMemory (Mem Byte)

/-- `struct ConsoleFont`. The header and the glyphs are pointers. -/
structure ConsoleFont where
  psfHeader : Nat
  glyphHeight : Nat
  glyphWidth : Nat
  glyphBuffer : Nat
  deriving Repr, DecidableEq

namespace ConsoleFont

/-- `psf_header->charsize`, the last of the four bytes of the header. -/
def charsize (font : ConsoleFont) (m : Mem) : Nat := (m (font.psfHeader + 3)).toNat

/-- The glyph of `_print_char`. A character that has one is not negative. -/
def glyph (font : ConsoleFont) (m : Mem) (cursor : ConsoleCursor) (chr : Byte) : Glyph where
  bitmap := u64 (font.glyphBuffer + chr.toNat * font.charsize m)
  xOff := u16 (cursor.col * font.glyphWidth)
  yOff := u16 (cursor.row * font.glyphHeight)
  height := font.glyphHeight
  width := font.glyphWidth
  fgColor := u32 cursor.fg
  bgColor := u32 cursor.bg

end ConsoleFont

namespace Console

variable (fb : Framebuffer) (font : ConsoleFont)

/-- The copy of `_scroll_down`. -/
def moveUp (m : Mem) : Mem :=
  let start := fb.getPixelAddr 0 font.glyphHeight
  let size := sub64 start fb.doubleFbAddr
  memcpy m fb.doubleFbAddr start (sub64 fb.bSize size)

/-- The loops of `clear_line`. -/
def blankLine (m : Mem) (line : Nat) : Mem :=
  fb.setColumns (line * font.glyphHeight) font.glyphHeight BLACK fb.width 0 m

/-- The framebuffer, as the console uses it. -/
def framebuffer : Surface Mem where
  setAllPixels := fb.setAllPixels
  printGlyph := fun m cursor chr => (fb.printGlyph (font.glyph m cursor chr) m).1
  moveUp := moveUp fb font
  blankLine := blankLine fb font
  draw := fb.draw

end Console

end PrintOS
