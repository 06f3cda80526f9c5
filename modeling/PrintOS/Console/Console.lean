import PrintOS.Libc.Stdlib

/-!
# The text console

A cursor over a text area of `max_col` by `max_row` cells, and the characters that move it. A
printable character is drawn at the cursor and moves it on, to the next line after the last column.
The cursor may stand one line below the text area: the next character, whatever it is, first
scrolls the area up by one line.

What is drawn goes to the framebuffer, which is a parameter: any state `δ` with the five things that
the console does to it (`Surface`). A glyph is given to it by the cursor and the character; the
source makes its bitmap and its pixel offsets from these and from the font. `drawn` is not part of
the source: it lists the cells, column and row, that glyphs were drawn at since the last `clear`.
-/

namespace PrintOS

open ByteMemory (Byte)

/-- `rgb_to_int`. -/
def rgbToInt (red green blue : Nat) : Nat := blue + green <<< 8 + red <<< 16

def BLACK : Nat := rgbToInt 0 0 0

def WHITE : Nat := rgbToInt 255 255 255

namespace ConsoleDefault

def maxCol : Nat := 100
def maxRow : Nat := 37
def fg : Nat := WHITE
def bg : Nat := BLACK

end ConsoleDefault

def ASCII_PRINTABLE_MIN : Nat := 32

def ASCII_PRINTABLE_MAX : Nat := 127

/-- `class ConsoleCursor`. -/
structure ConsoleCursor where
  row : Nat
  col : Nat
  fg : Nat
  bg : Nat
  maxCol : Nat
  maxRow : Nat
  deriving Repr, DecidableEq

namespace ConsoleCursor

/-- `ConsoleCursor::next`. -/
def next (c : ConsoleCursor) : ConsoleCursor :=
  if c.col + 1 < c.maxCol then { c with col := u16 (c.col + 1) }
  else { c with col := 0, row := u16 (c.row + 1) }

/-- `ConsoleCursor::back`. -/
def back (c : ConsoleCursor) : ConsoleCursor :=
  if c.col > 0 then { c with col := sub16 c.col 1 }
  else { c with col := sub16 c.maxCol 1, row := sub16 c.row 1 }

/-- `ConsoleCursor::cr`. -/
def cr (c : ConsoleCursor) : ConsoleCursor := { c with col := 0 }

/-- `ConsoleCursor::lf`. -/
def lf (c : ConsoleCursor) : ConsoleCursor := { c with row := u16 (c.row + 1) }

/-- `ConsoleCursor::gotoxy`. -/
def gotoxy (c : ConsoleCursor) (x y : Nat) : ConsoleCursor := { c with col := x, row := y }

/-- `ConsoleCursor::reset`, which sets every field. -/
def reset : ConsoleCursor where
  col := 0
  row := 0
  bg := ConsoleDefault.bg
  fg := ConsoleDefault.fg
  maxCol := ConsoleDefault.maxCol
  maxRow := ConsoleDefault.maxRow

end ConsoleCursor

/-- What the console does to the framebuffer. -/
structure Surface (δ : Type) where
  /-- `set_all_pixels`. -/
  setAllPixels : δ → Nat → δ
  /-- `print_glyph`, of the glyph for a character at the cursor. -/
  printGlyph : δ → ConsoleCursor → Byte → δ
  /-- The copy of `_scroll_down`: everything moves up by the height of a line. -/
  moveUp : δ → δ
  /-- The pixels that `clear_line` sets, for a line. -/
  blankLine : δ → Nat → δ
  /-- `draw`. -/
  draw : δ → δ

/-- `class Console`, with the framebuffer and the cells that were drawn at since the last
`clear`. -/
structure Console (δ : Type) where
  cursor : ConsoleCursor
  screen : δ
  drawn : List (Nat × Nat)

namespace Console

def NEW_LINE : Byte := 0x0a

def TAB : Byte := 0x09

def CARRIAGE_RETURN : Byte := 0x0d

def BACKSPACE : Byte := 0x08

def SPACE : Byte := 0x20

/-- The character has a glyph. A `char` is signed, so that one from 128 on is below zero. -/
def Printable (chr : Byte) : Prop :=
  ASCII_PRINTABLE_MIN ≤ chr.toNat ∧ chr.toNat ≤ ASCII_PRINTABLE_MAX

instance (chr : Byte) : Decidable (Printable chr) := inferInstanceAs (Decidable (_ ∧ _))

variable {δ : Type} (surface : Surface δ)

/-- `Console::clear`. -/
def clear (c : Console δ) : Console δ :=
  { screen := surface.draw (surface.setAllPixels c.screen BLACK)
    cursor := .reset
    drawn := [] }

/-- `Console::clear_line`. -/
def clearLine (c : Console δ) (line : Nat) : Console δ :=
  { c with screen := surface.draw (surface.blankLine c.screen line) }

/-- `Console::_scroll_down`. -/
def scrollDown (c : Console δ) : Console δ :=
  let moved : Console δ :=
    { c with
      screen := surface.moveUp c.screen
      cursor := c.cursor.gotoxy c.cursor.col (sub16 c.cursor.row 1) }
  clearLine surface moved (sub16 c.cursor.maxRow 1)

/-- The first test of `_print_char`. -/
def scrollIfFull (c : Console δ) : Console δ :=
  if c.cursor.maxRow = c.cursor.row then scrollDown surface c else c

/-- The printable branch of `_print_char`. -/
def putGlyph (c : Console δ) (chr : Byte) : Console δ :=
  { screen := surface.printGlyph c.screen c.cursor chr
    drawn := c.drawn ++ [(c.cursor.col, c.cursor.row)]
    cursor := c.cursor.next }

def moveCursor (c : Console δ) (move : ConsoleCursor → ConsoleCursor) : Console δ :=
  { c with cursor := move c.cursor }

/-- `Console::_print_char`. A backspace prints a space, which is printable: the inner call is the
first test and the printable branch. -/
def printChar (c : Console δ) (chr : Byte) : Console δ :=
  let c := scrollIfFull surface c
  if Printable chr then putGlyph surface c chr
  else if chr = NEW_LINE then c.moveCursor fun cursor => cursor.lf.cr
  else if chr = TAB then c.moveCursor fun cursor => cursor.next.next.next
  else if chr = CARRIAGE_RETURN then c.moveCursor fun cursor => cursor.cr
  else if chr = BACKSPACE then
    let c := c.moveCursor ConsoleCursor.back
    let c := putGlyph surface (scrollIfFull surface c) SPACE
    c.moveCursor ConsoleCursor.back
  else c

/-- The characters of a string, one after the other. -/
def printChars (c : Console δ) (chars : List Byte) : Console δ :=
  chars.foldl (printChar surface) c

/-- `Framebuffer::draw`, as the last thing of a call. -/
def draw (c : Console δ) : Console δ := { c with screen := surface.draw c.screen }

/-- A call of `Console::print`, which takes a character, as from the keyboard, or a string. -/
inductive Call
  | chr (c : Byte)
  | str (s : List Byte)
  deriving Repr, DecidableEq

/-- The characters that a call prints. A string ends at its first null. -/
def Call.chars : Call → List Byte
  | .chr c => [c]
  | .str s => s.takeWhile (· ≠ 0)

/-- `Console::print`. -/
def print (c : Console δ) (call : Call) : Console δ :=
  draw surface (printChars surface c call.chars)

/-- Some calls of `print`, one after the other. -/
def prints (c : Console δ) (calls : List Call) : Console δ :=
  calls.foldl (print surface) c

end Console

end PrintOS
