import PrintOS.Lib.ByteMemory

/-!
# The keyboard driver

`read_key` takes one byte of the PS/2 data port, a scan code of set 1, and answers with a
character. A press sends a key's make code, and sends it again for as long as the key is held; a
release sends the break code, which is the make code with bit 7 set. Keys added later send the
prefix 0xE0 before either.

The driver keeps two flags and no prefix: it takes every byte for a code of its own. The switch
of `read_key` is cut in two: `keyOf` says which case a code falls in, and `readKey` what the
case does.
-/

namespace PrintOS

open ByteMemory (Byte)

namespace ScanCode

def ESCAPE_IN : Byte := 0x01
def BACKSPACE_IN : Byte := 0x0e
def TAB_IN : Byte := 0x0f
def ENTER_IN : Byte := 0x1c
def LEFT_SHIFT_IN : Byte := 0x2a
def RIGHT_SHIFT_IN : Byte := 0x36
def SPACE_IN : Byte := 0x39
def CAPSLOCK_IN : Byte := 0x3a
def LEFT_SHIFT_OUT : Byte := 0xaa
def RIGHT_SHIFT_OUT : Byte := 0xb6

end ScanCode

namespace ASCII

def NULL_CHAR : Byte := 0x00
def BACKSPACE : Byte := 0x08
def HORIZONTAL_TAB : Byte := 0x09
def LINE_FEED : Byte := 0x0a
def SHIFT_OUT : Byte := 0x0e
def SHIFT_IN : Byte := 0x0f
def ESCAPE : Byte := 0x1b
def SPACE : Byte := 0x20

end ASCII

/-- A character of the source text, as a `char`. -/
def ascii (c : Char) : Byte := BitVec.ofNat 8 c.toNat

/-- `class Keyboard`. -/
structure Keyboard where
  shift : Bool := false
  capslock : Bool := false
  deriving Repr, DecidableEq

namespace Keyboard

/-- A case of the switch in `read_key`. -/
inductive Key where
  | letter (chr modChr : Char)
  | special (chr modChr : Char)
  | plain (chr : Byte)
  | shiftIn
  | shiftOut
  | capslock
  | other
  deriving Repr, DecidableEq

/-- The cases that map a scan code to a character. -/
def charKeyOf (code : Byte) : Key :=
  match code.toNat with
  | 0x02 => .special '1' '!'
  | 0x03 => .special '2' '@'
  | 0x04 => .special '3' '#'
  | 0x05 => .special '4' '$'
  | 0x06 => .special '5' '%'
  | 0x07 => .special '6' '^'
  | 0x08 => .special '7' '&'
  | 0x09 => .special '8' '*'
  | 0x0A => .special '9' '('
  | 0x0B => .special '0' ')'
  | 0x0C => .special '-' '_'
  | 0x0D => .special '=' '+'
  | 0x10 => .letter 'q' 'Q'
  | 0x11 => .letter 'w' 'W'
  | 0x12 => .letter 'e' 'E'
  | 0x13 => .letter 'r' 'R'
  | 0x14 => .letter 't' 'T'
  | 0x15 => .letter 'y' 'Y'
  | 0x16 => .letter 'u' 'U'
  | 0x17 => .letter 'i' 'I'
  | 0x18 => .letter 'o' 'O'
  | 0x19 => .letter 'p' 'P'
  | 0x1A => .special '[' '\x7b'
  | 0x1B => .special ']' '\x7d'
  | 0x1E => .letter 'a' 'A'
  | 0x1F => .letter 's' 'S'
  | 0x20 => .letter 'd' 'D'
  | 0x21 => .letter 'f' 'F'
  | 0x22 => .letter 'g' 'G'
  | 0x23 => .letter 'h' 'H'
  | 0x24 => .letter 'j' 'J'
  | 0x25 => .letter 'k' 'K'
  | 0x26 => .letter 'l' 'L'
  | 0x27 => .special ';' ':'
  | 0x28 => .special '\x27' '\x22'
  | 0x29 => .special '\x60' '~'
  | 0x2B => .special '\x5c' '|'
  | 0x2C => .letter 'z' 'Z'
  | 0x2D => .letter 'x' 'X'
  | 0x2E => .letter 'c' 'C'
  | 0x2F => .letter 'v' 'V'
  | 0x30 => .letter 'b' 'B'
  | 0x31 => .letter 'n' 'N'
  | 0x32 => .letter 'm' 'M'
  | 0x33 => .special ',' '<'
  | 0x34 => .special '.' '>'
  | 0x35 => .special '/' '?'
  | _ => .other

/-- The case that a scan code falls in. -/
def keyOf (code : Byte) : Key :=
  if code = ScanCode.ENTER_IN then .plain ASCII.LINE_FEED
  else if code = ScanCode.TAB_IN then .plain ASCII.HORIZONTAL_TAB
  else if code = ScanCode.BACKSPACE_IN then .plain ASCII.BACKSPACE
  else if code = ScanCode.ESCAPE_IN then .plain ASCII.ESCAPE
  else if code = ScanCode.SPACE_IN then .plain ASCII.SPACE
  else if code = ScanCode.LEFT_SHIFT_IN ∨ code = ScanCode.RIGHT_SHIFT_IN then .shiftIn
  else if code = ScanCode.LEFT_SHIFT_OUT ∨ code = ScanCode.RIGHT_SHIFT_OUT then .shiftOut
  else if code = ScanCode.CAPSLOCK_IN then .capslock
  else charKeyOf code

/-- `Keyboard::_mod_letter`. -/
def modLetter (k : Keyboard) (chr modChr : Char) : Char :=
  if k.capslock then
    if k.shift then chr else modChr
  else
    if k.shift then modChr else chr

/-- `Keyboard::_mod_special`. -/
def modSpecial (k : Keyboard) (chr modChr : Char) : Char :=
  if k.shift then modChr else chr

/-- `Keyboard::read_key`, for the code that the data port holds. -/
def readKey (k : Keyboard) (code : Byte) : Byte × Keyboard :=
  match keyOf code with
  | .letter chr modChr => (ascii (k.modLetter chr modChr), k)
  | .special chr modChr => (ascii (k.modSpecial chr modChr), k)
  | .plain chr => (chr, k)
  | .shiftIn => (ASCII.SHIFT_IN, { k with shift := true })
  | .shiftOut => (ASCII.SHIFT_OUT, { k with shift := false })
  | .capslock => (ASCII.NULL_CHAR, { k with capslock := !k.capslock })
  | .other => (ASCII.NULL_CHAR, k)

/-- The driver after some codes. -/
def readKeys (k : Keyboard) (codes : List Byte) : Keyboard :=
  codes.foldl (fun k code => (k.readKey code).2) k

end Keyboard

end PrintOS
