import PrintOS.Libc.Stdlib

/-!
# `kprintf`

`__printf` makes the text in a buffer of its own and gives that to the console. It scans the format
character by character, in two states: after a `%` a character is a specifier. A number is first
written to a second buffer, by `itoa`.

The loop is a machine with one step for each turn. Both positions, in the format and in the buffer,
are `u16`s. A turn in which `str_len` finds no null never ends, and neither does the machine then.
`written` is not part of the source: it lists the stores, each by its address and number of bytes.
-/

namespace PrintOS.Printf

open ByteMemory (Mem Byte)

def BUF_SZ : Nat := 4096

def TEMP_BUF_SZ : Nat := 64

def PERCENT : Byte := 0x25

def STRING : Byte := 0x73

def DECIMAL : Byte := 0x64

def POINTER : Byte := 0x70

/-- What a call of `__printf` has: the format, its two buffers on the stack, and the words that
`va_arg` gives, one after the other. -/
structure Frame where
  str : Nat
  buf : Nat
  tempBuf : Nat
  args : Nat → Nat

/-- Where the call is: in the loop, in a turn that never ends, or after `Console::print`, with the
string that was printed. -/
inductive Phase
  | loop
  | hangs
  | printed (s : Option (List Byte))
  deriving Repr, DecidableEq

/-- The variables of `__printf`, the number of arguments taken, and the stores so far. -/
structure State where
  mem : Mem
  len : Nat
  i : Nat
  j : Nat
  isPercent : Bool
  arg : Nat
  phase : Phase
  written : List (Nat × Nat)

/-- The string that a pointer to characters stands for. -/
def stringAt (m : Mem) (str : Nat) : Option (List Byte) :=
  (strLen m str).map fun n => (List.range n).map fun i => m (str + i)

variable (f : Frame)

/-- The length of a string, and the string added to the buffer. -/
def addString (s : State) (src : Nat) : State :=
  match strLen s.mem src with
  | none => { s with phase := .hangs }
  | some tempLen =>
    { s with
      mem := memcpy s.mem (f.buf + s.j) src tempLen
      j := u16 (s.j + tempLen)
      written := s.written ++ [(f.buf + s.j, tempLen)] }

/-- A number in the second buffer, and added to the buffer from there. -/
def addNumber (s : State) (num base : Nat) : State :=
  let (digits, mem) := itoa s.mem num f.tempBuf base
  addString f { s with mem := mem, written := s.written ++ [(f.tempBuf, digits + 1)] } f.tempBuf

/-- The `switch` over the specifier. -/
def convert (s : State) (chr : Byte) : State :=
  if chr = STRING then addString f { s with arg := s.arg + 1 } (f.args s.arg)
  else if chr = DECIMAL then addNumber f { s with arg := s.arg + 1 } (f.args s.arg) 10
  else if chr = POINTER then addNumber f { s with arg := s.arg + 1 } (f.args s.arg) 16
  else s

/-- A character that is no specifier. -/
def addChar (s : State) (chr : Byte) : State :=
  { s with
    mem := s.mem.write (f.buf + s.j) chr
    j := u16 (s.j + 1)
    written := s.written ++ [(f.buf + s.j, 1)] }

/-- The body of the loop, without the increment. -/
def body (s : State) (chr : Byte) : State :=
  if s.isPercent then { convert f s chr with isPercent := false }
  else if chr = PERCENT then { s with isPercent := true }
  else addChar f s chr

/-- One turn of the loop. -/
def turn (s : State) : State :=
  let s := body f s (s.mem (f.str + s.i))
  { s with i := u16 (s.i + 1) }

/-- What follows the loop. -/
def finish (s : State) : State :=
  let mem := s.mem.write (f.buf + s.j) 0
  { s with
    mem := mem
    written := s.written ++ [(f.buf + s.j, 1)]
    phase := .printed (stringAt mem f.buf) }

/-- One step. There is none after the text was printed. -/
def step (s : State) : Option State :=
  match s.phase with
  | .printed _ => none
  | .hangs => some s
  | .loop => some (if s.i < s.len then turn f s else finish f s)

/-- `__printf` up to its loop. -/
def start (m : Mem) : State :=
  let mem := memset (memset m f.buf 0 BUF_SZ) f.tempBuf 0 TEMP_BUF_SZ
  { mem := mem
    len := (strLen mem f.str).getD 0
    i := 0
    j := 0
    isPercent := false
    arg := 0
    phase := if (strLen mem f.str).isSome then .loop else .hangs
    written := [(f.buf, BUF_SZ), (f.tempBuf, TEMP_BUF_SZ)] }

end PrintOS.Printf
