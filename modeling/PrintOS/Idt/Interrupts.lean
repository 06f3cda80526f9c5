import PrintOS.Console.ConsoleFont
import PrintOS.Drivers.Keyboard
import PrintOS.Kutils.Console

/-!
# `kprintf` and the keyboard interrupt

The kernel prints with `kprintf` while the keyboard's interrupt is on, and the handler prints to the
same console. Both write to one memory: the framebuffers, the two buffers of the call, and the
register of the local APIC that ends the interrupt.

The handler's gate is an interrupt gate, so that nothing interrupts it: an interrupt is one step. A
call of `kprintf` takes many, and an interrupt may come between any two of them: the start of the
call, each turn of its loop, the end of the text in the buffer, and then each character that
`Console::print` takes from the buffer. What a step does to the memory is not cut any further.

`log` is not part of the source: it lists the characters that were printed, and by which of the two.
-/

namespace PrintOS

open ByteMemory (Mem Byte)

namespace Lapic

/-- `Reg::EOI`. -/
def EOI : Nat := 0x0b0

/-- `lapic::write_reg`, a store of 32 bits to the memory of the device at `lapic_addr`. -/
def writeReg (lapicAddr : Nat) (m : Mem) (reg val : Nat) : Mem := m.writeLE (lapicAddr + reg) 4 val

/-- `lapic::write_eoi`. -/
def writeEoi (lapicAddr : Nat) (m : Mem) : Mem := writeReg lapicAddr m EOI 0xff

end Lapic

/-- Where a call of `kprintf` is: in `__printf`, or in `Console::print`, at the character at
`str`. -/
inductive Running
  | formatting (f : Printf.Frame) (s : Printf.State)
  | printing (str : Nat)

/-- Who prints a character. -/
inductive Printer
  | call
  | key
  deriving Repr, DecidableEq

/-- The console and the keyboard, and the call that is under way. -/
structure Terminal where
  console : Console Mem
  keyboard : Keyboard
  running : Option Running
  log : List (Printer × Byte)

namespace Terminal

variable (fb : Framebuffer) (font : ConsoleFont) (lapicAddr : Nat)

/-- The memory, which the console is drawn in. -/
def mem (t : Terminal) : Mem := t.console.screen

def setMem (t : Terminal) (m : Mem) : Terminal :=
  { t with console := { t.console with screen := m } }

/-- A terminal that was cleared. -/
def cleared (c : Console Mem) (keyboard : Keyboard) : Terminal where
  console := Console.clear (Console.framebuffer fb font) c
  keyboard := keyboard
  running := none
  log := []

/-- `keyboard_handler`, for the code that the data port holds. -/
def keyboardHandler (t : Terminal) (code : Byte) : Terminal :=
  let (chr, keyboard) := t.keyboard.readKey code
  let t := { t with keyboard := keyboard }
  let t :=
    if chr ≠ 0x00 then
      { t with
        console := Console.print (Console.framebuffer fb font) t.console (.chr chr)
        log := t.log ++ [(.key, chr)] }
    else t
  t.setMem (Lapic.writeEoi lapicAddr t.mem)

/-- The start of a call of `kprintf`. -/
def kprintf (t : Terminal) (f : Printf.Frame) : Terminal :=
  let s := Printf.start f t.mem
  { t.setMem s.mem with running := some (.formatting f s) }

/-- The next step of the call. After `__printf` has ended the text, the console prints it from the
buffer. -/
def turn (t : Terminal) : Terminal :=
  match t.running with
  | none => t
  | some (.formatting f s) =>
    match Printf.step f { s with mem := t.mem } with
    | none => t
    | some s' =>
      { t.setMem s'.mem with
        running := some (match s'.phase with
          | .printed _ => .printing f.buf
          | _ => .formatting f s') }
  | some (.printing str) =>
    let chr := t.mem str
    if chr ≠ 0 then
      { t with
        console := Console.printChar (Console.framebuffer fb font) t.console chr
        running := some (.printing (str + 1))
        log := t.log ++ [(.call, chr)] }
    else
      { t with
        console := Console.draw (Console.framebuffer fb font) t.console
        running := none }

end Terminal

end PrintOS
