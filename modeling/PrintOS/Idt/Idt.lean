import PrintOS.Lib.BitField
import PrintOS.Libc.Stdlib

/-!
# The interrupt descriptor table

The table has 256 entries of 16 bytes, one for each vector. `add_int` assigns some fields of an
entry, and the constructor does so for five vectors. The table is a member without an initializer:
what is not assigned is as it was in the memory that the object is put in.
-/

namespace PrintOS.Idt

open ByteMemory (Mem Byte)

def ALL_IDT_ENTRIES : Nat := 256

/-- `enum Gate`. -/
inductive Gate
  | CALL_GATE
  | INTERRUPT_GATE
  | TRAP_GATE
  deriving Repr, DecidableEq

def Gate.code : Gate → Nat
  | .CALL_GATE => 12
  | .INTERRUPT_GATE => 14
  | .TRAP_GATE => 15

/-- `enum Interrupt`: vectors of the table. -/
inductive Interrupt
  | DIVISION_BY_ZERO
  | PAGE_FAULT
  | TIMER
  | KEYBOARD
  | SPURIOUS
  deriving Repr, DecidableEq

def Interrupt.code : Interrupt → Nat
  | .DIVISION_BY_ZERO => 0
  | .PAGE_FAULT => 14
  | .TIMER => 40
  | .KEYBOARD => 41
  | .SPURIOUS => 0xff

/-- `gdt::SegmentSelector::KERNEL_CODE`. -/
def KERNEL_CODE : Nat := 8

/-- `struct Entry`. -/
structure Entry where
  offset1 : Nat
  segmentSelector : Nat
  ist : Nat
  ignore1 : Nat
  gateType : Nat
  ignore2 : Nat
  dpl : Nat
  present : Nat
  offset2 : Nat
  offset3 : Nat
  reserved1 : Nat
  deriving Repr, DecidableEq

/-- `sizeof(Entry)`. -/
def ENTRY_SZ : Nat := 16

/-- The entry at an address. -/
def Entry.ofMem (m : Mem) (a : Nat) : Entry where
  offset1 := m.readLE a 2
  segmentSelector := m.readLE (a + 2) 2
  ist := BitField.get 0 3 (m (a + 4)).toNat
  ignore1 := BitField.get 3 5 (m (a + 4)).toNat
  gateType := BitField.get 0 4 (m (a + 5)).toNat
  ignore2 := BitField.get 4 1 (m (a + 5)).toNat
  dpl := BitField.get 5 2 (m (a + 5)).toNat
  present := BitField.get 7 1 (m (a + 5)).toNat
  offset2 := m.readLE (a + 6) 2
  offset3 := m.readLE (a + 8) 4
  reserved1 := m.readLE (a + 12) 4

/-- An assignment to a bit-field of a byte. -/
def setBits (m : Mem) (a lo w v : Nat) : Mem :=
  m.write a (BitVec.ofNat 8 (BitField.set lo w v (m a).toNat))

/-- `&idt[index]`. -/
def entryAddr (idt index : Nat) : Nat := idt + ENTRY_SZ * index

/-- `IDT::add_int`. -/
def addInt (m : Mem) (idt : Nat) (gate : Gate) (index : Interrupt) (handler : BitVec 64) : Mem :=
  let entry := entryAddr idt index.code
  let m := setBits m (entry + 5) 7 1 1
  let m := setBits m (entry + 5) 0 4 gate.code
  let m := m.writeLE (entry + 2) 2 KERNEL_CODE
  let offset := handler.toNat
  let m := m.writeLE entry 2 (offset &&& 0xffff)
  let offset := offset >>> 16
  let m := m.writeLE (entry + 6) 2 (offset &&& 0xffff)
  let offset := offset >>> 16
  m.writeLE (entry + 8) 4 (offset &&& 0xffffffff)

/-- The calls of `add_int` in the constructor. -/
def INTERRUPTS : List (Gate × Interrupt) :=
  [(.TRAP_GATE, .DIVISION_BY_ZERO), (.INTERRUPT_GATE, .PAGE_FAULT), (.INTERRUPT_GATE, .TIMER),
    (.INTERRUPT_GATE, .KEYBOARD), (.INTERRUPT_GATE, .SPURIOUS)]

/-- `struct IDTR`. -/
structure Idtr where
  limit : Nat
  baseAddr : Nat
  deriving Repr, DecidableEq

/-- `IDT::__load_idtr`: what is loaded. -/
def loadIdtr (idt : Nat) : Idtr := ⟨u16 (ENTRY_SZ * ALL_IDT_ENTRIES), idt⟩

/-- `IDT::IDT`, for an object at `idt` and the addresses of the handlers. -/
def new (handlers : Interrupt → BitVec 64) (idt : Nat) (m : Mem) : Mem × Idtr :=
  (INTERRUPTS.foldl (fun m i => addInt m idt i.1 i.2 (handlers i.2)) m, loadIdtr idt)

end PrintOS.Idt
