import PrintOS.Libc.Stdlib

/-!
# ACPI tables

The firmware leaves a table of tables: the RSDP has the address of the RSDT, and the RSDT ends with
the 32-bit addresses of further tables, each of which starts with a header that has its signature
and its length. The MADT is one of them. It ends with interrupt controller structures, one after the
other, each with its type and its length in its first two bytes.

A pointer is an address, and the null pointer is 0. Both `get_header`s walk memory. `read` is not
part of the source: it lists where the walk looked, for the laws.
-/

namespace PrintOS.Acpi

open ByteMemory (Mem Byte)

def nullptr : Nat := 0

/-- The end of a walk: the pointer that is returned, and where the walk looked. -/
structure Walk where
  ptr : Nat
  read : List Nat
  deriving Repr, DecidableEq

/-- A walk with one place more before it. -/
def Walk.after (w : Walk) (place : Nat) : Walk := { w with read := place :: w.read }

/-! ## The RSDT -/

/-- `sizeof(RSDT)`: a header, and no entries. -/
def RSDT_SZ : Nat := 36

/-- `header.length` of a table. -/
def length (m : Mem) (table : Nat) : Nat := m.readLE (table + 4) 4

/-- `rsdt->sdt_table[i]`. -/
def sdtTable (m : Mem) (rsdt i : Nat) : Nat := m.readLE (u64 (rsdt + RSDT_SZ + 4 * i)) 4

/-- The number of entries. The subtraction is in 64 bits, and wraps below zero. -/
def entries (m : Mem) (rsdt : Nat) : Nat := sub64 (length m rsdt) RSDT_SZ / 4

/-- The loop of `acpi::sdt::get_header`, for the turns that are left. -/
def getHeaderFrom (m : Mem) (rsdt signature : Nat) : Nat → Nat → Walk
  | 0, _ => ⟨nullptr, []⟩
  | turns + 1, i =>
    let sdt := sdtTable m rsdt i
    if strncmp m sdt signature 4 = 0 then ⟨sdt, [i]⟩
    else (getHeaderFrom m rsdt signature turns (i + 1)).after i

/-- `acpi::sdt::get_header`, for the RSDT at an address. The walk looks at entries. -/
def getHeader (m : Mem) (rsdt signature : Nat) : Walk :=
  getHeaderFrom m rsdt signature (entries m rsdt) 0

/-! ## The MADT -/

/-- `madt::ics::Type`. -/
inductive IcsType
  | CPU_LAPIC
  | IO_APIC
  | LAPIC_ADDR_OVERRIDE
  deriving Repr, DecidableEq

def IcsType.code : IcsType → Nat
  | .CPU_LAPIC => 0x00
  | .IO_APIC => 0x01
  | .LAPIC_ADDR_OVERRIDE => 0x05

/-- The offset of `ics_table`: a header, the address of the local APIC and the flags. -/
def ICS_TABLE : Nat := 44

/-- `type` of the structure at an address. -/
def icsType (m : Mem) (header : Nat) : Nat := (m header).toNat

/-- `length` of the structure at an address. -/
def icsLength (m : Mem) (header : Nat) : Nat := (m (header + 1)).toNat

/-- The loop of `madt::ics::get_header`, for the turns that are left. -/
def getIcsHeaderFrom (m : Mem) (type : IcsType) : Nat → Nat → Walk
  | 0, _ => ⟨nullptr, []⟩
  | turns + 1, header =>
    if icsType m header = type.code then ⟨header, [header]⟩
    else (getIcsHeaderFrom m type turns (u64 (header + icsLength m header))).after header

/-- `madt::ics::get_header`, for the MADT at an address. The walk looks at 15 structures at most,
whatever the length of the table. -/
def getIcsHeader (m : Mem) (madt : Nat) (type : IcsType) : Walk :=
  getIcsHeaderFrom m type 0xf (madt + ICS_TABLE)

end PrintOS.Acpi
