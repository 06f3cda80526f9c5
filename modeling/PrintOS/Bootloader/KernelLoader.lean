import PrintOS.Bootloader.Efi

/-!
# Loading the kernel

The kernel is an ELF file. Its header and its table of program headers are read, and every `PT_LOAD`
segment is read to the physical address that its program header gives, in pages allocated there.

The number of pages is made from the size of the segment in the file, not in memory, and it is kept
in 16 bits. Nothing is written after the bytes of the file.
-/

namespace PrintOS.Bootloader

open ByteMemory (Mem Byte)

/-- `Elf64_Ehdr`, the fields that the loader uses. -/
structure Elf64Ehdr where
  eiMag0 : Nat
  eiClass : Nat
  eiData : Nat
  eType : Nat
  eMachine : Nat
  eVersion : Nat
  eEntry : Nat
  ePhoff : Nat
  ePhentsize : Nat
  ePhnum : Nat
  deriving Repr, DecidableEq

/-- `sizeof(Elf64_Ehdr)`. -/
def EHDR_SZ : Nat := 64

/-- The ELF header in some bytes. -/
def Elf64Ehdr.ofBytes (m : Nat → Byte) : Elf64Ehdr where
  eiMag0 := (m 0).toNat
  eiClass := (m 4).toNat
  eiData := (m 5).toNat
  eType := Mem.readLE m 16 2
  eMachine := Mem.readLE m 18 2
  eVersion := Mem.readLE m 20 4
  eEntry := Mem.readLE m 24 8
  ePhoff := Mem.readLE m 32 8
  ePhentsize := Mem.readLE m 54 2
  ePhnum := Mem.readLE m 56 2

/-- `Elf64_Phdr`, the fields that the loader uses and the size in memory. -/
structure Elf64Phdr where
  pType : Nat
  pOffset : Nat
  pPaddr : Nat
  pFilesz : Nat
  pMemsz : Nat
  deriving Repr, DecidableEq

/-- `sizeof(Elf64_Phdr)`. -/
def PHDR_SZ : Nat := 56

/-- The program header at an address. -/
def Elf64Phdr.ofMem (m : Mem) (a : Nat) : Elf64Phdr where
  pType := m.readLE a 4
  pOffset := m.readLE (a + 8) 8
  pPaddr := m.readLE (a + 24) 8
  pFilesz := m.readLE (a + 32) 8
  pMemsz := m.readLE (a + 40) 8

def ELFMAG : List Byte := [0x7f, 0x45, 0x4c, 0x46]

def ELFCLASS64 : Nat := 2

def ELFDATA2LSB : Nat := 1

def ET_EXEC : Nat := 2

def EM_X86_64 : Nat := 62

def EV_CURRENT : Nat := 1

def PT_LOAD : Nat := 1

/-- `verify_kernel_elf_header`. The magic number is compared with what is in memory at the address
that is the value of the first byte of the header. -/
def verifyKernelElfHeader (m : Mem) (eHdr : Elf64Ehdr) : Bool :=
  memcmp m eHdr.eiMag0 ELFMAG == 0 && eHdr.eiClass == ELFCLASS64 &&
    eHdr.eiData == ELFDATA2LSB && eHdr.eType == ET_EXEC && eHdr.eMachine == EM_X86_64 &&
    eHdr.eVersion == EV_CURRENT

variable (fw : Firmware)

/-- `get_elf_header`. The header is a local variable: what the file does not have of it is what the
stack held. -/
def getElfHeader (file : Option EfiFile) : Boot (EfiStatus × Elf64Ehdr) := do
  let file ← deref file
  let status ← setPosition fw file 0
  if status ≠ EFI_SUCCESS then
    printEfiErr "Jumping at the beginning of ELF failed" status
    return (status, .ofBytes fw.stack)
  let (status, bytes) ← readBytes fw file EHDR_SZ
  report "Reading ELF header failed" status
  return (status, .ofBytes (Mem.copy fw.stack 0 bytes))

/-- `e_phentsize * e_phnum`, a product of `int`s that is stored in a `UINTN`. -/
def allPHdrsSz (eHdr : Elf64Ehdr) : Nat :=
  if eHdr.ePhentsize * eHdr.ePhnum < 2 ^ 31 then eHdr.ePhentsize * eHdr.ePhnum
  else eHdr.ePhentsize * eHdr.ePhnum + (2 ^ 64 - 2 ^ 32)

/-- `get_elf_p_hdrs`. -/
def getElfPHdrs (file : Option EfiFile) (eHdr : Elf64Ehdr) : Boot (EfiStatus × Option Nat) := do
  let (status, pHdrs) ← allocatePool fw (allPHdrsSz eHdr)
  if status ≠ EFI_SUCCESS then
    printEfiErr "Allocating memory for ELF p_hdrs failed" status
    return (status, pHdrs)
  let file ← deref file
  let status ← setPosition fw file eHdr.ePhoff
  if status ≠ EFI_SUCCESS then
    printEfiErr "Jumping at e_phoff in ELF file failed" status
    return (status, pHdrs)
  let buffer ← deref pHdrs
  let status ← read fw file (allPHdrsSz eHdr) buffer
  if status ≠ EFI_SUCCESS then
    printEfiErr "Reading ELF program headers failed" status
    return (status, pHdrs)
  return (status, pHdrs)

/-- `_get_next_p_hdr`. -/
def getNextPHdr (pHdr : Option Nat) (pHdrSize : Nat) : Option Nat := pHdr.map (· + pHdrSize)

/-- `num_of_pages`, a `UINT16`. -/
def numOfPages (pFilesz : Nat) : Nat := (pFilesz / PAGE_SZ + 1) % 2 ^ 16

/-- `load_elf_segment_by_p_hdr`. -/
def loadElfSegmentByPHdr (file : Option EfiFile) (pHdr : Elf64Phdr) : Boot EfiStatus := do
  let status ← allocatePages fw (numOfPages pHdr.pFilesz) pHdr.pPaddr
  if status ≠ EFI_SUCCESS then
    printEfiErr "Memory allocation for ELF segment failed" status
    return status
  let file ← deref file
  let status ← setPosition fw file pHdr.pOffset
  if status ≠ EFI_SUCCESS then
    printEfiErr "Jumping at segment offset" status
    return status
  let status ← read fw file pHdr.pFilesz pHdr.pPaddr
  report "Reading one of ELF's PT_LOAD segments failed" status
  return status

/-- What the loop of `load_kernel_into_memory` does with a header. -/
def loadPHdr (file : Option EfiFile) (pHdr : Elf64Phdr) : Boot EfiStatus :=
  if pHdr.pType = PT_LOAD then loadElfSegmentByPHdr fw file pHdr else pure EFI_SUCCESS

/-- The loop of `load_kernel_into_memory`, for the headers that are left: whether it got to the end
of them. -/
def loadSegments (file : Option EfiFile) (pHdrSize : Nat) : Nat → Option Nat → Boot Bool
  | 0, _ => return true
  | left + 1, pHdr => do
    let addr ← deref pHdr
    let s ← get
    let status ← loadPHdr fw file (.ofMem s.mem addr)
    if status ≠ EFI_SUCCESS then
      return false
    loadSegments file pHdrSize left (getNextPHdr pHdr pHdrSize)

/-- `load_kernel_into_memory`: the entry point of the kernel. -/
def loadKernelIntoMemory (kernelFile : Option EfiFile) : Boot (Option Nat) := do
  let (status, eHdr) ← getElfHeader fw kernelFile
  if status ≠ EFI_SUCCESS then
    return none
  let s ← get
  if verifyKernelElfHeader s.mem eHdr then
    printErr "Kernel ELF format is bad"
    return none
  let (status, pHdrs) ← getElfPHdrs fw kernelFile eHdr
  if status ≠ EFI_SUCCESS then
    return none
  if ← loadSegments fw kernelFile eHdr.ePhentsize eHdr.ePhnum pHdrs then
    return if eHdr.eEntry = 0 then none else some eHdr.eEntry
  else return none

end PrintOS.Bootloader
