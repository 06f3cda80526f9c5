import PrintOS.Lib.ByteMemory
import PrintOS.Lib.Program

/-!
# The firmware the bootloader runs on

The EFI services that the bootloader calls. The firmware is a parameter (`Firmware`): it gives every
call a status, by the number of the call, and what the call hands out where it succeeds. A call
that fails hands out nothing and leaves its output pointer null, which is `none` here; a pointer is
checked where it is followed (`deref`).

The state has what the bootloader can see of the machine (`Efi`): memory, the position in each open
file, and what it printed. `calls`, `pages` and `pools` are not part of it: they list the calls with
their statuses, and the memory that was handed out.
-/

namespace PrintOS.Bootloader

open ByteMemory (Mem Byte)

/-! ## Statuses -/

abbrev EfiStatus := Nat

/-- The statuses with the high bit set are errors. -/
def efiError (code : Nat) : EfiStatus := 2 ^ 63 + code

def EFI_SUCCESS : EfiStatus := 0

def EFI_LOAD_ERROR : EfiStatus := efiError 1

def EFI_UNSUPPORTED : EfiStatus := efiError 3

def EFI_BUFFER_TOO_SMALL : EfiStatus := efiError 5

def EFI_ABORTED : EfiStatus := efiError 21

/-! ## Calls -/

/-- An open file, by its name. -/
structure EfiFile where
  name : String
  deriving Repr, DecidableEq

/-- The protocols that the bootloader asks for. -/
inductive Protocol
  | loadedImage
  | simpleFileSystem
  | graphicsOutput
  deriving Repr, DecidableEq

/-- A call of the firmware. -/
inductive Call
  | openProtocol (protocol : Protocol)
  | openVolume
  | openFile (fileName : String)
  | setPosition (file : EfiFile) (position : Nat)
  | read (file : EfiFile) (bufferSize : Nat)
  | allocatePool (size : Nat)
  | allocatePages (pages address : Nat)
  | locateProtocol (protocol : Protocol)
  | getMemoryMap (mapSize : Nat) (memoryMap : Option Nat)
  | exitBootServices (mapKey : Nat)
  deriving Repr, DecidableEq

/-- The status a call is documented to succeed with. `GetMemoryMap` without a buffer tells how large
a buffer it needs. -/
def Call.documented : Call → EfiStatus
  | .getMemoryMap _ none => EFI_BUFFER_TOO_SMALL
  | _ => EFI_SUCCESS

/-- A range of memory. -/
structure Range where
  addr : Nat
  size : Nat
  deriving Repr, DecidableEq

/-- `EFI_GRAPHICS_OUTPUT_PROTOCOL_MODE`, with the fields of its `Info`. -/
structure GopMode where
  frameBufferBase : Nat
  frameBufferSize : Nat
  horizontalResolution : Nat
  verticalResolution : Nat
  pixelsPerScanLine : Nat

/-- `EFI_GUID`. -/
structure EfiGuid where
  data1 : Nat
  data2 : Nat
  data3 : Nat
  data4 : List Nat
  deriving Repr, DecidableEq

/-- `EFI_CONFIGURATION_TABLE`. -/
structure ConfigurationTable where
  vendorGuid : EfiGuid
  vendorTable : Option Nat

/-- The firmware. What it answers is by the number of the call. -/
structure Firmware where
  status : Nat → EfiStatus
  /-- The address that `AllocatePool` hands out. -/
  pool : Nat → Nat
  /-- The bytes of the memory map, its key, and the size of a descriptor. -/
  memoryMap : Nat → List Byte
  mapKey : Nat → Nat
  descriptorSize : Nat → Nat
  /-- The files of the volume. -/
  volume : String → List Byte
  mode : GopMode
  configurationTable : List ConfigurationTable
  /-- What the stack holds where the bootloader puts a local variable. -/
  stack : Nat → Byte

/-! ## The state -/

/-- Why the bootloader stops. -/
inductive Stop
  | nullDeref
  | divideByZero
  deriving Repr, DecidableEq

/-- The machine, as the bootloader sees it, with its calls and what they handed out. -/
structure Efi where
  mem : Mem
  position : EfiFile → Nat
  printed : List String
  calls : List (Call × EfiStatus)
  pages : List Range
  pools : List Range

/-- The machine when the firmware starts the bootloader. -/
def Efi.start (mem : Mem) : Efi where
  mem := mem
  position := fun _ => 0
  printed := []
  calls := []
  pages := []
  pools := []

abbrev Boot (α : Type) := Program Efi Stop α

/-- Following a pointer. -/
def deref {α : Type} : Option α → Boot α
  | some a => pure a
  | none => throw .nullDeref

/-! ## Messages and memory -/

/-- `Print`. -/
def print (text : String) : Boot Unit := modify fun s => { s with printed := s.printed ++ [text] }

def STATUSES : List String :=
  ["success", "load error", "invalid parameter", "unsupported", "bad buffer size",
    "buffer too small", "not ready", "device error", "write protected", "out of resources",
    "volume corrupted", "volume full", "no media", "media changed", "not found", "access denied",
    "no response", "no mapping", "timeout", "not started", "already started", "aborted",
    "ICMP error", "TFTP error", "protocol error", "incompatible version", "security violation",
    "CRC error", "end of media", "end of file", "invalid language", "compromised data",
    "undefined status"]

/-- `efi_status_str`, by the low byte of the status. -/
def efiStatusStr (status : EfiStatus) : String :=
  STATUSES[status % 2 ^ 8]?.getD "undefined status"

/-- `print_efi_err`. -/
def printEfiErr (str : String) (status : EfiStatus) : Boot Unit :=
  print ("[!] Error: " ++ str ++ " (EFI error: " ++ efiStatusStr status ++ ") \n\r")

/-- The message of a failure, where nothing else is done about it. -/
def report (str : String) (status : EfiStatus) : Boot Unit :=
  if status ≠ EFI_SUCCESS then printEfiErr str status else pure ()

/-- `print_err`. -/
def printErr (str : String) : Boot Unit := print ("[!] Error: " ++ str ++ " \n\r")

/-- `memcmp` of `utils.c`, of memory with some bytes. -/
def memcmp (m : Mem) (a : Nat) : List Byte → Int
  | [] => 0
  | b :: bs => if m a < b then -1 else if m a > b then 1 else memcmp m (a + 1) bs

/-! ## Services -/

variable (fw : Firmware)

/-- A call, and the status that it gets. -/
def call (c : Call) : Boot EfiStatus := do
  let s ← get
  let status := fw.status s.calls.length
  modify fun s => { s with calls := s.calls ++ [(c, status)] }
  return status

/-- A call that hands out an interface. -/
def callInterface (c : Call) : Boot (EfiStatus × Option Unit) := do
  let status ← call fw c
  return (status, if status = EFI_SUCCESS then some () else none)

/-- `EFI_FILE_PROTOCOL.Open`. -/
def openFile (fileName : String) : Boot (EfiStatus × Option EfiFile) := do
  let status ← call fw (.openFile fileName)
  if status = EFI_SUCCESS then
    modify fun s => { s with position := Function.update s.position ⟨fileName⟩ 0 }
    return (status, some ⟨fileName⟩)
  else return (status, none)

/-- The position that `SetPosition` goes to: the highest one stands for the end of the file. -/
def seek (file : List Byte) (position : Nat) : Nat :=
  if position = 2 ^ 64 - 1 then file.length else position

/-- `EFI_FILE_PROTOCOL.SetPosition`. -/
def setPosition (file : EfiFile) (position : Nat) : Boot EfiStatus := do
  let status ← call fw (.setPosition file position)
  if status = EFI_SUCCESS then
    let position := seek (fw.volume file.name) position
    modify fun s => { s with position := Function.update s.position file position }
    return status
  else return status

/-- `EFI_FILE_PROTOCOL.Read`, with the bytes that it reads: fewer than asked for at the end of the
file. -/
def readBytes (file : EfiFile) (bufferSize : Nat) : Boot (EfiStatus × List Byte) := do
  let status ← call fw (.read file bufferSize)
  if status = EFI_SUCCESS then
    let s ← get
    let bytes := ((fw.volume file.name).drop (s.position file)).take bufferSize
    modify fun s =>
      { s with position := Function.update s.position file (s.position file + bytes.length) }
    return (status, bytes)
  else return (status, [])

/-- `EFI_FILE_PROTOCOL.Read` into memory. -/
def read (file : EfiFile) (bufferSize buffer : Nat) : Boot EfiStatus := do
  let (status, bytes) ← readBytes fw file bufferSize
  modify fun s => { s with mem := s.mem.copy buffer bytes }
  return status

/-- `EFI_BOOT_SERVICES.AllocatePool`. -/
def allocatePool (size : Nat) : Boot (EfiStatus × Option Nat) := do
  let s ← get
  let buffer := fw.pool s.calls.length
  let status ← call fw (.allocatePool size)
  if status = EFI_SUCCESS then
    modify fun s => { s with pools := s.pools ++ [⟨buffer, size⟩] }
    return (status, some buffer)
  else return (status, none)

def PAGE_SZ : Nat := 0x1000

/-- `EFI_BOOT_SERVICES.AllocatePages` at an address. -/
def allocatePages (pages address : Nat) : Boot EfiStatus := do
  let status ← call fw (.allocatePages pages address)
  if status = EFI_SUCCESS then
    modify fun s => { s with pages := s.pages ++ [⟨address, PAGE_SZ * pages⟩] }
    return status
  else return status

/-- What `GetMemoryMap` sets: the size of the map, its key and the size of a descriptor. -/
structure MapInfo where
  mapSize : Nat
  mapKey : Nat
  descriptorSize : Nat

/-- `EFI_BOOT_SERVICES.GetMemoryMap`, into a buffer of some size. The size is set also where the
buffer is too small. -/
def getMemoryMapInto (mapSize : Nat) (memoryMap : Option Nat) : Boot (EfiStatus × MapInfo) := do
  let s ← get
  let n := s.calls.length
  let info : MapInfo := ⟨(fw.memoryMap n).length, fw.mapKey n, fw.descriptorSize n⟩
  let status ← call fw (.getMemoryMap mapSize memoryMap)
  if status = EFI_SUCCESS then
    modify fun s => { s with mem := memoryMap.elim s.mem fun a => s.mem.copy a (fw.memoryMap n) }
    return (status, info)
  else return (status, info)

end PrintOS.Bootloader
