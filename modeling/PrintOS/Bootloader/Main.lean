import PrintOS.Bootloader.KernelLoader

/-!
# The bootloader

`efi_main` loads the kernel and the font, gets the framebuffer and the table of the ACPI, and starts
the kernel after it has left the boot services. Every step may fail, and tells so by a status or by
a null pointer. A pointer to a structure is the structure here, or `none` where it is null.
-/

namespace PrintOS.Bootloader

open ByteMemory (Mem Byte)

variable (fw : Firmware)

/-! ## Files -/

/-- `get_image`. -/
def getImage : Boot (EfiStatus × Option Unit) := do
  let (status, loadedImage) ← callInterface fw (.openProtocol .loadedImage)
  report
    (if status = EFI_UNSUPPORTED then "The device doesn't support specified image protocol"
      else "Opening EFI Loaded Image Protocol failed") status
  return (status, loadedImage)

/-- `get_root_fs`. -/
def getRootFs (loadedImage : Option Unit) : Boot (EfiStatus × Option Unit) := do
  let _ ← deref loadedImage
  let (status, rootFs) ← callInterface fw (.openProtocol .simpleFileSystem)
  report
    (if status = EFI_UNSUPPORTED then "The device does not support specified file system protocol"
      else "Opening EFI Simple File System failed") status
  return (status, rootFs)

/-- `get_root_dir`. -/
def getRootDir (rootFs : Option Unit) : Boot (EfiStatus × Option Unit) := do
  let _ ← deref rootFs
  let (status, dir) ← callInterface fw .openVolume
  report "Accessing root directory failed" status
  return (status, dir)

/-- `get_file`. -/
def getFile (dir : Option Unit) (fileName : String) : Boot (EfiStatus × Option EfiFile) := do
  let _ ← deref dir
  let (status, file) ← openFile fw fileName
  report "Fail during opening file" status
  return (status, file)

/-- The directory that `load_file` opens the file in: the root directory where it is given none. -/
def getDir (rootFs dir : Option Unit) : Boot (EfiStatus × Option Unit) :=
  if dir.isNone then getRootDir fw rootFs else pure (EFI_SUCCESS, dir)

/-- `load_file`. -/
def loadFile (dir : Option Unit) (fileName : String) : Boot (Option EfiFile) := do
  let (status, loadedImage) ← getImage fw
  if status ≠ EFI_SUCCESS then
    return none
  let (status, rootFs) ← getRootFs fw loadedImage
  if status ≠ EFI_SUCCESS then
    return none
  let (status, dir) ← getDir fw rootFs dir
  if status ≠ EFI_SUCCESS then
    return none
  let (status, file) ← getFile fw dir fileName
  if status ≠ EFI_SUCCESS then
    return none
  return file

/-! ## The font -/

def GLYPH_WIDTH : Nat := 8

def GLYPH_HEIGHT : Nat := 16

def PSF1_MAGIC : Nat := 0x3604

def PSF1_MODE512 : Nat := 0x01

/-- `Psf1_header`. -/
structure Psf1Header where
  magic : Nat
  mode : Nat
  charsize : Nat
  deriving Repr, DecidableEq

/-- `sizeof(Psf1_header)`. -/
def PSF1_HEADER_SZ : Nat := 4

/-- The font header at an address. -/
def Psf1Header.ofMem (m : Mem) (a : Nat) : Psf1Header where
  magic := m.readLE a 2
  mode := (m (a + 2)).toNat
  charsize := (m (a + 3)).toNat

/-- `Psf1_font`. -/
structure Psf1Font where
  psfHeader : Option Nat
  glyphHeight : Nat
  glyphWidth : Nat
  glyphBuffer : Option Nat
  deriving Repr, DecidableEq

/-- `sizeof(Psf1_font)`. -/
def PSF1_FONT_SZ : Nat := 24

/-- `get_psf_header`. -/
def getPsfHeader (psfFile : Option EfiFile) : Boot (EfiStatus × Option Nat) := do
  let (status, psfHeader) ← allocatePool fw PSF1_HEADER_SZ
  if status ≠ EFI_SUCCESS then
    printEfiErr "Allocating memory for PSF header failed" status
    return (status, psfHeader)
  let file ← deref psfFile
  let buffer ← deref psfHeader
  let status ← read fw file PSF1_HEADER_SZ buffer
  report "Reading PSF header failed" status
  return (status, psfHeader)

/-- `verify_psf_header`. -/
def verifyPsfHeader (psfHeader : Psf1Header) : Bool := psfHeader.magic == PSF1_MAGIC

/-- `get_psf_glyphs`. -/
def getPsfGlyphs (psfFile : Option EfiFile) (glyphsBufSz : Nat) :
    Boot (EfiStatus × Option Nat) := do
  let file ← deref psfFile
  let status ← setPosition fw file PSF1_HEADER_SZ
  if status ≠ EFI_SUCCESS then
    printEfiErr "Jumping at PSF glyphs buffer failed" status
    return (status, none)
  let (status, glyphsBuf) ← allocatePool fw glyphsBufSz
  if status ≠ EFI_SUCCESS then
    printEfiErr "Allocating memory for PSF glyphs failed" status
    return (status, glyphsBuf)
  let buffer ← deref glyphsBuf
  let status ← read fw file glyphsBufSz buffer
  report "Reading PSF glyphs failed" status
  return (status, glyphsBuf)

/-- `load_psf_font`. -/
def loadPsfFont (dir : Option Unit) (path : String) : Boot (Option Psf1Font) := do
  let psfFile ← loadFile fw dir path
  if psfFile.isNone then
    printErr "Loading PSF file failed"
    return none
  let (status, psfHeader) ← getPsfHeader fw psfFile
  if status ≠ EFI_SUCCESS then
    return none
  let addr ← deref psfHeader
  let s ← get
  let header := Psf1Header.ofMem s.mem addr
  if verifyPsfHeader header then
    printErr "Invalid PSF file header"
    return none
  let glyphsBufSz := if header.mode = PSF1_MODE512 then header.charsize * 512
    else header.charsize * 256
  let (status, glyphsBuf) ← getPsfGlyphs fw psfFile glyphsBufSz
  if status ≠ EFI_SUCCESS then
    return none
  let (status, psfFont) ← allocatePool fw PSF1_FONT_SZ
  if status ≠ EFI_SUCCESS then
    printEfiErr "Allocating memory for PSF font struct failed" status
    return none
  let _ ← deref psfFont
  return some
    { psfHeader := psfHeader
      glyphBuffer := glyphsBuf
      glyphHeight := GLYPH_HEIGHT
      glyphWidth := GLYPH_WIDTH }

/-! ## The framebuffer and the ACPI -/

def BYTES_PER_PIXEL : Nat := 4

/-- `Framebuffer`. -/
structure Framebuffer where
  baseAddress : Nat
  doubleBuffer : Option Nat
  bufferSize : Nat
  width : Nat
  height : Nat
  pixelsPerScanline : Nat
  bytesPerPixel : Nat
  deriving Repr, DecidableEq

/-- `sizeof(Framebuffer)`. -/
def FRAMEBUFFER_SZ : Nat := 32

/-- `locate_gop`. -/
def locateGop : Boot (EfiStatus × Option Unit) := do
  let (status, gop) ← callInterface fw (.locateProtocol .graphicsOutput)
  report "Locate GOP failed" status
  return (status, gop)

/-- `get_framebuffer`. The sizes in pixels are `UINT16`s; `double_buffer` is set later. -/
def getFramebuffer : Boot (Option Framebuffer) := do
  let (status, gop) ← locateGop fw
  if status ≠ EFI_SUCCESS then
    return none
  let (status, framebuffer) ← allocatePool fw FRAMEBUFFER_SZ
  if status ≠ EFI_SUCCESS then
    printEfiErr "Allocating memory for framebuffer struct failed" status
    return none
  let _ ← deref framebuffer
  let _ ← deref gop
  return some
    { baseAddress := fw.mode.frameBufferBase
      doubleBuffer := none
      bufferSize := fw.mode.frameBufferSize
      width := fw.mode.horizontalResolution % 2 ^ 16
      height := fw.mode.verticalResolution % 2 ^ 16
      pixelsPerScanline := fw.mode.pixelsPerScanLine % 2 ^ 16
      bytesPerPixel := BYTES_PER_PIXEL }

/-- `allocate_double_framebuffer`. -/
def allocateDoubleFramebuffer (size : Nat) : Boot (Option Nat) := do
  let (status, buffer) ← allocatePool fw size
  if status ≠ EFI_SUCCESS then
    printEfiErr "Allocating memory for double framebuffer failed" status
    return none
  return buffer

def ACPI_TABLE_GUID : EfiGuid :=
  ⟨0xeb9d2d30, 0x2d88, 0x11d3, [0x9a, 0x16, 0x00, 0x90, 0x27, 0x3f, 0xc1, 0x4d]⟩

/-- `get_rsdp`. -/
def getRsdp : Option Nat :=
  (fw.configurationTable.find? fun entry => entry.vendorGuid = ACPI_TABLE_GUID).bind
    (·.vendorTable)

/-! ## Starting the kernel -/

/-- `MemoryData`. -/
structure MemoryData where
  memoryMap : Option Nat
  mapSz : Nat
  descriptorSz : Nat
  entries : Nat
  deriving Repr, DecidableEq

/-- `sizeof(MemoryData)`. -/
def MEMORY_DATA_SZ : Nat := 32

def KERNEL_STACK_SIZE : Nat := 0x1000

/-- `get_memory_map`: the status, the map, and what `GetMemoryMap` set. The caller's size is 0 and
its pointer null; the second call is told the size that the first one set. -/
def getMemoryMap : Boot (EfiStatus × Option Nat × MapInfo) := do
  let (status, info) ← getMemoryMapInto fw 0 none
  if status ≠ EFI_BUFFER_TOO_SMALL then
    printEfiErr "First GetMemoryMap() should return BUFFER_TO_SMALL" status
    return (EFI_ABORTED, none, info)
  let (status, mmap) ← allocatePool fw info.mapSize
  if status ≠ EFI_SUCCESS then
    printEfiErr "Allocation for memory map failed" status
    return (status, mmap, info)
  let (status, info) ← getMemoryMapInto fw info.mapSize mmap
  report "GetMemoryMap() failed" status
  return (status, mmap, info)

/-- `get_memory_data`, and the key of the map. -/
def getMemoryData : Boot (Option (MemoryData × Nat)) := do
  let (status, memoryData) ← allocatePool fw MEMORY_DATA_SZ
  report "Allocating memory for memory data struct failed" status
  let (status, mmap, info) ← getMemoryMap fw
  if status ≠ EFI_SUCCESS then
    return none
  let _ ← deref memoryData
  if info.descriptorSize = 0 then
    throw .divideByZero
  else
    let data : MemoryData :=
      { descriptorSz := info.descriptorSize
        mapSz := info.mapSize
        memoryMap := mmap
        entries := info.mapSize / info.descriptorSize }
    return some (data, info.mapKey)

/-- `allocate_memory_for_kernel_stack`. -/
def allocateMemoryForKernelStack : Boot (Option Nat) := do
  let (status, kernelStack) ← allocatePool fw KERNEL_STACK_SIZE
  report "Memory allocation for kernel stack failed" status
  return kernelStack

/-- `BootloaderData`. -/
structure BootloaderData where
  framebuffer : Framebuffer
  font : Psf1Font
  memory : MemoryData
  acpiRsdp : Nat
  deriving Repr, DecidableEq

/-- What `efi_main` starts the kernel with. -/
structure Loaded where
  framebuffer : Framebuffer
  psfFont : Psf1Font
  kernelAddr : Nat
  acpiRsdp : Nat
  deriving Repr, DecidableEq

/-- `start_kernel`: the address that it jumps to and the data that it passes, unless it returns. -/
def startKernel (loaded : Loaded) : Boot (Option (Nat × BootloaderData)) := do
  let kernelStack ← allocateMemoryForKernelStack fw
  if kernelStack.isNone then
    printErr "Kernel stack allocation failed"
    return none
  match ← getMemoryData fw with
  | none =>
    printErr "Memory data gathering failed"
    return none
  | some (memoryData, mmapKey) =>
    let status ← call fw (.exitBootServices mmapKey)
    if status ≠ EFI_SUCCESS then
      printEfiErr "ExitBootServices() failed" status
      return none
    return some
      (loaded.kernelAddr,
        { framebuffer := loaded.framebuffer
          font := loaded.psfFont
          memory := memoryData
          acpiRsdp := loaded.acpiRsdp })

/-- The step of `efi_main` that gets a pointer, and gives up where it is null. -/
def orGiveUp {α β : Type} (step : Boot (Option α)) (err ok : String)
    (rest : α → Boot (Option β)) : Boot (Option β) := do
  match ← step with
  | none =>
    printErr err
    return none
  | some a =>
    print ok
    rest a

/-- `efi_main` up to the start of the kernel. -/
def load : Boot (Option Loaded) := do
  print "[*] Starting bootloader... \n\r"
  let rootDir : Option Unit := none
  orGiveUp (loadFile fw rootDir "kernel.elf") "Loading kernel file error"
      "[+] Kernel file has been loaded successfully \n\r" fun kernelFile =>
  orGiveUp (loadKernelIntoMemory fw (some kernelFile)) "Loading kernel into memory error"
      "[+] Kernel has been successfully loaded into memory \n\r" fun kernelAddr =>
  orGiveUp (loadPsfFont fw rootDir "zap-light16.psf") "Psf font loading error"
      "[+] Psf font loaded successfully \n\r" fun psfFont =>
  orGiveUp (getFramebuffer fw) "Framebuffer initialization error"
      "[+] Framebuffer initialized successfully \n\r" fun framebuffer =>
  orGiveUp (allocateDoubleFramebuffer fw framebuffer.bufferSize)
      "Double framebuffer allocation error"
      "[+] Double framebuffer allocated successfully \n\r" fun doubleBuffer =>
  orGiveUp (pure (getRsdp fw)) "Obtaining RSDP of ACPI failed"
      "[+] RSDP of ACPI obtained successfully \n\r" fun acpiRsdp =>
  return some
    { framebuffer := { framebuffer with doubleBuffer := some doubleBuffer }
      psfFont := psfFont
      kernelAddr := kernelAddr
      acpiRsdp := acpiRsdp }

/-- How the bootloader ends. -/
inductive Ended
  | returned (status : EfiStatus)
  | jumped (kernelAddr : Nat) (bootloaderData : BootloaderData)
  deriving Repr, DecidableEq

/-- `efi_main`. -/
def efiMain : Boot Ended := do
  match ← load fw with
  | none => return .returned EFI_LOAD_ERROR
  | some loaded =>
    print "[*] Starting kernel... \n\r"
    match ← startKernel fw loaded with
    | none => return .returned EFI_SUCCESS
    | some (kernelAddr, bootloaderData) => return .jumped kernelAddr bootloaderData

end PrintOS.Bootloader
