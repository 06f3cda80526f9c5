import PrintOS.Lib.FourLevel
import PrintOS.Memory.PagingInit
import PrintOS.Memory.PhysMem

/-!
# Memory through the page tables

Once `cr3` is loaded the processor takes every address through the tables, and stops with a page
fault where it finds no page. `PhysMem` has `allocate_page` on physical addresses; here is the same
code with the walk before each access, and the constructor of `Paging`, which loads `cr3` before its
last call of `allocate_page`. What that call accesses is in the new tables, or it faults: the
entries, the bytes of the bitmap, and the frame of a table that it clears.

The members of the objects, the stack and the code are values here and no part of the memory.
-/

namespace PrintOS

open ByteMemory (Mem Byte)

namespace Paged

variable (PML4 : Nat)

/-! ## Accesses -/

/-- The physical address that an address is on. -/
def access (m : Mem) (addr : Nat) : Except Fault Nat :=
  match FourLevel.translate m PML4 addr with
  | some paddr => .ok paddr
  | none => .error .pageFault

/-- A byte is read. -/
def read (m : Mem) (addr : Nat) : Except Fault Byte := do
  let paddr ← access PML4 m addr
  return m paddr

/-- A byte is written. -/
def write (m : Mem) (addr : Nat) (v : Byte) : Except Fault Mem := do
  let paddr ← access PML4 m addr
  return m.write paddr v

/-- An entry is read. It is on one page, as tables are pages. -/
def read64 (m : Mem) (addr : Nat) : Except Fault Nat := do
  let paddr ← access PML4 m addr
  return m.read64 paddr

/-- An entry is written. -/
def write64 (m : Mem) (addr v : Nat) : Except Fault Mem := do
  let paddr ← access PML4 m addr
  return m.write64 paddr v

/-- `memset`. -/
def memset (m : Mem) (p : Nat) (v : Byte) : Nat → Except Fault Mem
  | 0 => .ok m
  | n + 1 => do
    let m ← write PML4 m p v
    memset m (p + 1) v n

/-! ## The allocator -/

/-- `Bitmap::get`. -/
def get (b : Bitmap) (m : Mem) (idx : Nat) : Except Fault Bool := do
  let rest := idx % 8
  let byte ← read PML4 m (b.byteAddr idx)
  return byte &&& 0x1#8 <<< rest != 0#8

/-- `Bitmap::set`. -/
def set (b : Bitmap) (m : Mem) (idx : Nat) : Except Fault Mem := do
  let rest := idx % 8
  let addr := b.byteAddr idx
  let byte ← read PML4 m addr
  write PML4 m addr (setBit byte rest)

/-- `PMem::lock_frame`. -/
def lockFrame (p : PMem) (idx : Nat) : Except Fault PMem := do
  if (← get PML4 p.bitmap p.mem idx) = false then
    let mem ← set PML4 p.bitmap p.mem idx
    return { p with
      mem := mem
      freeFrames := sub64 p.freeFrames 1
      lockedFrames := u64 (p.lockedFrames + 1) }
  else return p

/-- The search of `request_frame`, over the indices that are left. -/
def findFree (p : PMem) : List Nat → Except Fault (Option Nat)
  | [] => .ok none
  | i :: is => do
    if (← get PML4 p.bitmap p.mem i) = false then return some i
    else findFree p is

/-- `PMem::request_frame`. -/
def requestFrame (p : PMem) : Except Fault (Nat × PMem) := do
  kassert (p.freeFrames > 0) "this->__free_frames > 0"
  match ← findFree PML4 p (List.range' p.lastFreeIdx (p.frames - p.lastFreeIdx)) with
  | some i =>
    let p ← lockFrame PML4 p i
    return (PMem.idxToFramePtr i, { p with lastFreeIdx := i })
  | none => return (0, p)

/-! ## `allocate_page` -/

/-- The assignments to an entry. -/
def setEntry (m : Mem) (addr frame : Nat) : Except Fault Mem := do
  let m ← write64 PML4 m addr (BitField.set 12 32 frame (← read64 PML4 m addr))
  let m ← write64 PML4 m addr (BitField.set 0 1 1 (← read64 PML4 m addr))
  write64 PML4 m addr (BitField.set 1 1 1 (← read64 PML4 m addr))

/-- One upper level of `allocate_page`. -/
def getOrCreate (text : String) (addr : Nat) (s : PhysMem) : Except Fault (Nat × PhysMem) := do
  let entry ← read64 PML4 s.mem addr
  if presentField entry = 0 then
    let (table, pmem) ← requestFrame PML4 s.pmem
    kassert (table ≠ 0) text
    let mem ← memset PML4 pmem.mem table 0 PAGE_SZ
    let mem ← setEntry PML4 mem addr (table >>> PAGE_OFFSET_BITS)
    return (table, { pmem := { pmem with mem := mem }, taken := s.taken ++ [table] })
  else
    return (tableAddr entry, s)

/-- `Paging::allocate_page`. -/
def allocatePage (vaddr paddr : Nat) (s : PhysMem) : Except Fault PhysMem := do
  let index := PageIndexer.new vaddr
  let (PDPT, s) ← getOrCreate PML4 "PDPT != nullptr" (Paging.entryAddr PML4 index.pml4) s
  let (PD, s) ← getOrCreate PML4 "PD != nullptr" (Paging.entryAddr PDPT index.pdpt) s
  let (PT, s) ← getOrCreate PML4 "PT != nullptr" (Paging.entryAddr PD index.pd) s
  let mem ← setEntry PML4 s.mem (Paging.entryAddr PT index.pt) (paddr >>> PAGE_OFFSET_BITS)
  return s.setMem mem

end Paged

/-! ## The constructor -/

namespace PhysMem

/-- The loop of `__identity_paging`, for the turns that are left. -/
def identityFrom (PML4 : Nat) : Nat → Nat → PhysMem → Except Fault PhysMem
  | 0, _, s => .ok s
  | turns + 1, addr, s => do
    let s ← s.allocatePage PML4 addr addr
    identityFrom PML4 turns (u64 (addr + PAGE_SZ)) s

/-- `Paging::init`, before `cr3` is loaded: `__identity_paging` for each of the ranges. -/
def init (PML4 : Nat) (kernel : KernelData) (s : PhysMem) : Except Fault PhysMem :=
  (Paging.ranges kernel).foldlM
    (fun s range => identityFrom PML4 (range.2 / (PAGE_SZ + 1) + 1) range.1 s) s

/-- The PML4 is cleared. -/
def clear (PML4 : Nat) (s : PhysMem) : PhysMem := s.setMem (memset s.mem PML4 0 (8 * 512))

end PhysMem

namespace Paged

/-- `test_addr` of the constructor. -/
def testAddr : Nat := 0x99999999999

/-- `Paging::Paging`, which answers whether the test has failed and `kpanic` is called. -/
def new (PML4 : Nat) (kernel : KernelData) (s : PhysMem) : Except Fault (Bool × PhysMem) := do
  let s ← (s.clear PML4).init PML4 kernel
  -- `cr3` is loaded: what follows goes through the tables
  let s ← allocatePage PML4 testAddr 0 s
  let mem ← write PML4 s.mem testAddr 123
  let byte ← read PML4 mem testAddr
  return (byte != 123, s.setMem mem)

end Paged

end PrintOS
