import PrintOS.Memory.PMem
import PrintOS.Memory.Paging

/-!
# The allocator and the page tables in one memory

`PMem` keeps its bitmap in physical memory, and `Paging` its tables: in the same one, which the
clients of the kernel write to as well. Here `allocate_page` takes its frames from
`kernel.pmem->request_frame`, and every access is to the memory that the bitmap is in. So a table
that is cleared can clear bits of the bitmap, and a bit that is set can be one of an entry.

`Paging.State` has a memory for each of the two. `stepApart` is the kernel with these: it is no code
of the source, but what the laws compare the one memory with.
-/

namespace PrintOS

open ByteMemory (Mem Byte)

/-- `kernel.pmem`, whose `mem` is the memory of the machine, and the frames that were taken for
tables so far. These are not part of the source. -/
structure PhysMem where
  pmem : PMem
  taken : List Nat

namespace PhysMem

/-- The memory of the machine. -/
def mem (s : PhysMem) : Mem := s.pmem.mem

/-- A write to the memory of the machine. -/
def setMem (s : PhysMem) (mem : Mem) : PhysMem := { s with pmem := { s.pmem with mem := mem } }

/-- One upper level of `allocate_page`: the table below the entry at `addr`, made if it is not
present. -/
def getOrCreate (text : String) (addr : Nat) (s : PhysMem) : Except Fault (Nat × PhysMem) := do
  if presentField (s.mem.read64 addr) = 0 then
    let (table, pmem) ← s.pmem.requestFrame
    kassert (table ≠ 0) text
    let mem := memset pmem.mem table 0 PAGE_SZ
    let mem := Paging.setEntry mem addr (table >>> PAGE_OFFSET_BITS)
    return (table, { pmem := { pmem with mem := mem }, taken := s.taken ++ [table] })
  else
    return (tableAddr (s.mem.read64 addr), s)

/-- `Paging::allocate_page`. -/
def allocatePage (PML4 vaddr paddr : Nat) (s : PhysMem) : Except Fault PhysMem := do
  let index := PageIndexer.new vaddr
  let (PDPT, s) ← getOrCreate "PDPT != nullptr" (Paging.entryAddr PML4 index.pml4) s
  let (PD, s) ← getOrCreate "PD != nullptr" (Paging.entryAddr PDPT index.pdpt) s
  let (PT, s) ← getOrCreate "PT != nullptr" (Paging.entryAddr PD index.pd) s
  return s.setMem (Paging.setEntry s.mem (Paging.entryAddr PT index.pt) (paddr >>> PAGE_OFFSET_BITS))

/-! ## What may happen in any order -/

/-- A call of `allocate_page`, a call of the allocator, or a client's write to a byte. -/
inductive Op where
  | allocatePage (vaddr paddr : Nat)
  | pmem (op : PMem.Op)
  | write (addr : Nat) (v : Byte)
  deriving Repr, DecidableEq

def step (PML4 : Nat) (s : PhysMem) : Op → Except Fault PhysMem
  | .allocatePage vaddr paddr => s.allocatePage PML4 vaddr paddr
  | .pmem op => (fun pmem => { s with pmem := pmem }) <$> s.pmem.step op
  | .write addr v => .ok (s.setMem (s.mem.write addr v))

/-- A byte of the bitmap: it has the bit of a frame. -/
def BitmapByte (p : PMem) (x : Nat) : Prop :=
  p.bitmap.privBuf ≤ x ∧ x < p.bitmap.privBuf + (p.frames + 7) / 8

/-- A byte of a table. -/
def InTable (PML4 : Nat) (taken : List Nat) (x : Nat) : Prop :=
  ∃ t ∈ PML4 :: taken, t ≤ x ∧ x < t + PAGE_SZ

/-- The frames that the kernel keeps to itself: frame 0, those of the bitmap and those of the
tables. -/
def Kept (PML4 : Nat) (s : PhysMem) (idx : Nat) : Prop :=
  idx = 0 ∨ ∃ x, x / FRAME_SZ = idx ∧ (BitmapByte s.pmem x ∨ InTable PML4 s.taken x)

/-- The clients write to memory that is not the kernel's own and free no frame of it. Physical
addresses that are mapped have 44 bits. -/
def Adm (PML4 : Nat) (s : PhysMem) : Op → Prop
  | .allocatePage _ paddr => paddr < 2 ^ 44
  | .pmem (.freeFrame idx) => idx < s.pmem.frames ∧ ¬ s.Kept PML4 idx
  | .pmem op => s.pmem.InRange op
  | .write addr _ => ¬ BitmapByte s.pmem addr ∧ ¬ InTable PML4 s.taken addr

/-! ## Two memories -/

/-- The same calls where the bitmap and the tables are in a memory each. A client writes to
neither. -/
def stepApart (PML4 : Nat) (s : Paging.State PMem) : Op → Except Fault (Paging.State PMem)
  | .allocatePage vaddr paddr => Paging.allocatePage PMem.requestFrame PML4 vaddr paddr s
  | .pmem op => (fun pmem => { s with pmem := pmem }) <$> s.pmem.step op
  | .write _ _ => .ok s

end PhysMem

end PrintOS
