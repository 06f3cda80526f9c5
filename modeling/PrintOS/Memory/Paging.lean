import PrintOS.Kutils.Assertions
import PrintOS.Lib.BitField
import PrintOS.Libc.Stdlib
import PrintOS.Memory.Mmap

/-!
# Four-level paging

Tables are pages of 512 eight-byte entries in memory. `allocate_page` walks from the PML4 down
to the page table of an address, making the tables that are missing, and sets the page's
entry; `is_page_allocated` walks the same way and reads. `__identity_paging` maps the pages of a
range to themselves, one call of `allocate_page` for each.

The three upper levels run the same lines, on entries whose fields `present`, `rw` and the
32-bit address field are at the same bits in all four entry types. They are one definition,
`getOrCreate`, given the text of the level's assertion.

Frames come from `kernel.pmem`, which is a parameter: any state `σ` with its `request_frame`.
`taken` is not part of the source: it lists the frames that were taken, for the laws.
-/

namespace PrintOS

open ByteMemory (Mem)

/-- `PagingConsts::PAGE_SZ`. -/
def PAGE_SZ : Nat := FRAME_SZ

def PAGE_OFFSET_BITS : Nat := 12

def BITS_9_MASK : Nat := 0x1ff

/-- `PageIndexer`: the four table indices of an address. -/
structure PageIndexer where
  pml4 : Nat
  pdpt : Nat
  pd : Nat
  pt : Nat
  deriving Repr, DecidableEq

/-- `PageIndexer::PageIndexer`. -/
def PageIndexer.new (vaddr : Nat) : PageIndexer :=
  let vaddr := vaddr >>> PAGE_OFFSET_BITS
  let pt := vaddr &&& BITS_9_MASK
  let vaddr := vaddr >>> 9
  let pd := vaddr &&& BITS_9_MASK
  let vaddr := vaddr >>> 9
  let pdpt := vaddr &&& BITS_9_MASK
  let vaddr := vaddr >>> 9
  let pml4 := vaddr &&& BITS_9_MASK
  { pml4, pdpt, pd, pt }

/-- The field `present` of an entry. -/
def presentField (entry : Nat) : Nat := BitField.get 0 1 entry

/-- The field `rw` of an entry. -/
def rwField (entry : Nat) : Nat := BitField.get 1 1 entry

/-- The 32-bit address field of an entry: `pdpt_addr`, `pd_addr`, `pt_addr` or `page_addr`. -/
def addrField (entry : Nat) : Nat := BitField.get 12 32 entry

/-- The table that an entry points at. The address field is a bit-field of 32 bits, which is
promoted to `unsigned int`: the shift is done in 32 bits. -/
def tableAddr (entry : Nat) : Nat := (addrField entry <<< PAGE_OFFSET_BITS) % 2 ^ 32

namespace Paging

/-- The address of an entry of a table. -/
def entryAddr (table idx : Nat) : Nat := table + 8 * idx

/-- An entry of a table. -/
def entry (m : Mem) (table idx : Nat) : Nat := m.read64 (entryAddr table idx)

/-- The assignments to an entry: its address field, then `present`, then `rw`, each a read and
a write of the word. -/
def setEntry (m : Mem) (addr frame : Nat) : Mem :=
  let m := m.write64 addr (BitField.set 12 32 frame (m.read64 addr))
  let m := m.write64 addr (BitField.set 0 1 1 (m.read64 addr))
  m.write64 addr (BitField.set 1 1 1 (m.read64 addr))

/-- `Paging::is_page_allocated`, for a PML4 at `PML4`. -/
def isPageAllocated (PML4 : Nat) (m : Mem) (vaddr : Nat) : Bool :=
  let index := PageIndexer.new vaddr
  let pml4Entry := entry m PML4 index.pml4
  if presentField pml4Entry = 0 then false
  else
    let PDPT := tableAddr pml4Entry
    let pdptEntry := entry m PDPT index.pdpt
    if presentField pdptEntry = 0 then false
    else
      let PD := tableAddr pdptEntry
      let pdEntry := entry m PD index.pd
      if presentField pdEntry = 0 then false
      else
        let PT := tableAddr pdEntry
        let ptEntry := entry m PT index.pt
        presentField ptEntry != 0

/-- The memory, the physical allocator, and the frames taken from it so far. -/
structure State (σ : Type) where
  mem : Mem
  pmem : σ
  taken : List Nat

variable {σ : Type} (requestFrame : σ → Except Fault (Nat × σ))

/-- One upper level of `allocate_page`: the table below the entry at `addr`, made if it is not
present. -/
def getOrCreate (text : String) (addr : Nat) (s : State σ) : Except Fault (Nat × State σ) := do
  if presentField (s.mem.read64 addr) = 0 then
    let (table, pmem) ← requestFrame s.pmem
    kassert (table ≠ 0) text
    let mem := memset s.mem table 0 PAGE_SZ
    let mem := setEntry mem addr (table >>> PAGE_OFFSET_BITS)
    return (table, { mem := mem, pmem := pmem, taken := s.taken ++ [table] })
  else
    return (tableAddr (s.mem.read64 addr), s)

/-- `Paging::allocate_page`. -/
def allocatePage (PML4 vaddr paddr : Nat) (s : State σ) : Except Fault (State σ) := do
  let index := PageIndexer.new vaddr
  let (PDPT, s) ← getOrCreate requestFrame "PDPT != nullptr" (entryAddr PML4 index.pml4) s
  let (PD, s) ← getOrCreate requestFrame "PD != nullptr" (entryAddr PDPT index.pdpt) s
  let (PT, s) ← getOrCreate requestFrame "PT != nullptr" (entryAddr PD index.pd) s
  return { s with mem := setEntry s.mem (entryAddr PT index.pt) (paddr >>> PAGE_OFFSET_BITS) }

/-- The loop of `__identity_paging`, for the turns that are left. -/
def identityFrom (PML4 : Nat) : Nat → Nat → State σ → Except Fault (State σ)
  | 0, _, s => .ok s
  | turns + 1, addr, s => do
    let s ← allocatePage requestFrame PML4 addr addr s
    identityFrom PML4 turns (u64 (addr + PAGE_SZ)) s

/-- `Paging::__identity_paging`. The number of turns is not `n` rounded up to pages. -/
def identityPaging (PML4 addr n : Nat) (s : State σ) : Except Fault (State σ) :=
  identityFrom requestFrame PML4 (n / (PAGE_SZ + 1) + 1) addr s

/-- A call of `allocate_page`, as a step: the pair of its arguments. -/
def step (PML4 : Nat) (s : State σ) (call : Nat × Nat) : Except Fault (State σ) :=
  allocatePage requestFrame PML4 call.1 call.2 s

end Paging

end PrintOS
