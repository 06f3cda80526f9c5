import PrintOS.Memory.Heap
import PrintOS.Memory.PhysMem

/-!
# The heap in the machine's memory

`Heap` has a memory of its own, and a kernel that is a parameter. Here the kernel is the allocator
and the page tables of `PhysMem`, and the blocks are in the same memory as the bitmap and the
tables: `malloc` asks `kernel.pmem` for its frames and has `kernel.paging` map them, which may write
to a new table or to the bitmap, and then writes its headers to the frames.

What else happens to that memory is a call of the kernel's other clients, or a write. Accesses are to
physical addresses, as they are while what is accessed is mapped to itself; `Paged` has the calls of
`allocate_page` through the tables.
-/

namespace PrintOS

open ByteMemory (Mem Byte)

/-- `kernel.pmem` and `kernel.paging`, as the heap calls them. -/
def PhysMem.machine (PML4 : Nat) : Kernel PhysMem where
  requestFrame s := do
    let (frame, pmem) ← s.pmem.requestFrame
    return (frame, { s with pmem := pmem })
  requestFrames number s := do
    let (initFrame, pmem) ← s.pmem.requestFrames number
    return (initFrame, { s with pmem := pmem })
  allocatePage vaddr paddr s := s.allocatePage PML4 vaddr paddr

/-- The member `_blocks`, the kernel with its memory, and the page ranges obtained from it. -/
structure KernelHeap where
  blocks : Nat
  kernel : PhysMem
  obtained : List (Nat × Nat)

namespace KernelHeap

open Heap (setPrev setNext setIsFree setBytes linkBack header deref findFreeBlock
  findBlockCloseBeforeAddr allocatePages takeBlock mergeNext mergePrev)

/-- The memory of the machine. -/
def mem (s : KernelHeap) : Mem := s.kernel.mem

variable (PML4 : Nat)

/-- `Heap::Heap`. -/
def new (kernel : PhysMem) : Except Fault KernelHeap := do
  let (frame, kernel) ← (PhysMem.machine PML4).requestFrame kernel
  kassert (frame ≠ 0) "frame != nullptr"
  let kernel ← (PhysMem.machine PML4).allocatePage frame frame kernel
  let block := frame
  let mem := setIsFree kernel.mem block true
  let mem := setNext mem block 0
  let mem := setPrev mem block 0
  let mem := setBytes mem block (PAGE_SZ - BLOCK_HEADER_SZ)
  return { blocks := block, kernel := kernel.setMem mem, obtained := [(frame, 1)] }

/-- `malloc` where no free block is large enough. -/
def grow (bytes : Nat) (s : KernelHeap) : Except Fault KernelHeap := do
  let pages := bytes / PAGE_SZ + 1
  let (initBlock, kernel) ← (PhysMem.machine PML4).requestFrames pages s.kernel
  let kernel ← allocatePages (PhysMem.machine PML4) initBlock pages kernel
  let block := initBlock
  deref block
  let mem := setBytes kernel.mem block (sub64 (u64 (pages * PAGE_SZ)) BLOCK_HEADER_SZ)
  let mem := setIsFree mem block true
  let prevBlock ← findBlockCloseBeforeAddr mem s.blocks block
  let mem := setNext mem block (header mem prevBlock).next
  let mem := setPrev mem block prevBlock
  let mem := setNext mem prevBlock block
  let mem := linkBack mem (header mem block).next block
  return { s with kernel := kernel.setMem mem, obtained := s.obtained ++ [(initBlock, pages)] }

/-- `malloc` up to the block that it takes. -/
def findOrGrow (bytes : Nat) (s : KernelHeap) : Except Fault (Nat × KernelHeap) := do
  let block ← findFreeBlock s.mem s.blocks bytes
  if block = 0 then
    let s ← grow PML4 bytes s
    let block ← findFreeBlock s.mem s.blocks bytes
    kassert (block ≠ 0) "block != nullptr"
    return (block, s)
  else return (block, s)

/-- `Heap::malloc`. -/
def malloc (s : KernelHeap) (bytes : Nat) : Except Fault (Nat × KernelHeap) := do
  kassert (bytes > 0) "bytes > 0"
  let (block, s) ← findOrGrow PML4 bytes s
  let (ptr, mem) ← takeBlock s.mem block bytes
  return (ptr, { s with kernel := s.kernel.setMem mem })

/-- `Heap::free`. -/
def free (s : KernelHeap) (ptr : Nat) : Except Fault KernelHeap := do
  if ptr = 0 then return s
  else
    let block := sub64 ptr BLOCK_HEADER_SZ
    deref block
    let mem := setIsFree s.mem block true
    let mem := mergeNext mem block
    let mem ← mergePrev mem block
    return { s with kernel := s.kernel.setMem mem }

/-! ## The heap among the clients of the kernel -/

/-- The heap with its live allocations, as in `Heap.Session`. -/
structure Session where
  heap : KernelHeap
  live : List (Nat × Nat)

/-- The heap's two operations, and what the kernel's other clients do. -/
inductive Op where
  | malloc (bytes : Nat)
  | free (ptr : Nat)
  | kernel (op : PhysMem.Op)
  deriving Repr, DecidableEq

/-- One operation. -/
def step (s : Session) : Op → Except Fault Session
  | .malloc bytes => do
    let (ptr, heap) ← malloc PML4 s.heap bytes
    return { heap, live := (ptr, bytes) :: s.live }
  | .free ptr => do
    let heap ← free s.heap ptr
    return { heap, live := s.live.filter (·.1 ≠ ptr) }
  | .kernel op => do
    let kernel ← s.heap.kernel.step PML4 op
    return { s with heap := { s.heap with kernel := kernel } }

/-- The allocator does not hand out fewer frames than it is asked for. Where the free frames end
with the memory, `request_frames` may. -/
def AnsweredWhole (p : PMem) (pages : Nat) : Prop :=
  ∀ first last, p.findFrames pages = .ok (first, last) → last + 1 = first + pages

/-- The other clients free no frame of the heap, and map none of its pages anew. -/
def LeavesHeap (s : Session) : PhysMem.Op → Prop
  | .allocatePage vaddr _ =>
    ∀ x, Heap.Obtained s.heap.obtained x → PageIndexer.new x ≠ PageIndexer.new vaddr
  | .pmem (.freeFrame idx) => ∀ x, Heap.Obtained s.heap.obtained x → x / FRAME_SZ ≠ idx
  | .pmem _ => True
  | .write addr _ => ¬ Heap.Obtained s.heap.obtained addr

/-- What the clients of the heap and of the kernel may do. A write is to a live allocation, or it is
one that the kernel's other clients may do. -/
def Allowed (s : Session) : Op → Prop
  | .malloc bytes => 0 < bytes ∧ bytes < 2 ^ 64 ∧
    (findFreeBlock s.heap.mem s.heap.blocks bytes = .ok 0 →
      AnsweredWhole s.heap.kernel.pmem (bytes / PAGE_SZ + 1))
  | .free ptr => ∃ bytes, (ptr, bytes) ∈ s.live
  | .kernel op => (∃ addr v, op = .write addr v ∧ Heap.InPayload s.live addr) ∨
    s.heap.kernel.Adm PML4 op ∧ LeavesHeap s op

end KernelHeap

end PrintOS
