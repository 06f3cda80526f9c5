import PrintOS.Kutils.Assertions
import PrintOS.Libc.Stdlib
import PrintOS.Memory.Paging

/-!
# The kernel heap

A doubly linked list of blocks, each a 32-byte header before its data. `malloc` takes the first
free block that is large enough, whole or split in two; where there is none it asks for new
pages and links a block over them into the list. `free` marks a block and joins it to its list
neighbours where they are free and begin or end where it does.

Headers are bytes of memory, and every field is read and written there. A pointer that the
source has not compared with null on the way is checked where it is followed.

`kernel.pmem` and `kernel.paging` are parameters: any state `σ` with the three functions the
heap calls. What they write to memory (page tables, the frame bitmap) is outside the heap's
pages, and is left to the `write` operations of a run. `obtained` is not part of the source: it
lists the page ranges that requests have returned, each the address of the first page and the
number of pages.
-/

namespace PrintOS

open ByteMemory (Mem Byte)

/-- `struct BlockHeader`. -/
structure BlockHeader where
  prev : Nat
  next : Nat
  isFree : Bool
  bytes : Nat
  deriving Repr, DecidableEq

/-- `sizeof(BlockHeader)`: `is_free` is padded to a word. -/
def BLOCK_HEADER_SZ : Nat := 32

/-- `struct HeapStats`. -/
structure HeapStats where
  allBlocks : Nat
  freeBlocks : Nat
  allocatedBlocks : Nat
  deriving Repr, DecidableEq

/-- What the heap calls on `kernel.pmem` and `kernel.paging`. -/
structure Kernel (σ : Type) where
  requestFrame : σ → Except Fault (Nat × σ)
  requestFrames : Nat → σ → Except Fault (Nat × σ)
  allocatePage : Nat → Nat → σ → Except Fault σ

namespace Heap

/-! ## Headers in memory -/

/-- The header at an address. -/
def header (m : Mem) (block : Nat) : BlockHeader where
  prev := m.read64 block
  next := m.read64 (block + 8)
  isFree := m (block + 16) != 0
  bytes := m.read64 (block + 24)

def setPrev (m : Mem) (block prev : Nat) : Mem := m.write64 block prev

def setNext (m : Mem) (block next : Nat) : Mem := m.write64 (block + 8) next

def setIsFree (m : Mem) (block : Nat) (isFree : Bool) : Mem :=
  m.write (block + 16) (if isFree then 1 else 0)

def setBytes (m : Mem) (block bytes : Nat) : Mem := m.write64 (block + 24) bytes

/-- Following a pointer. -/
def deref (ptr : Nat) : Except Fault Unit :=
  if ptr = 0 then .error .nullDeref else .ok ()

/-- `if (next != nullptr) next->prev = block`. -/
def linkBack (m : Mem) (next block : Nat) : Mem :=
  if next ≠ 0 then setPrev m next block else m

/-- `get_block_data_addr`. -/
def getBlockDataAddr (block : Nat) : Nat := u64 (block + BLOCK_HEADER_SZ)

/-- `get_total_block_size`. -/
def getTotalBlockSize (m : Mem) (block : Nat) : Nat :=
  u64 (BLOCK_HEADER_SZ + (header m block).bytes)

/-- `are_blocks_contiguous`. -/
def areBlocksContiguous (m : Mem) (block nextBlock : Nat) : Bool :=
  if block = 0 ∨ nextBlock = 0 then false
  else u64 (block + getTotalBlockSize m block) == nextBlock

/-! ## Walks along the list

A walk is given more turns than there are addresses for blocks: one that needs them all has come
back to a block it was at, and goes round for ever. -/

/-- The number of addresses. -/
def ADDRESSES : Nat := 2 ^ 64

/-- The loop of `_find_free_block`. -/
def findFreeFrom (m : Mem) (bytes : Nat) : Nat → Nat → Except Fault Nat
  | 0, _ => .error .noReturn
  | turns + 1, block =>
    if (header m block).isFree = true ∧ (header m block).bytes ≥ bytes then .ok block
    else
      let block := (header m block).next
      if block ≠ 0 then findFreeFrom m bytes turns block else .ok 0

/-- `Heap::_find_free_block`, on the list from `blocks`. Null is no block. -/
def findFreeBlock (m : Mem) (blocks bytes : Nat) : Except Fault Nat := do
  kassert (blocks ≠ 0) "block != nullptr"
  findFreeFrom m bytes ADDRESSES blocks

/-- The loop of `_find_block_close_before_addr`, from a block on. -/
def closeBeforeFrom (m : Mem) (findBlockAddr : Nat) : Nat → Nat → Except Fault Nat
  | 0, _ => .error .noReturn
  | turns + 1, block =>
    if block ≠ 0 then
      -- the last block, there is no other chance
      if (header m block).next = 0 then .ok block
      else
        let currentBlockAddr := block
        let nextBlockAddr := (header m block).next
        -- the comment of the source says "between two blocks"; both comparisons are `<`
        if currentBlockAddr < findBlockAddr ∧ nextBlockAddr < findBlockAddr then .ok block
        else closeBeforeFrom m findBlockAddr turns (header m block).next
    else .error (.assertion "1 == 2")

/-- `Heap::_find_block_close_before_addr`, on the list from `blocks`. -/
def findBlockCloseBeforeAddr (m : Mem) (blocks addr : Nat) : Except Fault Nat :=
  closeBeforeFrom m addr ADDRESSES blocks

/-- The loop of `get_heap_stats`. -/
def statsFrom (m : Mem) : Nat → Nat → HeapStats → Except Fault HeapStats
  | 0, _, _ => .error .noReturn
  | turns + 1, block, stats =>
    if block ≠ 0 then
      let stats := { stats with allBlocks := u64 (stats.allBlocks + 1) }
      let stats :=
        if (header m block).isFree = true then
          { stats with freeBlocks := u64 (stats.freeBlocks + 1) }
        else { stats with allocatedBlocks := u64 (stats.allocatedBlocks + 1) }
      statsFrom m turns (header m block).next stats
    else .ok stats

/-- `Heap::get_heap_stats`, on the list from `blocks`. -/
def getHeapStats (m : Mem) (blocks : Nat) : Except Fault HeapStats :=
  statsFrom m ADDRESSES blocks { allBlocks := 0, freeBlocks := 0, allocatedBlocks := 0 }

/-! ## The operations -/

/-- The member `_blocks`, the memory of the heap, the rest of the kernel, and the page ranges
obtained from it. -/
structure State (σ : Type) where
  blocks : Nat
  mem : Mem
  kernel : σ
  obtained : List (Nat × Nat)

variable {σ : Type} (k : Kernel σ)

/-- `Heap::Heap`. -/
def new (kernel : σ) (mem : Mem) : Except Fault (State σ) := do
  let (frame, kernel) ← k.requestFrame kernel
  kassert (frame ≠ 0) "frame != nullptr"
  let kernel ← k.allocatePage frame frame kernel
  let block := frame
  let mem := setIsFree mem block true
  let mem := setNext mem block 0
  let mem := setPrev mem block 0
  let mem := setBytes mem block (PAGE_SZ - BLOCK_HEADER_SZ)
  return { blocks := block, mem, kernel, obtained := [(frame, 1)] }

/-- The loop of `malloc` that maps the new pages. -/
def allocatePages (initBlock pages : Nat) (kernel : σ) : Except Fault σ :=
  (List.range pages).foldlM (fun kernel i =>
    let page := u64 (initBlock + i * PAGE_SZ)
    k.allocatePage page page kernel) kernel

/-- `malloc` where no free block is large enough: new pages, and a free block over them linked
into the list. -/
def grow (bytes : Nat) (s : State σ) : Except Fault (State σ) := do
  let pages := bytes / PAGE_SZ + 1
  let (initBlock, kernel) ← k.requestFrames pages s.kernel
  let kernel ← allocatePages k initBlock pages kernel
  let block := initBlock
  deref block
  let mem := setBytes s.mem block (sub64 (u64 (pages * PAGE_SZ)) BLOCK_HEADER_SZ)
  let mem := setIsFree mem block true
  let prevBlock ← findBlockCloseBeforeAddr mem s.blocks block
  let mem := setNext mem block (header mem prevBlock).next
  let mem := setPrev mem block prevBlock
  let mem := setNext mem prevBlock block
  let mem := linkBack mem (header mem block).next block
  return { s with mem, kernel, obtained := s.obtained ++ [(initBlock, pages)] }

/-- `malloc` up to the block that it takes. -/
def findOrGrow (bytes : Nat) (s : State σ) : Except Fault (Nat × State σ) := do
  let block ← findFreeBlock s.mem s.blocks bytes
  if block = 0 then
    let s ← grow k bytes s
    let block ← findFreeBlock s.mem s.blocks bytes
    kassert (block ≠ 0) "block != nullptr"
    return (block, s)
  else return (block, s)

/-- `malloc` on the block that it takes: the whole block, or a new block split off its end. -/
def takeBlock (m : Mem) (block bytes : Nat) : Except Fault (Nat × Mem) := do
  if (header m block).bytes = bytes ∨ sub64 (header m block).bytes bytes ≤ BLOCK_HEADER_SZ then
    return (getBlockDataAddr block, setIsFree m block false)
  else
    let m := setIsFree m block false
    let newBlock := u64 (getBlockDataAddr block + bytes)
    deref newBlock
    let m := setIsFree m newBlock true
    let m := setBytes m newBlock (sub64 (sub64 (header m block).bytes bytes) BLOCK_HEADER_SZ)
    kassert ((header m newBlock).bytes > 0) "new_block->bytes > 0"
    let m := linkBack m (header m block).next newBlock
    let m := setNext m newBlock (header m block).next
    let m := setPrev m newBlock block
    let m := setBytes m block bytes
    let m := setNext m block newBlock
    return (getBlockDataAddr block, m)

/-- `Heap::malloc`. -/
def malloc (s : State σ) (bytes : Nat) : Except Fault (Nat × State σ) := do
  kassert (bytes > 0) "bytes > 0"
  let (block, s) ← findOrGrow k bytes s
  let (ptr, mem) ← takeBlock s.mem block bytes
  return (ptr, { s with mem })

/-- `free`, the merge with the next block. -/
def mergeNext (m : Mem) (block : Nat) : Mem :=
  if (header m block).next ≠ 0 ∧ (header m (header m block).next).isFree = true ∧
      areBlocksContiguous m block (header m block).next = true then
    let m := setBytes m block
      (u64 ((header m block).bytes + getTotalBlockSize m (header m block).next))
    let m := setNext m block (header m (header m block).next).next
    linkBack m (header m block).next block
  else m

/-- `free`, the merge with the previous block. Here `block->next` is followed without a test. -/
def mergePrev (m : Mem) (block : Nat) : Except Fault Mem := do
  if (header m block).prev ≠ 0 ∧ (header m (header m block).prev).isFree = true ∧
      areBlocksContiguous m (header m block).prev block = true then
    let m := setBytes m (header m block).prev
      (u64 ((header m (header m block).prev).bytes + getTotalBlockSize m block))
    let m := setNext m (header m block).prev (header m block).next
    deref (header m block).next
    return setPrev m (header m block).next (header m block).prev
  else return m

/-- `Heap::free`. -/
def free (s : State σ) (ptr : Nat) : Except Fault (State σ) := do
  if ptr = 0 then return s
  else
    let block := sub64 ptr BLOCK_HEADER_SZ
    deref block
    let mem := setIsFree s.mem block true
    let mem := mergeNext mem block
    let mem ← mergePrev mem block
    return { s with mem }

/-! ## The heap and its clients -/

/-- The heap with the live allocations: each pointer that `malloc` returned and that was not
freed since, with the size asked for. -/
structure Session (σ : Type) where
  heap : State σ
  live : List (Nat × Nat)

/-- What happens to the heap's memory: its two operations, and the writes of other code. -/
inductive Op where
  | malloc (bytes : Nat)
  | free (ptr : Nat)
  | write (addr : Nat) (v : Byte)
  deriving Repr, DecidableEq

/-- One operation. -/
def step (s : Session σ) : Op → Except Fault (Session σ)
  | .malloc bytes => do
    let (ptr, heap) ← malloc k s.heap bytes
    return { heap, live := (ptr, bytes) :: s.live }
  | .free ptr => do
    let heap ← free s.heap ptr
    return { heap, live := s.live.filter (·.1 ≠ ptr) }
  | .write addr v => .ok { s with heap := { s.heap with mem := s.heap.mem.write addr v } }

/-- The byte is in a page range that the heap obtained. -/
def Obtained (obtained : List (Nat × Nat)) (x : Nat) : Prop :=
  ∃ r ∈ obtained, r.1 ≤ x ∧ x < r.1 + r.2 * PAGE_SZ

/-- The byte is in a live allocation. -/
def InPayload (live : List (Nat × Nat)) (x : Nat) : Prop :=
  ∃ a ∈ live, a.1 ≤ x ∧ x < a.1 + a.2

/-- Clients ask for some bytes, free live pointers, and write to live allocations; other code
writes outside the heap's pages. -/
def Allowed (s : Session σ) : Op → Prop
  | .malloc bytes => 0 < bytes ∧ bytes < 2 ^ 64
  | .free ptr => ∃ bytes, (ptr, bytes) ∈ s.live
  | .write addr _ => InPayload s.live addr ∨ ¬ Obtained s.heap.obtained addr

instance (live : List (Nat × Nat)) (x : Nat) : Decidable (InPayload live x) :=
  inferInstanceAs (Decidable (∃ a ∈ live, _))

instance (obtained : List (Nat × Nat)) (x : Nat) : Decidable (Obtained obtained x) :=
  inferInstanceAs (Decidable (∃ r ∈ obtained, _))

instance (s : Session σ) : (op : Op) → Decidable (Allowed s op)
  | .malloc bytes => inferInstanceAs (Decidable (0 < bytes ∧ bytes < 2 ^ 64))
  | .free ptr => decidable_of_iff (ptr ∈ s.live.map Prod.fst) (by simp [Allowed])
  | .write addr _ =>
    inferInstanceAs (Decidable (InPayload s.live addr ∨ ¬ Obtained s.heap.obtained addr))

end Heap

end PrintOS
