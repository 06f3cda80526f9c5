import PrintOS.Kutils.Bitmap
import PrintOS.Memory.Mmap

/-!
# The physical memory allocator

One bit a frame: set is locked, clear is free. Two counters follow the bits, and
`lastFreeIdx` is where the next search starts. The constructor locks every frame, frees the
frames of the usable descriptors, and locks again what must stay: frame 0, the frame of
`kernel.stack`, and a range counted from the bitmap's public member `buf`.

The bitmap's bytes are in physical memory, which the object does not own: `mem` is that
memory. `handed` is not part of the source. It names the frames that a request passes to
`lock_frame` for its caller, which the laws about ownership speak of.
-/

namespace PrintOS

open ByteMemory (Mem)

/-- `class PMem`, with the memory that its bitmap is in. -/
structure PMem where
  lastFreeIdx : Nat
  freeFrames : Nat
  lockedFrames : Nat
  frames : Nat
  bitmap : Bitmap
  mem : Mem

namespace PMem

/-- The bit of a frame: `true` is locked. -/
def locked (p : PMem) (idx : Nat) : Bool := p.bitmap.get p.mem idx

/-- `PMem::ptr_to_frame_idx`. -/
def ptrToFrameIdx (ptr : Nat) : Nat := ptr / FRAME_SZ

/-- `PMem::idx_to_frame_ptr`. -/
def idxToFramePtr (idx : Nat) : Nat := u64 (idx * FRAME_SZ)

/-- `PMem::free_frame`. -/
def freeFrame (p : PMem) (idx : Nat) : PMem :=
  if p.bitmap.get p.mem idx = true then
    { p with
      mem := p.bitmap.unset p.mem idx
      freeFrames := u64 (p.freeFrames + 1)
      lockedFrames := sub64 p.lockedFrames 1 }
  else p

/-- `PMem::lock_frame`. -/
def lockFrame (p : PMem) (idx : Nat) : PMem :=
  if p.bitmap.get p.mem idx = false then
    { p with
      mem := p.bitmap.set p.mem idx
      freeFrames := sub64 p.freeFrames 1
      lockedFrames := u64 (p.lockedFrames + 1) }
  else p

/-! ## Construction -/

/-- `PMem::__init_bitmap`, for an object whose `__bitmap.__buf` lies at `self`. -/
def initBitmap (mmap : MemoryMap) (self : Nat) (mem : Mem) : Except Fault (Bitmap × Mem) := do
  let (freeMemSz, freeMem) := mmap.getLargestFreeSeg
  kassert (freeMemSz > 0) "free_mem_sz > 0"
  let pageFrames := mmap.getPageFramesNumber
  kassert (pageFrames > 0) "page_frames > 0"
  kassert (freeMemSz > pageFrames / 8) "free_mem_sz > page_frames / 8"
  return Bitmap.new self freeMem pageFrames mem

/-- The frame index of page `n` of a descriptor. -/
def descFrame (desc : EfiMMapDesc) (n : Nat) : Nat :=
  ptrToFrameIdx (u64 (desc.paddr + n * FRAME_SZ))

/-- The loop that frees the usable frames. -/
def freeUsable (p : PMem) (descs : List EfiMMapDesc) : PMem :=
  descs.foldl (fun p desc =>
    if desc.isUsableMemory then
      (List.range desc.pages).foldl (fun p n => p.freeFrame (descFrame desc n)) p
    else p) p

/-- The loop that locks the frames where the bitmap is meant to be. -/
def lockBitmap (p : PMem) : PMem :=
  let startFrameIdx := ptrToFrameIdx p.bitmap.buf
  (List.range (p.bitmap.getMemSize / FRAME_SZ)).foldl
    (fun p i => p.lockFrame (startFrameIdx + i)) p

/-- The object as the constructor's first three lines leave it. -/
def begin (mmap : MemoryMap) (bitmap : Bitmap) (mem : Mem) : PMem where
  lastFreeIdx := 0
  freeFrames := mmap.getPageFramesNumber
  lockedFrames := 0
  frames := mmap.getPageFramesNumber
  bitmap := bitmap
  mem := mem

/-- The object at the start of the constructor's body, its members initialised. -/
def start (mmap : MemoryMap) (self : Nat) (mem : Mem) : PMem :=
  let made := Bitmap.new self mmap.getLargestFreeSeg.2 mmap.getPageFramesNumber mem
  begin mmap made.1 made.2

/-- The constructor's loops and its single locks, in their order. -/
def initFrames (p : PMem) (descs : List EfiMMapDesc) (stack : Nat) : PMem :=
  let p := (List.range p.frames).foldl lockFrame p
  let p := p.freeUsable descs
  let p := p.lockFrame 0
  let p := p.lockFrame (ptrToFrameIdx stack)
  p.lockBitmap

/-- `PMem::PMem`, for `kernel.mmap`, `kernel.stack` and the address of the object's
`__bitmap.__buf`. -/
def new (mmap : MemoryMap) (stack self : Nat) (mem : Mem) : Except Fault PMem := do
  let (bitmap, mem) ← initBitmap mmap self mem
  let p := begin mmap bitmap mem
  kassert (p.frames > 0) "this->__frames > 0"
  let p := p.initFrames mmap.descs stack
  kassert (p.lockedFrames > 0) "this->locked_frames > 0"
  kassert (p.freeFrames > 0) "this->free_frames > 0"
  kassert (p.bitmap.get p.mem 0 = true) "this->__bitmap.get(0) == true"
  return p

/-! ## Requests -/

/-- The search of `request_frame`: the first free frame from the hint on. -/
def findFree (p : PMem) : Option Nat :=
  (List.range' p.lastFreeIdx (p.frames - p.lastFreeIdx)).find? fun i => !p.bitmap.get p.mem i

/-- `PMem::request_frame`. -/
def requestFrame (p : PMem) : Except Fault (Nat × PMem) := do
  kassert (p.freeFrames > 0) "this->__free_frames > 0"
  match p.findFree with
  | some i => return (idxToFramePtr i, { p.lockFrame i with lastFreeIdx := i })
  | none => return (0, p)

/-- The search loop of `request_frames` from index `i` on, over `free_start_idx` and
`free_end_idx`. The first argument counts the turns left before `i` reaches `__frames`. -/
def searchRun (isLocked : Nat → Bool) (number : Nat) : Nat → Nat → Nat → Nat → Nat × Nat
  | 0, _, freeStartIdx, freeEndIdx => (freeStartIdx, freeEndIdx)
  | turns + 1, i, freeStartIdx, freeEndIdx =>
    -- enough frames found: leave the loop
    if freeStartIdx > 0 ∧ i - freeStartIdx = number then (freeStartIdx, i - 1)
    else if freeStartIdx > 0 ∧ isLocked i = false then
      searchRun isLocked number turns (i + 1) freeStartIdx i
    else if isLocked i = true then searchRun isLocked number turns (i + 1) 0 freeEndIdx
    else if freeStartIdx = 0 then searchRun isLocked number turns (i + 1) i i
    else searchRun isLocked number turns (i + 1) freeStartIdx freeEndIdx

/-- `request_frames` up to its lock loop: the search and the assertions on what it found. -/
def findFrames (p : PMem) (number : Nat) : Except Fault (Nat × Nat) := do
  kassert (number > 0) "number > 0"
  let (freeStartIdx, freeEndIdx) :=
    searchRun (p.bitmap.get p.mem) number (p.frames - p.lastFreeIdx) p.lastFreeIdx 0 0
  kassert (freeStartIdx > 0) "free_start_idx > 0"
  kassert (freeEndIdx > 0) "free_end_idx > 0"
  kassert (sub64 freeStartIdx freeEndIdx ≥ number) "free_start_idx - free_end_idx >= number"
  return (freeStartIdx, freeEndIdx)

/-- The indices of a `for (i = first; i <= last; i++)` loop. -/
def frameRange (first last : Nat) : List Nat := List.range' first (last + 1 - first)

/-- `PMem::request_frames`. -/
def requestFrames (p : PMem) (number : Nat) : Except Fault (Nat × PMem) := do
  let (freeStartIdx, freeEndIdx) ← p.findFrames number
  let p := (frameRange freeStartIdx freeEndIdx).foldl lockFrame p
  return (idxToFramePtr freeStartIdx, p)

/-! ## The allocator as a state machine -/

/-- A call of the allocator's public interface. -/
inductive Op where
  | requestFrame
  | requestFrames (number : Nat)
  | lockFrame (idx : Nat)
  | freeFrame (idx : Nat)
  deriving Repr, DecidableEq

/-- One call, its answer forgotten. -/
def step (p : PMem) : Op → Except Fault PMem
  | .requestFrame => (·.2) <$> p.requestFrame
  | .requestFrames number => (·.2) <$> p.requestFrames number
  | .lockFrame idx => .ok (p.lockFrame idx)
  | .freeFrame idx => .ok (p.freeFrame idx)

/-- Callers lock and free frames of the machine only. -/
def InRange (p : PMem) : Op → Prop
  | .lockFrame idx => idx < p.frames
  | .freeFrame idx => idx < p.frames
  | _ => True

/-- The frames that a call locks for its caller. -/
def handed (p : PMem) : Op → List Nat
  | .requestFrame => if p.freeFrames > 0 then p.findFree.toList else []
  | .requestFrames number =>
    match p.findFrames number with
    | .ok (first, last) => frameRange first last
    | .error _ => []
  | _ => []

end PMem

end PrintOS
