import PrintOS.Kutils.Assertions
import PrintOS.Libc.Stdlib

/-!
# The firmware's memory map

The bootloader passes the UEFI memory map on as an array of descriptors. The kernel reads the
type, the physical start and the page count of each; the array is a list here, and its
stride is not modelled.

`getEntireMemorySize` looks at the last descriptor only, while UEFI promises no order.
-/

namespace PrintOS

/-- `PMemConsts::FRAME_SZ`. -/
def FRAME_SZ : Nat := 4096

/-- `EfiMemoryType` of `memory/mmap.hpp`, in the order of its codes. -/
inductive EfiMemoryType where
  | reservedMemoryType | loaderCode | loaderData | bootServicesCode | bootServicesData
  | runtimeServicesCode | runtimeServicesData | conventionalMemory | unusableMemory
  | acpiReclaimMemory | acpiMemoryNvs | memoryMappedIo | memoryMappedIoPortSpace | palCode
  | maxMemoryType
  deriving Repr, DecidableEq

/-- The enumerator's `u32` code. -/
def EfiMemoryType.code (t : EfiMemoryType) : Nat := t.ctorIdx

/-- `EfiMMapDesc`, the fields the kernel reads. The type is the raw code. -/
structure EfiMMapDesc where
  type : Nat
  paddr : Nat
  pages : Nat
  deriving Repr, DecidableEq

namespace EfiMMapDesc

/-- `MemoryMap::is_usable_memory`. -/
def isUsableMemory (desc : EfiMMapDesc) : Bool :=
  desc.type == EfiMemoryType.conventionalMemory.code ||
  desc.type == EfiMemoryType.bootServicesCode.code ||
  desc.type == EfiMemoryType.bootServicesData.code

/-- One past the last byte that a descriptor covers. -/
def stop (desc : EfiMMapDesc) : Nat := desc.paddr + FRAME_SZ * desc.pages

/-- What UEFI says of every descriptor: it starts on a page, it is not empty, and its last
page still has an address. -/
structure WellFormed (desc : EfiMMapDesc) : Prop where
  aligned : desc.paddr % FRAME_SZ = 0
  pages_pos : 0 < desc.pages
  stop_le : desc.stop ≤ 2 ^ 64

end EfiMMapDesc

/-- `class MemoryMap`. Its constructor asserts that there is a descriptor. -/
structure MemoryMap where
  descs : List EfiMMapDesc
  entries_pos : 0 < descs.length

namespace MemoryMap

/-- The constructor. -/
def new (descs : List EfiMMapDesc) : Except Fault MemoryMap :=
  if h : 0 < descs.length then .ok ⟨descs, h⟩ else .error (.assertion "data.entries > 0")

/-- `get_desc(entries - 1)`. -/
def lastDesc (mmap : MemoryMap) : EfiMMapDesc :=
  mmap.descs.getLast (List.ne_nil_of_length_pos mmap.entries_pos)

/-- `MemoryMap::__get_entire_memory_size`: the end of the last descriptor and one frame more. -/
def getEntireMemorySize (mmap : MemoryMap) : Nat :=
  u64 (mmap.lastDesc.paddr + FRAME_SZ * mmap.lastDesc.pages + FRAME_SZ)

/-- `MemoryMap::get_page_frames_number`. -/
def getPageFramesNumber (mmap : MemoryMap) : Nat := mmap.getEntireMemorySize / FRAME_SZ

/-- One turn of the loop in `get_largest_free_seg`, over the running maximum and segment. -/
def largestFreeSegStep (best : Nat × Nat) (desc : EfiMMapDesc) : Nat × Nat :=
  if desc.type = EfiMemoryType.conventionalMemory.code then
    let segSz := u64 (desc.pages * FRAME_SZ)
    if segSz > best.1 then (segSz, desc.paddr) else best
  else best

/-- `MemoryMap::get_largest_free_seg`: the size of the largest conventional segment, and its
address as written through `mem_seg`, which the caller has set to null. -/
def getLargestFreeSeg (mmap : MemoryMap) : Nat × Nat :=
  mmap.descs.foldl largestFreeSegStep (0, 0)

theorem getPageFramesNumber_lt (mmap : MemoryMap) : mmap.getPageFramesNumber < 2 ^ 52 := by
  have h := u64_lt (mmap.lastDesc.paddr + FRAME_SZ * mmap.lastDesc.pages + FRAME_SZ)
  simp only [getPageFramesNumber, getEntireMemorySize, FRAME_SZ] at h ⊢
  omega

theorem lastDesc_mem (mmap : MemoryMap) : mmap.lastDesc ∈ mmap.descs := List.getLast_mem _

private theorem foldl_largestFreeSeg (descs : List EfiMMapDesc) (best : Nat × Nat) :
    descs.foldl largestFreeSegStep best = best ∨
      ∃ desc ∈ descs, desc.type = EfiMemoryType.conventionalMemory.code ∧
        descs.foldl largestFreeSegStep best = (u64 (desc.pages * FRAME_SZ), desc.paddr) := by
  induction descs generalizing best with
  | nil => exact .inl rfl
  | cons desc rest ih =>
    rcases ih (largestFreeSegStep best desc) with h | ⟨found, mem, conv, h⟩
    · rw [List.foldl_cons, h]
      by_cases conv : desc.type = EfiMemoryType.conventionalMemory.code
      · by_cases larger : u64 (desc.pages * FRAME_SZ) > best.1
        · refine .inr ⟨desc, List.mem_cons_self, conv, ?_⟩
          simp only [largestFreeSegStep, if_pos conv, if_pos larger]
        · left
          simp only [largestFreeSegStep, if_pos conv, if_neg larger]
      · left
        simp only [largestFreeSegStep, if_neg conv]
    · exact .inr ⟨found, List.mem_cons_of_mem _ mem, conv, h⟩

/-- A segment of positive size is one of the map's conventional descriptors. -/
theorem getLargestFreeSeg_mem {mmap : MemoryMap} (h : 0 < mmap.getLargestFreeSeg.1) :
    ∃ desc ∈ mmap.descs, desc.type = EfiMemoryType.conventionalMemory.code ∧
      mmap.getLargestFreeSeg = (u64 (desc.pages * FRAME_SZ), desc.paddr) := by
  rcases foldl_largestFreeSeg mmap.descs (0, 0) with hnone | hsome
  · rw [getLargestFreeSeg, hnone] at h
    exact absurd h (Nat.lt_irrefl 0)
  · exact hsome

end MemoryMap

end PrintOS
