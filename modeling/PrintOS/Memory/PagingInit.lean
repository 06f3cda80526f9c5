import PrintOS.Acpi.Hpet
import PrintOS.Framebuffer.Framebuffer
import PrintOS.Memory.Paging

/-!
# What is mapped before paging is on

The constructor of `Paging` clears the PML4, and `init` then maps to themselves the segments of the
memory map, the framebuffer and the registers of the two APICs and the HPET. Each of them is one
call of `__identity_paging`. Up to here memory is accessed as it is without the new tables: `cr3` is
loaded after `init`.

The memory map and the ACPI tables are read before, so that a table that is made does not change
them, and the registers of the HPET are not in the memory that the tables are in.
-/

namespace PrintOS

open ByteMemory (Mem)

/-- What `init` reads of `kernel`: the memory map, the framebuffer, `madt->lapic_addr`,
`ioapic->io_apic_addr` and the HPET. -/
structure KernelData where
  mmap : MemoryMap
  framebuffer : Framebuffer
  lapicAddr : Nat
  ioApicAddr : Nat
  hpet : Hpet

namespace Paging

variable {σ : Type} (requestFrame : σ → Except Fault (Nat × σ))

/-- The loop of `init` over the memory map, for the descriptors that are left. -/
def mapSegments (PML4 : Nat) : List EfiMMapDesc → State σ → Except Fault (State σ)
  | [], s => .ok s
  | desc :: rest, s => do
    let s ← identityPaging requestFrame PML4 desc.paddr (u64 (FRAME_SZ * desc.pages)) s
    mapSegments PML4 rest s

/-- `Paging::init`. -/
def init (PML4 : Nat) (kernel : KernelData) (s : State σ) : Except Fault (State σ) := do
  let s ← mapSegments requestFrame PML4 kernel.mmap.descs s
  let fb := kernel.framebuffer
  let s ← identityPaging requestFrame PML4 fb.fbAddr fb.bSize s
  let s ← identityPaging requestFrame PML4 kernel.lapicAddr 4096 s
  let s ← identityPaging requestFrame PML4 kernel.ioApicAddr 8 s
  identityPaging requestFrame PML4 kernel.hpet.baseAddress kernel.hpet.getMmioSz s

/-- The constructor as far as `init`: the PML4 is cleared, and nothing is taken yet. -/
def construct (PML4 : Nat) (kernel : KernelData) (mem : Mem) (pmem : σ) :
    Except Fault (State σ) :=
  init requestFrame PML4 kernel ⟨memset mem PML4 0 (8 * 512), pmem, []⟩

/-! ## The ranges -/

/-- The segment of a descriptor, as `init` passes it on. -/
def segment (desc : EfiMMapDesc) : Nat × Nat := (desc.paddr, u64 (FRAME_SZ * desc.pages))

/-- The ranges that `init` maps to themselves, in its order. -/
def ranges (kernel : KernelData) : List (Nat × Nat) :=
  kernel.mmap.descs.map segment ++
    [(kernel.framebuffer.fbAddr, kernel.framebuffer.bSize), (kernel.lapicAddr, 4096),
      (kernel.ioApicAddr, 8), (kernel.hpet.baseAddress, kernel.hpet.getMmioSz)]

end Paging

end PrintOS
