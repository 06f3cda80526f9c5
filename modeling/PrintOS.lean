import PrintOS.Lib.ByteMemory
import PrintOS.Lib.Run
import PrintOS.Kutils.Assertions
import PrintOS.Kutils.Bitmap
import PrintOS.Memory.Mmap
import PrintOS.Memory.PMem
import PrintOS.Laws.Memory.PMem
import PrintOS.Laws.Memory.PMemInit
import PrintOS.Lib.BitField
import PrintOS.Memory.Paging
import PrintOS.Laws.Memory.Paging
import PrintOS.Lib.Linked
import PrintOS.Lib.Interval
import PrintOS.Memory.Heap
import PrintOS.Laws.Memory.Blocks
import PrintOS.Laws.Memory.Heap
import PrintOS.Laws.Memory.HeapRun
import PrintOS.Drivers.Keyboard
import PrintOS.Laws.Drivers.Keyboard
import PrintOS.Laws.Memory.PMemRequest
import PrintOS.Laws.Memory.HeapProgress
import PrintOS.Console.Console
import PrintOS.Laws.Console.Console
import PrintOS.Laws.Console.Screen
import PrintOS.Bootloader.Efi
import PrintOS.Bootloader.KernelLoader
import PrintOS.Bootloader.Main
import PrintOS.Laws.Bootloader.Main
import PrintOS.Laws.Bootloader.KernelLoader
import PrintOS.Laws.Memory.IdentityPaging
import PrintOS.Laws.Memory.PagingTables
import PrintOS.Laws.Bootloader.SegmentPages
import PrintOS.Laws.Bootloader.ElfHeader
import PrintOS.Laws.Bootloader.MemoryMap
import PrintOS.Acpi.Acpi
import PrintOS.Laws.Acpi.Acpi
import PrintOS.Framebuffer.Framebuffer
import PrintOS.Laws.Framebuffer.Framebuffer
import PrintOS.Acpi.Hpet
import PrintOS.Laws.Memory.PMemBitmap
import PrintOS.Idt.Idt
import PrintOS.Laws.Acpi.Hpet
import PrintOS.Laws.Idt.Idt
import PrintOS.Laws.Framebuffer.Fill
import PrintOS.Console.ConsoleFont
import PrintOS.Laws.Console.Scroll
import PrintOS.Cpu.Cpu
import PrintOS.Laws.Cpu.Cpu
import PrintOS.Laws.Memory.PagingFrames
import PrintOS.Laws.Libc.Stdlib
import PrintOS.Kutils.Console
import PrintOS.Laws.Kutils.Console
import PrintOS.Laws.Bootloader.Font
import PrintOS.Laws.Kutils.Bitmap
import PrintOS.Laws.Memory.PagingInit
import PrintOS.Memory.PhysMem
import PrintOS.Laws.Memory.PhysMem
import PrintOS.Laws.Memory.PhysMemRun
import PrintOS.Laws.Memory.AddressSpace
import PrintOS.Memory.Paged
import PrintOS.Laws.Memory.Paged
import PrintOS.Laws.Console.Pixels
import PrintOS.Laws.Memory.HeapFrame
import PrintOS.Memory.KernelHeap
import PrintOS.Laws.Memory.KernelHeap
import PrintOS.Laws.Console.Picture
import PrintOS.Idt.Interrupts
import PrintOS.Laws.Idt.Interrupts
