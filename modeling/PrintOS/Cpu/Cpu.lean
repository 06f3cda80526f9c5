import PrintOS.Libc.Stdlib

/-!
# `get_cpuid`

The routine of `cpu.asm`, line by line. It keeps its four pointers in registers, executes `cpuid`,
and stores each of the four results where its pointer is not null. A line is an instruction or a
label, and a jump goes to the line of its label.

What `cpuid` answers is the processor's, and a parameter: two words of 32 bits are asked, the leaf
in `eax` and the subleaf in `ecx`.
-/

namespace PrintOS.Cpu

open ByteMemory (Mem Byte)

inductive Reg
  | rax | rbx | rcx | rdx | rsi | rdi | rbp | rsp
  | r8 | r9 | r10 | r11 | r12 | r13 | r14 | r15
  deriving Repr, DecidableEq

/-- The labels of `get_cpuid`. -/
inductive Label
  | check_eax_param | check_ebx_param | check_ecx_param | check_edx_param
  | returns
  | ret_eax_param | ret_ebx_param | ret_ecx_param | ret_edx_param
  deriving Repr, DecidableEq

inductive Line
  | label (l : Label)
  /-- `mov` between registers of 64 bits. -/
  | mov (dst src : Reg)
  /-- `mov` between their low halves, which clears the high half. -/
  | mov32 (dst src : Reg)
  | cpuid
  /-- `cmp` with zero. -/
  | cmpNull (r : Reg)
  | jne (l : Label)
  | jmp (l : Label)
  /-- `mov dword [ptr], src`. -/
  | store32 (ptr src : Reg)
  | ret
  deriving Repr, DecidableEq

/-- `get_cpuid`. -/
def getCpuid : List Line :=
  [.mov .r10 .rsi, .mov .r11 .rdx, .mov .r12 .rcx, .mov .r13 .r8,
    .mov32 .rax .rdi, .cpuid,
    .label .check_eax_param, .cmpNull .r10, .jne .ret_eax_param,
    .label .check_ebx_param, .cmpNull .r11, .jne .ret_ebx_param,
    .label .check_ecx_param, .cmpNull .r12, .jne .ret_ecx_param,
    .label .check_edx_param, .cmpNull .r13, .jne .ret_edx_param,
    .label .returns, .ret,
    .label .ret_eax_param, .store32 .r10 .rax, .jmp .check_ebx_param,
    .label .ret_ebx_param, .store32 .r11 .rbx, .jmp .check_ecx_param,
    .label .ret_ecx_param, .store32 .r12 .rcx, .jmp .check_edx_param,
    .label .ret_edx_param, .store32 .r13 .rdx, .jmp .returns]

/-- The line of a label. -/
def lineOf (l : Label) : Nat := getCpuid.idxOf (.label l)

/-- Where the processor is: at a line, or back at an address of the caller. -/
inductive Place
  | line (n : Nat)
  | caller (address : Nat)
  deriving Repr, DecidableEq

abbrev Regs := Reg → BitVec 64

def Regs.set (regs : Regs) (r : Reg) (v : BitVec 64) : Regs := fun x => if x = r then v else regs x

structure Machine where
  place : Place
  regs : Regs
  /-- The flag of equality. -/
  zf : Bool
  mem : Mem

/-- The answer of `cpuid`. -/
structure CpuidResult where
  eax : BitVec 32
  ebx : BitVec 32
  ecx : BitVec 32
  edx : BitVec 32
  deriving Repr, DecidableEq

/-- The low half of a register. -/
def low (v : BitVec 64) : BitVec 32 := v.setWidth 32

/-- A result of 32 bits in a register, with the high half cleared. -/
def wide (v : BitVec 32) : BitVec 64 := v.setWidth 64

/-- What the processor asks `cpuid` in a state. -/
def Regs.answer (cpuid : BitVec 32 → BitVec 32 → CpuidResult) (regs : Regs) : CpuidResult :=
  cpuid (low (regs .rax)) (low (regs .rcx))

/-- The registers after `cpuid`. -/
def Regs.setResult (regs : Regs) (a : CpuidResult) : Regs :=
  (((regs.set .rax (wide a.eax)).set .rbx (wide a.ebx)).set .rcx (wide a.ecx)).set .rdx (wide a.edx)

/-- One line, executed at the `n`th. -/
def exec (cpuid : BitVec 32 → BitVec 32 → CpuidResult) (s : Machine) (n : Nat) : Line → Machine
  | .label _ => { s with place := .line (n + 1) }
  | .mov dst src => { s with place := .line (n + 1), regs := s.regs.set dst (s.regs src) }
  | .mov32 dst src =>
    { s with place := .line (n + 1), regs := s.regs.set dst (wide (low (s.regs src))) }
  | .cpuid => { s with place := .line (n + 1), regs := s.regs.setResult (s.regs.answer cpuid) }
  | .cmpNull r => { s with place := .line (n + 1), zf := s.regs r = 0 }
  | .jne l => { s with place := .line (if s.zf then n + 1 else lineOf l) }
  | .jmp l => { s with place := .line (lineOf l) }
  | .store32 ptr src =>
    { s with
      place := .line (n + 1)
      mem := s.mem.writeLE (s.regs ptr).toNat 4 (low (s.regs src)).toNat }
  | .ret =>
    { s with
      place := .caller (s.mem.read64 (s.regs .rsp).toNat)
      regs := s.regs.set .rsp (s.regs .rsp + 8) }

/-- One step. There is none once the processor is back at the caller. -/
def step (cpuid : BitVec 32 → BitVec 32 → CpuidResult) (s : Machine) : Option Machine :=
  match s.place with
  | .caller _ => none
  | .line n => getCpuid[n]?.map (exec cpuid s n)

end PrintOS.Cpu
