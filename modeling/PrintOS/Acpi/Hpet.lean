import PrintOS.Lib.BitField
import PrintOS.Libc.Stdlib

/-!
# The event timer

The HPET is a block of 64-bit registers in memory: general ones, with a counter that the hardware
counts up, and a block for each comparator. A comparator interrupts when the counter comes to its
value. The capability register tells the period of the counter in femtoseconds. `init` keeps it in
nanoseconds, and a time in milliseconds is turned to ticks by that.

A register holds what the hardware shows of it when it is read.
-/

namespace PrintOS

open ByteMemory (Mem)

/-- The HPET at `base_address.address`, with the memory that its registers are in and
`g_clk_period_ns`. -/
structure Hpet where
  baseAddress : Nat
  mem : Mem
  clkPeriodNs : Nat

namespace Hpet

/-! ## The general registers -/

def CAP_REG : Nat := 0x000

def CONFIG_REG : Nat := 0x010

def COUNTER_REG : Nat := 0x0f0

/-- `hpet::read_reg`. -/
def readReg (h : Hpet) (reg : Nat) : Nat := h.mem.read64 (u64 (h.baseAddress + reg))

/-- `hpet::write_reg`. -/
def writeReg (h : Hpet) (reg val : Nat) : Hpet :=
  { h with mem := h.mem.write64 (u64 (h.baseAddress + reg)) val }

/-- `hpet::get_counter_clk_period`, in femtoseconds. -/
def getCounterClkPeriod (h : Hpet) : Nat := u32 (h.readReg CAP_REG >>> 32)

/-- `hpet::init`. -/
def init (h : Hpet) : Hpet := { h with clkPeriodNs := h.getCounterClkPeriod / 1000000 }

/-- `hpet::get_counter`. -/
def getCounter (h : Hpet) : Nat := h.readReg COUNTER_REG

/-- `num_tim_cap` of the capability register. -/
def numTimCap (reg : Nat) : Nat := BitField.get 8 5 reg

/-- `hpet::get_no_comparators`, a `u8`. -/
def getNoComparators (h : Hpet) : Nat := (numTimCap (h.readReg CAP_REG) + 1) % 2 ^ 8

/-- `hpet::get_mmio_sz`: the widths of eight general registers and of four registers for each
comparator, added up in 32 bits. -/
def getMmioSz (h : Hpet) : Nat := u32 (8 * 8 + h.getNoComparators * (4 * 8))

/-- `enable_cnf` of the configuration register set to a value. -/
def setEnableCnf (v reg : Nat) : Nat := BitField.set 0 1 v reg

/-- `hpet::enable_counter`. -/
def enableCounter (h : Hpet) : Hpet :=
  let h := h.writeReg COUNTER_REG 0
  h.writeReg CONFIG_REG (setEnableCnf 1 (h.readReg CONFIG_REG))

/-- `hpet::disable_counter`. -/
def disableCounter (h : Hpet) : Hpet :=
  let h := h.writeReg CONFIG_REG (setEnableCnf 0 (h.readReg CONFIG_REG))
  h.writeReg COUNTER_REG 0

/-! ## Comparators -/

/-- `FIRST_OFF`. -/
def FIRST_OFF : Nat := 0x100

/-- `sizeof(MMIO)`: the registers of a comparator. -/
def MMIO_SZ : Nat := 32

def CONFIG : Nat := 0x0

def COMPAR : Nat := 0x8

/-- `comparator::Type`. -/
inductive ComparatorType
  | ONE_SHOT
  | PERIODIC
  deriving Repr, DecidableEq

def ComparatorType.code : ComparatorType → Nat
  | .ONE_SHOT => 0
  | .PERIODIC => 1

/-- `ioapic::IRQ::HPET`. -/
def IRQ_HPET : Nat := 0

/-- `comparator::ConfigReg`, the fields that the code sets. The others are zero. -/
structure ConfigReg where
  intTypeCnf : Nat
  intEnbCnf : Nat
  typeCnf : ComparatorType
  valSetCnf : Nat
  mode32Cnf : Nat
  intRouteCnf : Nat
  fsbEnCnf : Nat

/-- The register's bits. -/
def ConfigReg.toNat (reg : ConfigReg) : Nat :=
  BitField.set 1 1 reg.intTypeCnf <| BitField.set 2 1 reg.intEnbCnf <|
  BitField.set 3 1 reg.typeCnf.code <| BitField.set 6 1 reg.valSetCnf <|
  BitField.set 8 1 reg.mode32Cnf <| BitField.set 9 5 reg.intRouteCnf <|
  BitField.set 14 1 reg.fsbEnCnf 0

/-- `Comparator::get_compar_reg_ptr`, for the comparator `id`. -/
def getComparRegPtr (h : Hpet) (id reg : Nat) : Nat :=
  u64 (h.baseAddress + FIRST_OFF + MMIO_SZ * id + reg)

/-- `Comparator::write_reg`. -/
def writeComparReg (h : Hpet) (id reg val : Nat) : Hpet :=
  { h with mem := h.mem.write64 (h.getComparRegPtr id reg) val }

/-- `Comparator::read_reg`. -/
def readComparReg (h : Hpet) (id reg : Nat) : Nat := h.mem.read64 (h.getComparRegPtr id reg)

/-- `Comparator::set_config`. -/
def setConfig (h : Hpet) (id : Nat) (reg : ConfigReg) : Hpet :=
  h.writeComparReg id CONFIG reg.toNat

/-- `Comparator::set_compar_value`. -/
def setComparValue (h : Hpet) (id val : Nat) : Hpet := h.writeComparReg id COMPAR val

/-- `Comparator::get_compar_value`. -/
def getComparValue (h : Hpet) (id : Nat) : Nat := h.readComparReg id COMPAR

/-- `__calc_ms_to_compar`. -/
def calcMsToCompar (h : Hpet) (counter msTime : Nat) : Nat :=
  u64 (counter + u64 (msTime * 1000000) / h.clkPeriodNs)

/-- `Comparator::set_one_shot`. -/
def setOneShot (h : Hpet) (id msTime : Nat) : Hpet :=
  let configReg : ConfigReg :=
    { intTypeCnf := 0
      intEnbCnf := 1
      typeCnf := .ONE_SHOT
      valSetCnf := 0
      mode32Cnf := 0
      intRouteCnf := IRQ_HPET
      fsbEnCnf := 0 }
  let h := h.setComparValue id (h.calcMsToCompar h.getCounter msTime)
  h.setConfig id configReg

/-- `Comparator::set_periodic`. -/
def setPeriodic (h : Hpet) (id msTime : Nat) : Hpet :=
  let h := h.disableCounter
  let configReg : ConfigReg :=
    { intTypeCnf := 0
      intEnbCnf := 1
      typeCnf := .PERIODIC
      valSetCnf := 1
      mode32Cnf := 0
      intRouteCnf := IRQ_HPET
      fsbEnCnf := 0 }
  let h := h.setConfig id configReg
  let h := h.setComparValue id (h.calcMsToCompar 0 msTime)
  h.enableCounter

end Hpet

end PrintOS
