import Mathlib.Algebra.Order.Ring.Int
import Mathlib.Algebra.Order.Ring.Abs
import Mathlib.Tactic.Ring
import PrintOS.Acpi.Hpet

/-!
# How exact the timer is

A time in milliseconds should be turned to ticks with an error below one tick. `init` drops the part
of the period below a nanosecond, and the division by what is left gives more ticks the longer the
time is. `ticks_exact_iff` says for which period and time the error is still below one tick: for
every time where the period is in whole nanoseconds, and else for short times only.
-/

namespace PrintOS.Hpet

open ByteMemory (Mem)

/-! ## Ticks -/

/-- A number of ticks of `period` femtoseconds is some milliseconds, up to one tick. -/
def Exact (period msTime : Nat) (ticks : Int) : Prop :=
  |ticks * (period : Int) - (msTime : Int) * 10 ^ 12| < (period : Int)

/-- The time is short enough for what `init` drops of the period: with all of the period in
nanoseconds, nothing is dropped, and any time is. -/
def Short (period msTime : Nat) : Prop :=
  msTime * 1000000 * (period % 1000000) <
    period * (period / 1000000 + msTime * 1000000 % (period / 1000000))

/-- The error of a division of `k * q + s` by `k`, where a part `r` of the period was dropped. -/
theorem exact_parts {k q s r : Int} (hk : 0 < k) (hs : s < k) (hq : 0 ≤ q) (hr : 0 ≤ r) :
    |q * (1000000 * k + r) - (k * q + s) * 1000000| < 1000000 * k + r ↔
      (k * q + s) * r < (1000000 * k + r) * (k + s) := by
  have herror : q * (1000000 * k + r) - (k * q + s) * 1000000 = q * r - 1000000 * s := by ring
  have hscaled : (k * q + s) * r - (1000000 * k + r) * (k + s) =
      k * (q * r - 1000000 * s - (1000000 * k + r)) := by ring
  have hqr : 0 ≤ q * r := mul_nonneg hq hr
  rw [herror, abs_lt, ← sub_neg (a := (k * q + s) * r), hscaled, mul_neg_iff]
  constructor
  · rintro ⟨-, above⟩
    exact .inl ⟨hk, by omega⟩
  · rintro (⟨-, above⟩ | ⟨below, -⟩)
    · -- the ticks are never too few: the rest of the division is below the divisor
      exact ⟨by omega, by omega⟩
    · omega

theorem exact_iff_short {period msTime : Nat} (hperiod : 1000000 ≤ period) :
    Exact period msTime (msTime * 1000000 / (period / 1000000) : Nat) ↔ Short period msTime := by
  have hk : 0 < period / 1000000 := Nat.div_pos hperiod (by decide)
  have hparts := Nat.div_add_mod period 1000000
  have htime := Nat.div_add_mod (msTime * 1000000) (period / 1000000)
  have hrest := Nat.mod_lt (msTime * 1000000) hk
  have hmain := @exact_parts (period / 1000000 : Nat) (msTime * 1000000 / (period / 1000000) : Nat)
    (msTime * 1000000 % (period / 1000000) : Nat) (period % 1000000 : Nat)
    (by omega) (by exact_mod_cast hrest) (Int.natCast_nonneg _) (Int.natCast_nonneg _)
  have hperiodInt : (1000000 * (period / 1000000 : Nat) + (period % 1000000 : Nat) : Int) =
      period := by exact_mod_cast hparts
  have htimeInt : ((period / 1000000 : Nat) * (msTime * 1000000 / (period / 1000000) : Nat) +
      (msTime * 1000000 % (period / 1000000) : Nat) : Int) = msTime * 1000000 := by
    exact_mod_cast htime
  rw [hperiodInt, htimeInt] at hmain
  have hscale : (msTime : Int) * 1000000 * 1000000 = msTime * 10 ^ 12 := by ring
  rw [hscale] at hmain
  rw [Exact, hmain, Short]
  exact_mod_cast Iff.rfl

/-! ## Registers -/

variable {h : Hpet} {id msTime : Nat}

/-- The registers of the comparators are in memory. -/
def InMemory (h : Hpet) (id : Nat) : Prop :=
  h.baseAddress + FIRST_OFF + MMIO_SZ * id + MMIO_SZ ≤ 2 ^ 64

theorem getComparValue_setComparValue {val : Nat} (hval : val < 2 ^ 64) :
    (h.setComparValue id val).getComparValue id = val :=
  Mem.read64_write64 hval

theorem getComparValue_setConfig {reg : ConfigReg} (room : h.InMemory id) :
    (h.setConfig id reg).getComparValue id = h.getComparValue id := by
  show (h.mem.write64 (h.getComparRegPtr id CONFIG) _).read64 (h.getComparRegPtr id COMPAR) = _
  refine Mem.read64_write64_disjoint ?_
  simp only [InMemory, FIRST_OFF, MMIO_SZ] at room
  simp only [getComparRegPtr, CONFIG, COMPAR, FIRST_OFF, MMIO_SZ]
  rw [u64_of_lt (by omega), u64_of_lt (by omega)]
  omega

/-- The general registers are before those of the comparators. -/
theorem getComparValue_writeReg {reg val : Nat} (room : h.InMemory id) (hreg : reg + 8 ≤ FIRST_OFF) :
    (h.writeReg reg val).getComparValue id = h.getComparValue id := by
  show (h.mem.write64 (u64 (h.baseAddress + reg)) _).read64 (h.getComparRegPtr id COMPAR) = _
  refine Mem.read64_write64_disjoint ?_
  simp only [InMemory, FIRST_OFF, MMIO_SZ] at room
  simp only [getComparRegPtr, FIRST_OFF, MMIO_SZ, COMPAR] at hreg ⊢
  rw [u64_of_lt (by omega), u64_of_lt (by omega)]
  omega

theorem getComparValue_setOneShot (room : h.InMemory id) :
    (h.setOneShot id msTime).getComparValue id = h.calcMsToCompar h.getCounter msTime := by
  unfold setOneShot
  rw [getComparValue_setConfig (h := h.setComparValue id _) room]
  exact getComparValue_setComparValue (u64_lt _)

theorem getComparValue_enableCounter (room : h.InMemory id) :
    h.enableCounter.getComparValue id = h.getComparValue id := by
  unfold enableCounter
  rw [getComparValue_writeReg (h := h.writeReg COUNTER_REG 0) room (by decide)]
  exact getComparValue_writeReg room (by decide)

theorem getComparValue_setPeriodic (room : h.InMemory id) :
    (h.setPeriodic id msTime).getComparValue id = h.calcMsToCompar 0 msTime := by
  refine (getComparValue_enableCounter ?_).trans ?_
  · exact room
  · exact getComparValue_setComparValue (u64_lt _)

/-- **A timer is exact exactly for short times.** For a period from a nanosecond up, every counter
and every time for which no operation of 64 bits overflows: the comparator of a one-shot timer is
ahead of the counter, and that of a periodic timer ahead of 0, by the time asked for up to one tick,
if and only if the time is short for the period. -/
theorem ticks_exact_iff (h : Hpet) (id msTime : Nat) (room : h.InMemory id)
    (period : 1000000 ≤ h.getCounterClkPeriod) (noOverflow : msTime * 1000000 < 2 ^ 64) :
    (h.getCounter + msTime * 1000000 / (h.getCounterClkPeriod / 1000000) < 2 ^ 64 →
      (Exact h.getCounterClkPeriod msTime
        (((h.init.setOneShot id msTime).getComparValue id : Int) - h.getCounter) ↔
          Short h.getCounterClkPeriod msTime)) ∧
      (Exact h.getCounterClkPeriod msTime ((h.init.setPeriodic id msTime).getComparValue id) ↔
        Short h.getCounterClkPeriod msTime) := by
  have hroom : h.init.InMemory id := room
  have hcalc : ∀ c, h.init.calcMsToCompar c msTime =
      u64 (c + msTime * 1000000 / (h.getCounterClkPeriod / 1000000)) := by
    intro c
    rw [calcMsToCompar, u64_of_lt noOverflow]
    rfl
  rw [getComparValue_setOneShot hroom, getComparValue_setPeriodic hroom, hcalc, hcalc]
  refine ⟨fun noOverflow' => ?_, ?_⟩
  · have hcounter : h.init.getCounter = h.getCounter := rfl
    rw [hcounter, u64_of_lt noOverflow', Int.natCast_add, add_sub_cancel_left]
    exact exact_iff_short period
  · have hle := Nat.div_le_self (msTime * 1000000) (h.getCounterClkPeriod / 1000000)
    rw [Nat.zero_add, u64_of_lt (by omega)]
    exact exact_iff_short period

/-- A timer at `0xfed00000` with some period in its capability register and the counter at 5. -/
def timerOf (period : Nat) : Hpet where
  baseAddress := 0xfed00000
  mem := (Mem.write64 (fun _ => 0) 0xfed00000 (period <<< 32)).write64 0xfed000f0 5
  clkPeriodNs := 0

/-- With a period of 10 nanoseconds, 100 milliseconds are exact. -/
theorem whole_period_exact : (timerOf 10000000).getCounterClkPeriod = 10000000 ∧
    Exact 10000000 100
      ((((timerOf 10000000).init.setOneShot 0 100).getComparValue 0 : Int) -
        (timerOf 10000000).getCounter) := by
  have hperiod : (timerOf 10000000).getCounterClkPeriod = 10000000 := by decide +kernel
  have iff := ticks_exact_iff (timerOf 10000000) 0 100 (by unfold InMemory; decide)
    (by decide +kernel) (by decide)
  rw [hperiod] at iff
  refine ⟨hperiod, (iff.1 (by decide +kernel)).mpr ?_⟩
  unfold Short
  decide

/-- With the period of 69841279 femtoseconds, 100 milliseconds are more than 17000 ticks too long.
-/
theorem long_time_not_exact : (timerOf 69841279).getCounterClkPeriod = 69841279 ∧
    (timerOf 69841279).getCounter = 5 ∧
    ((timerOf 69841279).init.setOneShot 0 100).getComparValue 0 = 5 + 1449275 ∧
    ¬ Exact 69841279 100
      ((((timerOf 69841279).init.setOneShot 0 100).getComparValue 0 : Int) -
        (timerOf 69841279).getCounter) := by
  have hcounter : (timerOf 69841279).getCounter = 5 := by decide +kernel
  have hvalue : ((timerOf 69841279).init.setOneShot 0 100).getComparValue 0 = 5 + 1449275 := by
    decide +kernel
  refine ⟨by decide +kernel, hcounter, hvalue, ?_⟩
  rw [hvalue, hcounter]
  unfold Exact
  decide

end PrintOS.Hpet
