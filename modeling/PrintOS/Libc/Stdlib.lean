import PrintOS.Lib.ByteMemory

/-!
# The kernel's libc

`size` and `u64` are 64-bit unsigned, `u32` is 32-bit and `u16` 16-bit. They are modelled by `Nat`,
and an operation whose result may leave the range is reduced at the place where the source computes
it.
-/

namespace PrintOS

open ByteMemory (Mem Byte)

/-- A value stored in a `u64`. -/
def u64 (n : Nat) : Nat := n % 2 ^ 64

/-- A value stored in a `u32`. -/
def u32 (n : Nat) : Nat := n % 2 ^ 32

/-- A value stored in a `u16`. -/
def u16 (n : Nat) : Nat := n % 2 ^ 16

/-- A difference stored in a `u16`, which wraps below zero. -/
def sub16 (a b : Nat) : Nat := (a + (2 ^ 16 - b % 2 ^ 16)) % 2 ^ 16

/-- Unsigned 64-bit subtraction, which wraps below zero. -/
def sub64 (a b : Nat) : Nat := (a + (2 ^ 64 - b % 2 ^ 64)) % 2 ^ 64

theorem u64_of_lt {n : Nat} (h : n < 2 ^ 64) : u64 n = n := Nat.mod_eq_of_lt h

theorem u64_lt (n : Nat) : u64 n < 2 ^ 64 := Nat.mod_lt _ (by decide)

theorem sub64_of_le {a b : Nat} (h : b ≤ a) (ha : a < 2 ^ 64) : sub64 a b = a - b := by
  unfold sub64
  omega

theorem sub64_of_lt {a b : Nat} (h : a < b) (hb : b < 2 ^ 64) : sub64 a b = 2 ^ 64 - (b - a) := by
  unfold sub64
  omega

theorem sub64_sub64 (a : Nat) {b c : Nat} : sub64 (sub64 a b) c = sub64 a (b + c) := by
  unfold sub64
  omega

theorem u32_of_lt {n : Nat} (h : n < 2 ^ 32) : u32 n = n := Nat.mod_eq_of_lt h

theorem u16_of_lt {n : Nat} (h : n < 2 ^ 16) : u16 n = n := Nat.mod_eq_of_lt h

theorem sub16_of_le {a b : Nat} (h : b ≤ a) (ha : a < 2 ^ 16) : sub16 a b = a - b := by
  unfold sub16
  omega

/-- The loop of `str_len`, for the part of the address space that is left. -/
def strLenFrom (m : Mem) (str : Nat) : Nat → Nat → Option Nat
  | 0, _ => none
  | left + 1, count =>
    if m (str + count) = 0 then some count else strLenFrom m str left (count + 1)

/-- `str_len` of `libc/stdlib.cpp`. In a memory without a null it goes on for ever: there is no
answer. -/
def strLen (m : Mem) (str : Nat) : Option Nat := strLenFrom m str (2 ^ 64) 0

/-- The loop of `str_reverse`, for the turns that are left: two characters change places. -/
def strReverseFrom (str len : Nat) : Nat → Nat → Mem → Mem
  | 0, _, m => m
  | left + 1, i, m =>
    let temp := m (str + i)
    let m := m.write (str + i) (m (str + (len - i - 1)))
    let m := m.write (str + (len - i - 1)) temp
    strReverseFrom str len left (i + 1) m

/-- `str_reverse` of `libc/stdlib.cpp`. -/
def strReverse (m : Mem) (str len : Nat) : Mem := strReverseFrom str len (len / 2) 0 m

/-- The character of a digit. -/
def digitChar (rem : Nat) : Byte :=
  if rem > 9 then BitVec.ofNat 8 (rem - 10 + 0x61) else BitVec.ofNat 8 (rem + 0x30)

/-- The loop of `itoa`, for a number of turns: the digits from the last one on. -/
def itoaFrom (buf base : Nat) : Nat → Nat → Nat → Mem → Nat × Mem
  | 0, _, i, m => (i, m)
  | left + 1, num, i, m =>
    if num = 0 then (i, m)
    else itoaFrom buf base left (num / base) (i + 1) (m.write (buf + i) (digitChar (num % base)))

/-- `itoa` of `libc/stdlib.cpp`, for a base from 2 on, with the number of digits. A `u64` has no
more than 64 of them. -/
def itoa (m : Mem) (num buf base : Nat) : Nat × Mem :=
  if num = 0 then (1, (m.write buf 0x30).write (buf + 1) 0)
  else
    let (i, m) := itoaFrom buf base 64 num 0 m
    let m := m.write (buf + i) 0
    (i, strReverse m buf i)

/-- `memcpy` of `libc/stdlib.cpp`: `n` bytes from `src` copied to `dest`, one by one from the first.
-/
def memcpy (m : Mem) (dest src n : Nat) : Mem := m.move dest src n

/-- `memset` of `libc/stdlib.cpp`: `n` bytes from `ptr` set to `v`. -/
def memset (m : Mem) (ptr : Nat) (v : Byte) (n : Nat) : Mem := m.fill ptr v n

/-- `strncmp` of `libc/stdlib.cpp`: 0, or a difference of two characters in 8 bits. It stops at the
first character that differs and at the end of the first string. -/
def strncmp (m : Mem) (str1 str2 : Nat) : Nat → Byte
  | 0 => 0
  | n + 1 =>
    if m str1 ≠ 0 ∧ m str1 = m str2 then strncmp m (str1 + 1) (str2 + 1) n else m str1 - m str2

end PrintOS
