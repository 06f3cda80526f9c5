import PrintOS.Libc.Stdlib

/-!
# The bit-packed bitmap

`Bitmap` keeps one bit for each index, eight to a byte, in a buffer that its creator hands it.
`get`, `set` and `unset` check no bound: an index past the end reaches the bytes after the
buffer, and the laws below hold for it as well.

The public member `buf` is initialised with `&__buf`: the address of the member, where the
buffer's address is stored, and not the buffer's own address. It is a field of its own here
because the physical memory allocator reads it.
-/

namespace PrintOS

open ByteMemory (Mem Byte)

/-- `set_bit` of `kutils/bits.hpp`, on a byte. -/
def setBit (var : Byte) (pos : Nat) : Byte := var ||| 1#8 <<< pos

/-- `clear_bit` of `kutils/bits.hpp`, on a byte. -/
def clearBit (var : Byte) (pos : Nat) : Byte := var &&& ~~~(1#8 <<< pos)

theorem getLsbD_one_shiftLeft {pos j : Nat} (hj : j < 8) :
    (1#8 <<< pos).getLsbD j = decide (j = pos) := by
  rw [BitVec.getLsbD_shiftLeft, BitVec.getLsbD_one]
  by_cases h : j = pos
  · simp [h, show pos < 8 from h ▸ hj]
  · simp only [hj, decide_true, Bool.true_and, h, decide_false, Nat.zero_lt_succ]
    by_cases hlt : j < pos
    · simp [hlt]
    · simp only [hlt, decide_false, Bool.not_false, Bool.true_and, decide_eq_false_iff_not]
      omega

theorem getLsbD_setBit {var : Byte} {pos j : Nat} (hj : j < 8) :
    (setBit var pos).getLsbD j = (var.getLsbD j || decide (j = pos)) := by
  rw [setBit, BitVec.getLsbD_or, getLsbD_one_shiftLeft hj]

theorem getLsbD_clearBit {var : Byte} {pos j : Nat} (hj : j < 8) :
    (clearBit var pos).getLsbD j = (var.getLsbD j && !decide (j = pos)) := by
  rw [clearBit, BitVec.getLsbD_and, BitVec.getLsbD_not, getLsbD_one_shiftLeft hj]
  simp [hj]

/-- A byte meets a one-bit mask exactly when it has that bit. -/
theorem and_one_shiftLeft_ne_zero {var : Byte} {pos : Nat} (hpos : pos < 8) :
    (var &&& 1#8 <<< pos != 0#8) = var.getLsbD pos := by
  cases hbit : var.getLsbD pos with
  | true =>
    rw [bne_iff_ne]
    intro hzero
    have h := congrArg (·.getLsbD pos) hzero
    simp [BitVec.getLsbD_and, getLsbD_one_shiftLeft hpos, hbit] at h
  | false =>
    rw [bne_eq_false_iff_eq]
    apply BitVec.eq_of_getLsbD_eq
    intro j hj
    rw [BitVec.getLsbD_and, getLsbD_one_shiftLeft hj, BitVec.getLsbD_zero]
    by_cases h : j = pos <;> simp [h, hbit]

/-- `class Bitmap`: the buffer's address `__buf`, its size in bytes `__size`, and the public
member `buf`. -/
structure Bitmap where
  privBuf : Nat
  size : Nat
  buf : Nat
  deriving Repr, DecidableEq

namespace Bitmap

/-- The constructor, for an object whose member `__buf` lies at `self`: the buffer's bytes are
cleared. -/
def new (self buf sizeInBits : Nat) (m : Mem) : Bitmap × Mem :=
  let size := u64 (sizeInBits + 7) / 8
  (⟨buf, size, self⟩, memset m buf 0x00 size)

/-- The address of the byte that holds an index's bit. -/
def byteAddr (b : Bitmap) (idx : Nat) : Nat :=
  let rest := idx % 8
  let base := (idx - rest) / 8
  b.privBuf + base

/-- `Bitmap::get`. -/
def get (b : Bitmap) (m : Mem) (idx : Nat) : Bool :=
  let rest := idx % 8
  m (b.byteAddr idx) &&& 0x1#8 <<< rest != 0#8

/-- `Bitmap::set`. -/
def set (b : Bitmap) (m : Mem) (idx : Nat) : Mem :=
  let rest := idx % 8
  let addr := b.byteAddr idx
  m.write addr (setBit (m addr) rest)

/-- `Bitmap::unset`. -/
def unset (b : Bitmap) (m : Mem) (idx : Nat) : Mem :=
  let rest := idx % 8
  let addr := b.byteAddr idx
  m.write addr (clearBit (m addr) rest)

/-- `Bitmap::get_mem_size`. -/
def getMemSize (b : Bitmap) : Nat := b.size

theorem byteAddr_eq (b : Bitmap) (idx : Nat) : b.byteAddr idx = b.privBuf + idx / 8 := by
  simp only [byteAddr]
  omega

theorem get_eq (b : Bitmap) (m : Mem) (idx : Nat) :
    b.get m idx = (m (b.byteAddr idx)).getLsbD (idx % 8) :=
  and_one_shiftLeft_ne_zero (Nat.mod_lt _ (by decide))

/-- Two indices share a byte and a bit only when they are equal. -/
theorem byteAddr_inj {b : Bitmap} {i j : Nat} (haddr : b.byteAddr j = b.byteAddr i)
    (hbit : j % 8 = i % 8) : j = i := by
  rw [byteAddr_eq, byteAddr_eq] at haddr
  omega

/-- Setting an index sets it and nothing else. -/
theorem get_set (b : Bitmap) (m : Mem) (i j : Nat) :
    b.get (b.set m i) j = (b.get m j || decide (j = i)) := by
  rw [get_eq, get_eq, set]
  by_cases haddr : b.byteAddr j = b.byteAddr i
  · rw [haddr, Mem.write_self, getLsbD_setBit (Nat.mod_lt _ (by decide))]
    congr 1
    exact decide_eq_decide.mpr ⟨byteAddr_inj haddr, fun h => h ▸ rfl⟩
  · have hne : j ≠ i := fun h => haddr (h ▸ rfl)
    rw [Mem.write_of_ne haddr]
    simp [hne]

/-- Clearing an index clears it and nothing else. -/
theorem get_unset (b : Bitmap) (m : Mem) (i j : Nat) :
    b.get (b.unset m i) j = (b.get m j && !decide (j = i)) := by
  rw [get_eq, get_eq, unset]
  by_cases haddr : b.byteAddr j = b.byteAddr i
  · rw [haddr, Mem.write_self, getLsbD_clearBit (Nat.mod_lt _ (by decide))]
    congr 2
    exact decide_eq_decide.mpr ⟨byteAddr_inj haddr, fun h => h ▸ rfl⟩
  · have hne : j ≠ i := fun h => haddr (h ▸ rfl)
    rw [Mem.write_of_ne haddr]
    simp [hne]

/-- A new bitmap has every bit of its size clear. -/
theorem get_new {self buf bits i : Nat} {m : Mem} (hbits : bits + 7 < 2 ^ 64) (hi : i < bits) :
    (new self buf bits m).1.get (new self buf bits m).2 i = false := by
  rw [get_eq, byteAddr_eq]
  have hsize : (u64 (bits + 7)) / 8 = (bits + 7) / 8 := by rw [u64_of_lt hbits]
  simp only [new, memset, hsize]
  rw [Mem.fill_apply, if_pos (by omega)]
  exact BitVec.getLsbD_zero

end Bitmap

end PrintOS
