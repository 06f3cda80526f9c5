import PrintOS.Kutils.Bitmap
import PrintOS.Lib.Run

/-!
# A bitmap as independent booleans

After any calls of `set` and `unset` a bitmap of `n` bits should be `n` booleans: each is what the
last call for its index made it, and false where there was none (`Independent`).

A call changes one bit and leaves the others, also those of the same byte, so the calls are as they
should. What a bit has without a call is up to the constructor. It rounds the number of bits up to
bytes in 64 bits, and for the seven largest numbers of bits that comes to no byte at all: nothing is
cleared then (`independent_iff`).
-/

namespace PrintOS.Bitmap

open ByteMemory (Mem Byte)

/-! ## Calls -/

/-- A call of `set` or of `unset`. -/
inductive Call
  | set (idx : Nat)
  | unset (idx : Nat)
  deriving Repr, DecidableEq

def Call.idx : Call → Nat
  | .set idx => idx
  | .unset idx => idx

/-- What the bit of the index is to be. -/
def Call.value : Call → Bool
  | .set _ => true
  | .unset _ => false

def call (b : Bitmap) (m : Mem) : Call → Mem
  | .set idx => b.set m idx
  | .unset idx => b.unset m idx

/-- The last of some calls that is for an index. -/
def lastFor (cs : List Call) (idx : Nat) : Option Call := (cs.filter fun c => c.idx = idx).getLast?

/-- What is asked of a bitmap of `n` bits after some calls, for the memory before the constructor
and the memory now. -/
structure Independent (n : Nat) (b : Bitmap) (m m' : Mem) (cs : List Call) : Prop where
  get : ∀ j < n, b.get m' j = true ↔ lastFor cs j = some (.set j)
  outside : ∀ x, x < b.privBuf ∨ b.privBuf + (n + 7) / 8 ≤ x → m' x = m x

variable {b : Bitmap} {m : Mem} {c : Call} {cs : List Call} {n j : Nat}

theorem get_call (b : Bitmap) (m : Mem) (c : Call) (j : Nat) :
    b.get (b.call m c) j = if c.idx = j then c.value else b.get m j := by
  cases c with
  | set i =>
    rw [call, get_set, Call.idx, Call.value]
    by_cases h : i = j
    · simp [h]
    · simp [h, Ne.symm h]
  | unset i =>
    rw [call, get_unset, Call.idx, Call.value]
    by_cases h : i = j
    · simp [h]
    · simp [h, Ne.symm h]

/-- A call touches the byte of its index only. -/
theorem call_of_outside {x : Nat} (h : x ≠ b.byteAddr c.idx) : b.call m c x = m x := by
  cases c with
  | set i => exact Mem.write_of_ne h
  | unset i => exact Mem.write_of_ne h

theorem calls_of_outside {x : Nat} (hcs : ∀ c ∈ cs, c.idx < n)
    (hx : x < b.privBuf ∨ b.privBuf + (n + 7) / 8 ≤ x) : cs.foldl b.call m x = m x := by
  refine List.foldlRecOn cs b.call (motive := fun m' => m' x = m x) rfl ?_
  intro m' same c hc
  rw [call_of_outside, same]
  rw [byteAddr_eq]
  have hidx := hcs c hc
  omega

/-- The last call for an index sets it. -/
theorem lastFor_value (cs : List Call) (j : Nat) :
    ((lastFor cs j).map Call.value).getD false = true ↔ lastFor cs j = some (.set j) := by
  cases hlast : lastFor cs j with
  | none => exact iff_of_false Bool.false_ne_true (by simp)
  | some c =>
    have hidx : c.idx = j := by
      have hmem := List.mem_filter.mp (List.mem_of_getLast? hlast)
      simpa using hmem.2
    cases c with
    | set i =>
      obtain rfl : i = j := hidx
      exact iff_of_true rfl rfl
    | unset i => exact iff_of_false Bool.false_ne_true (by simp)

/-! ## The constructor -/

/-- The bit of an index in the buffer, before the constructor. -/
def bitAt (m : Mem) (buf idx : Nat) : Bool := (m (buf + idx / 8)).getLsbD (idx % 8)

theorem new_of_overflow {self buf : Nat} (hn : n < 2 ^ 64) (overflow : 2 ^ 64 ≤ n + 7) :
    (new self buf n m).2 = m := by
  have hsize : u64 (n + 7) / 8 = 0 := by
    simp only [u64]
    omega
  simp only [new, hsize]
  rfl

theorem get_new_iff {self buf : Nat} (hn : n < 2 ^ 64) :
    (∀ j < n, (new self buf n m).1.get (new self buf n m).2 j = false) ↔
      n + 7 < 2 ^ 64 ∨ ∀ j < n, bitAt m buf j = false := by
  by_cases hfits : n + 7 < 2 ^ 64
  · exact iff_of_true (fun j hj => get_new hfits hj) (.inl hfits)
  · have hbits : ∀ j, (new self buf n m).1.get (new self buf n m).2 j = bitAt m buf j := by
      intro j
      rw [new_of_overflow hn (Nat.not_lt.mp hfits), get_eq, byteAddr_eq]
      rfl
    simp only [hbits]
    exact (or_iff_right hfits).symm

theorem new_of_outside {self buf x : Nat} (hx : x < buf ∨ buf + (n + 7) / 8 ≤ x) :
    (new self buf n m).2 x = m x := by
  have hle : u64 (n + 7) / 8 ≤ (n + 7) / 8 := Nat.div_le_div_right (Nat.mod_le _ _)
  exact Mem.fill_of_outside (by omega)

/-- **A bitmap is independent booleans exactly when the constructor had its bits cleared**: where
the number of bits can be rounded up in 64 bits, and else where the bits were clear before. For
every size, buffer and memory, and any calls for indices below the size. -/
theorem independent_iff (self buf n : Nat) (m : Mem) (hn : n < 2 ^ 64) :
    (∀ cs : List Call, (∀ c ∈ cs, c.idx < n) → Independent n (new self buf n m).1 m
        (cs.foldl (new self buf n m).1.call (new self buf n m).2) cs) ↔
      n + 7 < 2 ^ 64 ∨ ∀ j < n, bitAt m buf j = false := by
  rw [← get_new_iff hn]
  constructor
  · intro all j hj
    have hget := (all [] (by simp)).get j hj
    exact Bool.eq_false_iff.mpr fun h => absurd (hget.mp h) (by simp [lastFor])
  · intro clear cs hcs
    refine ⟨fun j hj => ?_, fun x hx => ?_⟩
    · rw [read_foldl (new self buf n m).1.get (get_call _), clear j hj]
      exact lastFor_value cs j
    · rw [calls_of_outside hcs hx]
      exact new_of_outside hx

/-- Twelve bits in a memory of ones, after three calls. -/
theorem twelve_bits_independent :
    Independent 12 (new 0x500 0x1000 12 fun _ => 0xff).1 (fun _ => 0xff)
      (([.set 3, .set 11, .unset 3] : List Call).foldl (new 0x500 0x1000 12 fun _ => 0xff).1.call
        (new 0x500 0x1000 12 fun _ => 0xff).2)
      [.set 3, .set 11, .unset 3] :=
  (independent_iff 0x500 0x1000 12 (fun _ => 0xff) (by decide)).mpr (.inl (by decide)) _ (by decide)

/-- With the largest number of bits the first one is true before any call. -/
theorem largest_not_cleared :
    (new 0x500 0x1000 (2 ^ 64 - 1) fun _ => 0xff).1.get
        (new 0x500 0x1000 (2 ^ 64 - 1) fun _ => 0xff).2 0 = true ∧
      ¬ ∀ cs : List Call, (∀ c ∈ cs, c.idx < 2 ^ 64 - 1) →
        Independent (2 ^ 64 - 1) (new 0x500 0x1000 (2 ^ 64 - 1) fun _ => 0xff).1 (fun _ => 0xff)
          (cs.foldl (new 0x500 0x1000 (2 ^ 64 - 1) fun _ => 0xff).1.call
            (new 0x500 0x1000 (2 ^ 64 - 1) fun _ => 0xff).2) cs := by
  have hget : (new 0x500 0x1000 (2 ^ 64 - 1) fun _ => 0xff).1.get
      (new 0x500 0x1000 (2 ^ 64 - 1) fun _ => 0xff).2 0 = true := by
    rw [new_of_overflow (by decide) (by decide), get_eq]
    rfl
  refine ⟨hget, fun all => ?_⟩
  have hnone := (all [] (by simp)).get 0 (by decide)
  exact absurd (hnone.mp hget) (by simp [lastFor])

end PrintOS.Bitmap
