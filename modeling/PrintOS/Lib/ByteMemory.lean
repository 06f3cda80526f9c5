import Mathlib.Algebra.Group.Nat.Defs
import Mathlib.Tactic.Common

/-!
# Byte memory and little-endian words

A memory is a byte for every address. Words are read and written little-endian over
consecutive bytes, so two words may overlap, and every law below that says a write leaves
a word alone carries the premise that their byte ranges do not meet.

`readLE_writeLE` reads back what was written, up to the width; `readLE_writeLE_disjoint`
and `readLE_congr` are the frame laws; `fill_apply` says what a block fill leaves, `copy_apply` and
`copy_of_outside` what a copy leaves, `move_apply` what a copy within the memory leaves, and
`readLE_store` and `store_eq_of_forall` what is left of words that are written over each other.
`lastWrite` is what a sequence of operations has left at a byte.
-/

namespace ByteMemory

/-- One byte. -/
abbrev Byte := BitVec 8

/-- A byte for every address. -/
abbrev Mem := Nat → Byte

namespace Mem

/-- One byte written. -/
def write (m : Mem) (a : Nat) (v : Byte) : Mem :=
  fun x => if x = a then v else m x

/-- The word of `n` bytes at `a`, least significant byte first. -/
def readLE (m : Mem) (a : Nat) : Nat → Nat
  | 0 => 0
  | n + 1 => (m a).toNat + 256 * readLE m (a + 1) n

/-- The low `n` bytes of `v` written at `a`, least significant byte first. -/
def writeLE (m : Mem) (a : Nat) : Nat → Nat → Mem
  | 0, _ => m
  | n + 1, v => writeLE (m.write a (BitVec.ofNat 8 v)) (a + 1) n (v / 256)

/-- `n` bytes from `a` set to one value. -/
def fill (m : Mem) (a : Nat) (v : Byte) : Nat → Mem
  | 0 => m
  | n + 1 => fill (m.write a v) (a + 1) v n

/-- Some bytes written one after the other from `a` on. -/
def copy (m : Mem) (a : Nat) (bytes : List Byte) : Mem :=
  fun x => if a ≤ x then bytes[x - a]?.getD (m x) else m x

/-- `n` bytes copied one after the other, upwards. Each is read when its turn comes, so that a copy
to a higher address may read what it wrote. -/
def move (m : Mem) (dest src : Nat) : Nat → Mem
  | 0 => m
  | n + 1 => move (m.write dest (m src)) (dest + 1) (src + 1) n

/-- The 64-bit word at an address. -/
def read64 (m : Mem) (a : Nat) : Nat := m.readLE a 8

/-- A 64-bit word written. -/
def write64 (m : Mem) (a v : Nat) : Mem := m.writeLE a 8 v

/-- One 64-bit word written at some addresses, in their order. -/
def store (m : Mem) (v : Nat) (as : List Nat) : Mem := as.foldl (fun m a => m.write64 a v) m

theorem write_of_ne {m : Mem} {a x : Nat} {v : Byte} (h : x ≠ a) : m.write a v x = m x :=
  if_neg h

@[simp] theorem write_self (m : Mem) (a : Nat) (v : Byte) : m.write a v a = v := if_pos rfl

/-- A word write touches its own bytes only. -/
theorem writeLE_of_outside {a x : Nat} : ∀ (n : Nat) (m : Mem) (v : Nat),
    x < a ∨ a + n ≤ x → m.writeLE a n v x = m x := by
  intro n
  induction n generalizing a with
  | zero => intro m v _; rfl
  | succ n ih =>
    intro m v h
    rw [writeLE, ih (a := a + 1) _ _ (by omega), write_of_ne (by omega)]

/-- A fill sets its own bytes and no other. -/
theorem fill_apply {a x : Nat} {v : Byte} : ∀ (n : Nat) (m : Mem),
    m.fill a v n x = if a ≤ x ∧ x < a + n then v else m x := by
  intro n
  induction n generalizing a with
  | zero =>
    intro m
    rw [fill, if_neg (by omega)]
  | succ n ih =>
    intro m
    rw [fill, ih]
    by_cases hx : x = a
    · subst hx
      rw [if_neg (by omega), if_pos (by omega), write_self]
    · rw [write_of_ne hx]
      exact if_congr (by omega) rfl rfl

theorem fill_of_outside {m : Mem} {a x n : Nat} {v : Byte} (h : x < a ∨ a + n ≤ x) :
    m.fill a v n x = m x := by
  rw [fill_apply, if_neg (by omega)]

/-- The bytes that were copied are there. -/
theorem copy_apply {m : Mem} {a i : Nat} {bytes : List Byte} {v : Byte} (h : bytes[i]? = some v) :
    m.copy a bytes (a + i) = v := by
  rw [copy, if_pos (Nat.le_add_right a i), Nat.add_sub_cancel_left, h]
  rfl

/-- The memory at an address holds some bytes. -/
def HoldsAt (m : Mem) (a : Nat) (bytes : List Byte) : Prop :=
  ∀ i b, bytes[i]? = some b → m (a + i) = b

theorem holdsAt_cons {m : Mem} {a : Nat} {b : Byte} {bytes : List Byte} :
    m.HoldsAt a (b :: bytes) ↔ m a = b ∧ m.HoldsAt (a + 1) bytes := by
  constructor
  · intro h
    refine ⟨h 0 b rfl, fun i c hc => ?_⟩
    rw [Nat.add_assoc, Nat.add_comm 1 i]
    exact h (i + 1) c hc
  · rintro ⟨first, rest⟩ i c hc
    cases i with
    | zero => exact first.trans (Option.some.inj hc)
    | succ i =>
      rw [Nat.add_comm i 1, ← Nat.add_assoc]
      exact rest i c hc

theorem holdsAt_copy (m : Mem) (a : Nat) (bytes : List Byte) : (m.copy a bytes).HoldsAt a bytes :=
  fun _ _ h => copy_apply h

/-- A copy touches its own bytes only. -/
theorem copy_of_outside {m : Mem} {a x : Nat} {bytes : List Byte}
    (h : x < a ∨ a + bytes.length ≤ x) : m.copy a bytes x = m x := by
  unfold copy
  split_ifs with hle
  · rw [List.getElem?_eq_none (by omega)]
    rfl
  · rfl

theorem HoldsAt.congr {m m' : Mem} {a : Nat} {bytes : List Byte} (h : m.HoldsAt a bytes)
    (same : ∀ x, a ≤ x → x < a + bytes.length → m' x = m x) : m'.HoldsAt a bytes := by
  intro i b hb
  have hi := (List.getElem?_eq_some_iff.mp hb).1
  rw [same (a + i) (by omega) (by omega)]
  exact h i b hb

theorem holdsAt_append {m : Mem} {a : Nat} {xs ys : List Byte} :
    m.HoldsAt a (xs ++ ys) ↔ m.HoldsAt a xs ∧ m.HoldsAt (a + xs.length) ys := by
  induction xs generalizing a with
  | nil => exact ⟨fun h => ⟨fun _ _ hb => absurd hb (by simp), h⟩, And.right⟩
  | cons x xs ih =>
    rw [List.cons_append, holdsAt_cons, holdsAt_cons, ih, and_assoc, List.length_cons,
      Nat.add_assoc a 1, Nat.add_comm 1]

theorem copy_nil (m : Mem) (a : Nat) : m.copy a [] = m := by
  funext x
  exact copy_of_outside (by rw [List.length_nil]; omega)

theorem copy_cons (m : Mem) (a : Nat) (b : Byte) (bytes : List Byte) :
    m.copy a (b :: bytes) = (m.write a b).copy (a + 1) bytes := by
  funext x
  rcases Nat.lt_trichotomy x a with h | rfl | h
  · rw [copy_of_outside (.inl h), copy_of_outside (.inl (by omega)), write_of_ne (by omega)]
  · rw [copy_of_outside (m := m.write x b) (.inl (by omega)), write_self]
    exact copy_apply (i := 0) rfl
  · have hsub : x - a = x - (a + 1) + 1 := by omega
    rw [copy, copy, if_pos (by omega), if_pos (by omega), hsub, List.getElem?_cons_succ,
      write_of_ne (by omega)]

theorem copy_append (m : Mem) (a : Nat) (xs ys : List Byte) :
    m.copy a (xs ++ ys) = (m.copy a xs).copy (a + xs.length) ys := by
  induction xs generalizing m a with
  | nil => rw [List.nil_append, copy_nil, List.length_nil, Nat.add_zero]
  | cons x xs ih =>
    rw [List.cons_append, copy_cons, ih, copy_cons, List.length_cons, Nat.add_assoc,
      Nat.add_comm 1]

theorem copy_singleton (m : Mem) (a : Nat) (b : Byte) : m.copy a [b] = m.write a b := by
  rw [copy_cons, copy_nil]

theorem copy_write_of_outside {m : Mem} {a x : Nat} {bytes : List Byte} {v : Byte}
    (h : x < a ∨ a + bytes.length ≤ x) :
    (m.copy a bytes).write x v = (m.write x v).copy a bytes := by
  induction bytes generalizing m a with
  | nil => rw [copy_nil, copy_nil]
  | cons b bytes ih =>
    rw [List.length_cons] at h
    have hswap : (m.write a b).write x v = (m.write x v).write a b := by
      funext y
      simp only [write]
      split
      · next hx => rw [if_neg (by omega)]
      · rfl
    rw [copy_cons, copy_cons, ih (by omega), hswap]

/-- A copy downwards, or between ranges that do not meet, leaves what the source had before it. -/
theorem move_apply {dest src n x : Nat} (m : Mem) (h : dest ≤ src ∨ src + n ≤ dest) :
    m.move dest src n x = if dest ≤ x ∧ x < dest + n then m (src + (x - dest)) else m x := by
  induction n generalizing m dest src with
  | zero => rw [move, if_neg (by omega)]
  | succ n ih =>
    rw [move, ih _ (by omega)]
    by_cases hx : x = dest
    · subst hx
      rw [if_neg (by omega), if_pos (by omega), write_self, Nat.sub_self, Nat.add_zero]
    · by_cases hlt : dest ≤ x ∧ x < dest + (n + 1)
      · have hsrc : src + 1 + (x - (dest + 1)) = src + (x - dest) := by omega
        rw [if_pos (by omega), if_pos hlt, hsrc, write_of_ne (by omega)]
      · rw [if_neg (by omega), if_neg hlt, write_of_ne hx]

theorem move_of_outside {m : Mem} {dest src n x : Nat} (h : x < dest ∨ dest + n ≤ x) :
    m.move dest src n x = m x := by
  induction n generalizing m dest src with
  | zero => rfl
  | succ n ih => rw [move, ih (by omega), write_of_ne (by omega)]

/-- A copy of bytes that are known, from where the copy does not reach. -/
theorem move_eq_copy {m : Mem} {dest src : Nat} {bytes : List Byte} (h : m.HoldsAt src bytes)
    (apart : dest + bytes.length ≤ src ∨ src + bytes.length ≤ dest) :
    m.move dest src bytes.length = m.copy dest bytes := by
  funext x
  rw [move_apply m (by omega)]
  split
  · next hx =>
    have hget : bytes[x - dest]? = some (bytes.get ⟨x - dest, by omega⟩) :=
      List.getElem?_eq_getElem _
    have hcopy := copy_apply (m := m) (a := dest) hget
    rw [Nat.add_sub_cancel' hx.1] at hcopy
    rw [hcopy]
    exact h _ _ hget
  · next hx => exact (copy_of_outside (by omega)).symm

/-! ## Strings that end with a null -/

/-- The string at an address, up to a null. -/
structure StringAt (m : Mem) (a : Nat) (s : List Byte) : Prop where
  nonzero : 0 ∉ s
  holds : m.HoldsAt a (s ++ [0])

theorem StringAt.congr {m m' : Mem} {a : Nat} {s : List Byte} (h : m.StringAt a s)
    (same : ∀ x, a ≤ x → x < a + s.length + 1 → m' x = m x) : m'.StringAt a s := by
  refine ⟨h.nonzero, h.holds.congr fun x hx hx' => same x hx ?_⟩
  rw [List.length_append, List.length_singleton] at hx'
  omega

theorem StringAt.apply {m : Mem} {a i : Nat} {s : List Byte} {b : Byte} (h : m.StringAt a s)
    (hb : s[i]? = some b) : m (a + i) = b ∧ b ≠ 0 := by
  have hi := (List.getElem?_eq_some_iff.mp hb).1
  refine ⟨h.holds i b (by rw [List.getElem?_append_left hi, hb]), ?_⟩
  rintro rfl
  exact h.nonzero (List.mem_of_getElem? hb)

theorem StringAt.null {m : Mem} {a : Nat} {s : List Byte} (h : m.StringAt a s) :
    m (a + s.length) = 0 := by
  refine h.holds s.length 0 ?_
  rw [List.getElem?_append_right (Nat.le_refl _), Nat.sub_self]
  rfl

/-- A string cannot go on where another one at the same address has its null. -/
theorem StringAt.length_le {m : Mem} {a : Nat} {s t : List Byte} (hs : m.StringAt a s)
    (ht : m.StringAt a t) : s.length ≤ t.length := by
  by_contra hlt
  have hchar := hs.apply (List.getElem?_eq_getElem (Nat.lt_of_not_le hlt))
  exact hchar.2 (hchar.1.symm.trans ht.null)

/-- There is one string at an address. -/
theorem StringAt.unique {m : Mem} {a : Nat} {s t : List Byte} (hs : m.StringAt a s)
    (ht : m.StringAt a t) : s = t := by
  refine List.ext_getElem (Nat.le_antisymm (hs.length_le ht) (ht.length_le hs)) fun i hi hi' => ?_
  have hleft := (hs.apply (List.getElem?_eq_getElem hi)).1
  have hright := (ht.apply (List.getElem?_eq_getElem hi')).1
  exact hleft.symm.trans hright

/-- Words over the same bytes, wherever these are, are the same. -/
theorem readLE_eq_of_bytes {m m' : Mem} {a a' : Nat} : ∀ {n : Nat},
    (∀ i, i < n → m' (a' + i) = m (a + i)) → m'.readLE a' n = m.readLE a n := by
  intro n
  induction n generalizing a a' with
  | zero => intro _; rfl
  | succ n ih =>
    intro h
    have head : m' a' = m a := h 0 (Nat.succ_pos n)
    have tail : m'.readLE (a' + 1) n = m.readLE (a + 1) n := by
      apply ih
      intro i hi
      rw [Nat.add_assoc, Nat.add_assoc, Nat.add_comm 1 i]
      exact h (i + 1) (Nat.succ_lt_succ hi)
    rw [readLE, readLE, head, tail]

/-- A word depends on its own bytes only. -/
theorem readLE_congr {m m' : Mem} {a n : Nat} (h : ∀ x, a ≤ x → x < a + n → m' x = m x) :
    m'.readLE a n = m.readLE a n :=
  readLE_eq_of_bytes fun i hi => h (a + i) (Nat.le_add_right a i) (Nat.add_lt_add_left hi a)

theorem readLE_lt (m : Mem) : ∀ (a n : Nat), m.readLE a n < 256 ^ n := by
  intro a n
  induction n generalizing a with
  | zero => simp [readLE]
  | succ n ih =>
    have htail := ih (a + 1)
    have hbyte : (m a).toNat < 256 := (m a).isLt
    rw [readLE, Nat.pow_succ]
    omega

/-- The low bytes of what was written. -/
theorem readLE_writeLE_of_le (a : Nat) : ∀ {k n : Nat} (m : Mem) (v : Nat), k ≤ n →
    (m.writeLE a n v).readLE a k = v % 256 ^ k := by
  intro k
  induction k generalizing a with
  | zero => intro n m v _; simp [readLE, Nat.mod_one]
  | succ k ih =>
    intro n m v hle
    obtain ⟨n, rfl⟩ : ∃ n', n = n' + 1 := ⟨n - 1, by omega⟩
    have hhead : (m.writeLE a (n + 1) v) a = BitVec.ofNat 8 v := by
      rw [writeLE, writeLE_of_outside (a := a + 1) n _ _ (by omega), write_self]
    have htail : (m.writeLE a (n + 1) v).readLE (a + 1) k = v / 256 % 256 ^ k := by
      rw [writeLE]
      exact ih (a + 1) _ _ (by omega)
    calc (m.writeLE a (n + 1) v).readLE a (k + 1)
        = v % 256 + 256 * (v / 256 % 256 ^ k) := by
          rw [readLE, hhead, htail, BitVec.toNat_ofNat]
      _ = v % (256 * 256 ^ k) := Nat.mod_mul.symm
      _ = v % 256 ^ (k + 1) := by rw [Nat.pow_succ, Nat.mul_comm]

/-- What was written is read back, up to the word's width. -/
theorem readLE_writeLE (a n : Nat) (m : Mem) (v : Nat) :
    (m.writeLE a n v).readLE a n = v % 256 ^ n :=
  readLE_writeLE_of_le a m v (Nat.le_refl n)

/-- A word that is written back. -/
theorem writeLE_readLE (m : Mem) (a n : Nat) : m.writeLE a n (m.readLE a n) = m := by
  induction n generalizing a with
  | zero => rfl
  | succ n ih =>
    have hbyte := (m a).isLt
    have hlow : BitVec.ofNat 8 ((m a).toNat + 256 * m.readLE (a + 1) n) = m a := by
      apply BitVec.eq_of_toNat_eq
      rw [BitVec.toNat_ofNat]
      omega
    have hhigh : ((m a).toNat + 256 * m.readLE (a + 1) n) / 256 = m.readLE (a + 1) n := by omega
    have hsame : m.write a (m a) = m := by
      funext x
      unfold write
      split
      · next h => rw [h]
      · rfl
    rw [readLE, writeLE, hlow, hhigh, hsame, ih]

/-- One byte of what was written. -/
theorem writeLE_apply {n i : Nat} (m : Mem) (a v : Nat) (hi : i < n) :
    m.writeLE a n v (a + i) = BitVec.ofNat 8 (v / 256 ^ i) := by
  induction n generalizing m a v i with
  | zero => exact absurd hi (Nat.not_lt_zero i)
  | succ n ih =>
    rw [writeLE]
    cases i with
    | zero =>
      rw [writeLE_of_outside n _ _ (by omega), Nat.add_zero, write_self, Nat.pow_zero, Nat.div_one]
    | succ i =>
      have next := ih (m.write a (BitVec.ofNat 8 v)) (a + 1) (v / 256) (Nat.lt_of_succ_lt_succ hi)
      rw [Nat.div_div_eq_div_mul, ← Nat.pow_succ'] at next
      rw [Nat.add_comm i 1, ← Nat.add_assoc, next, Nat.add_comm 1 i]

/-- Two words over separate bytes do not see each other. -/
theorem readLE_writeLE_disjoint {m : Mem} {a b k n v : Nat} (h : b + n ≤ a ∨ a + k ≤ b) :
    (m.writeLE a k v).readLE b n = m.readLE b n :=
  readLE_congr fun x _ _ => writeLE_of_outside k m v (by omega)

theorem readLE_write_disjoint {m : Mem} {a b n : Nat} {v : Byte} (h : b + n ≤ a ∨ a < b) :
    (m.write a v).readLE b n = m.readLE b n :=
  readLE_congr fun x _ _ => write_of_ne (by omega)

/-- A word whose bytes are all zero is zero. -/
theorem readLE_eq_zero {m : Mem} {a : Nat} : ∀ {n : Nat},
    (∀ x, a ≤ x → x < a + n → m x = 0) → m.readLE a n = 0 := by
  intro n
  induction n generalizing a with
  | zero => intro _; rfl
  | succ n ih =>
    intro h
    rw [readLE, h a (Nat.le_refl a) (by omega), ih fun x hx hx' => h x (by omega) (by omega)]
    rfl

/-! ## The 64-bit word -/

theorem read64_lt (m : Mem) (a : Nat) : m.read64 a < 2 ^ 64 := m.readLE_lt a 8

theorem read64_write64 {m : Mem} {a v : Nat} (h : v < 2 ^ 64) : (m.write64 a v).read64 a = v := by
  rw [read64, write64, readLE_writeLE]
  exact Nat.mod_eq_of_lt h

theorem read64_write64_disjoint {m : Mem} {a b v : Nat} (h : b + 8 ≤ a ∨ a + 8 ≤ b) :
    (m.write64 a v).read64 b = m.read64 b :=
  readLE_writeLE_disjoint h

theorem read64_write_disjoint {m : Mem} {a b : Nat} {v : Byte} (h : b + 8 ≤ a ∨ a < b) :
    (m.write a v).read64 b = m.read64 b :=
  readLE_write_disjoint h

theorem write64_of_outside {m : Mem} {a v x : Nat} (h : x < a ∨ a + 8 ≤ x) :
    m.write64 a v x = m x :=
  writeLE_of_outside 8 m v h

theorem read64_congr {m m' : Mem} {a : Nat} (h : ∀ x, a ≤ x → x < a + 8 → m' x = m x) :
    m'.read64 a = m.read64 a :=
  readLE_congr h

/-! ## One word at some addresses -/

theorem store_cons (m : Mem) (v a : Nat) (as : List Nat) :
    m.store v (a :: as) = (m.write64 a v).store v as := rfl

theorem store_append (m : Mem) (v : Nat) (as bs : List Nat) :
    m.store v (as ++ bs) = (m.store v as).store v bs := List.foldl_append

theorem store_of_outside {m : Mem} {v x : Nat} {as : List Nat} (h : ∀ a ∈ as, x < a ∨ a + 8 ≤ x) :
    m.store v as x = m x := by
  induction as generalizing m with
  | nil => rfl
  | cons a as ih =>
    rw [store_cons, ih fun b hb => h b (List.mem_cons_of_mem a hb),
      write64_of_outside (h a List.mem_cons_self)]

/-- The low bytes of a word stay when no later word is written over them. -/
theorem readLE_store {m : Mem} {v k a : Nat} {as : List Nat} (hk : k ≤ 8) (small : v < 256 ^ k)
    (apart : as.Pairwise fun b c => c + 8 ≤ b ∨ b + k ≤ c) (ha : a ∈ as) :
    (m.store v as).readLE a k = v := by
  induction as generalizing m with
  | nil => exact absurd ha List.not_mem_nil
  | cons b as ih =>
    obtain ⟨hfirst, hrest⟩ := List.pairwise_cons.mp apart
    rw [store_cons]
    rcases List.mem_cons.mp ha with rfl | ha
    · have later : ((m.write64 a v).store v as).readLE a k = (m.write64 a v).readLE a k := by
        refine readLE_congr fun x hx hx' => store_of_outside fun c hc => ?_
        have := hfirst c hc
        omega
      rw [later, write64, readLE_writeLE_of_le a m v hk, Nat.mod_eq_of_lt small]
    · exact ih hrest ha

/-- A byte that every word over it sets to one value has that value, where there is such a word. -/
theorem store_eq_of_forall {m : Mem} {v x : Nat} {w : Byte} {as : List Nat}
    (value : ∀ a ∈ as, a ≤ x → x < a + 8 → BitVec.ofNat 8 (v / 256 ^ (x - a)) = w)
    (hit : m x = w ∨ ∃ a ∈ as, a ≤ x ∧ x < a + 8) : m.store v as x = w := by
  induction as generalizing m with
  | nil =>
    rcases hit with h | ⟨a, ha, -⟩
    · exact h
    · exact absurd ha List.not_mem_nil
  | cons a as ih =>
    rw [store_cons]
    refine ih (fun b hb => value b (List.mem_cons_of_mem a hb)) ?_
    by_cases hx : a ≤ x ∧ x < a + 8
    · -- this word sets the byte
      have hbyte := m.writeLE_apply a v (show x - a < 8 by omega)
      rw [Nat.add_sub_cancel' hx.1] at hbyte
      exact .inl (hbyte.trans (value a List.mem_cons_self hx.1 hx.2))
    · have hsame : m.write64 a v x = m x := write64_of_outside (by omega)
      rw [hsame]
      rcases hit with h | ⟨b, hb, hlo, hhi⟩
      · exact .inl h
      rcases List.mem_cons.mp hb with rfl | hb
      · exact absurd ⟨hlo, hhi⟩ hx
      · exact .inr ⟨b, hb, hlo, hhi⟩

end Mem

/-! ## The last write -/

section Writes

variable {ι : Type} {writes : ι → Option (Nat × Byte)} {i : ι} {is js : List ι} {x : Nat}

/-- What an operation writes to the byte at `x`: `writes` has the byte that it writes, if any, and
where. -/
def writeAt (writes : ι → Option (Nat × Byte)) (x : Nat) (i : ι) : Option Byte :=
  (writes i).bind fun w => if w.1 = x then some w.2 else none

/-- What the last operation to write the byte at `x` left there. -/
def lastWrite (writes : ι → Option (Nat × Byte)) (x : Nat) (is : List ι) : Option Byte :=
  is.reverse.findSome? (writeAt writes x)

theorem lastWrite_append :
    lastWrite writes x (is ++ js) = (lastWrite writes x js).or (lastWrite writes x is) := by
  rw [lastWrite, List.reverse_append, List.findSome?_append, lastWrite, lastWrite]

theorem lastWrite_cons :
    lastWrite writes x (i :: is) = (lastWrite writes x is).or (writeAt writes x i) := by
  rw [lastWrite, List.reverse_cons, List.findSome?_append, List.findSome?_singleton, lastWrite]

theorem lastWrite_eq_none (h : ∀ i ∈ is, writeAt writes x i = none) :
    lastWrite writes x is = none :=
  List.findSome?_eq_none_iff.mpr fun i hi => h i (List.mem_reverse.mp hi)

theorem writeAt_eq_none (h : ∀ v, writes i ≠ some (x, v)) : writeAt writes x i = none := by
  cases hi : writes i with
  | none => rw [writeAt, hi, Option.bind_none]
  | some w =>
    have hne : w.1 ≠ x := fun heq => h w.2 (by rw [hi, ← heq])
    rw [writeAt, hi, Option.bind_some, if_neg hne]

/-- A write leaves at a byte what it writes there, and else what was there. -/
theorem Mem.write_eq_writeAt {m : Mem} {a : Nat} {v : Byte} (h : writes i = some (a, v)) :
    m.write a v x = (writeAt writes x i).getD (m x) := by
  rw [writeAt, h, Option.bind_some]
  by_cases hx : a = x
  · subst hx
    rw [if_pos rfl, write_self]
    rfl
  · rw [if_neg hx, write_of_ne (Ne.symm hx)]
    rfl

end Writes

end ByteMemory
