import Mathlib.Data.Nat.Digits.Lemmas
import PrintOS.Libc.Stdlib

/-!
# What the string functions leave in memory

`str_len` of a string is its length (`strLen_eq`). `str_reverse` turns the bytes around
(`strReverse_copy`), by what each byte is after some turns of the loop (`strReverseFrom_apply`).

`itoa` makes the digits from the last one on and then turns them around: what it writes is the
numeral and a null (`itoa_eq`). The numeral is the one that `Nat.toDigits` gives, for the bases up
to 16 where both have the same digits (`numeral_eq_toDigits`). For every base up to 36, read from
left to right it is worth the number (`numeral_isNumeral`), and no other number has the same string
(`itoa_numeral`).
-/

namespace PrintOS

open ByteMemory (Mem Byte)

variable {m : Mem} {str base : Nat} {s : List Byte}

/-! ## Lengths -/

theorem strLenFrom_eq (string : m.StringAt str s) {left count : Nat} (hcount : count ≤ s.length)
    (hleft : s.length - count < left) : strLenFrom m str left count = some s.length := by
  induction left generalizing count with
  | zero => exact absurd hleft (Nat.not_lt_zero _)
  | succ left ih =>
    rw [strLenFrom]
    rcases Nat.eq_or_lt_of_le hcount with rfl | hlt
    · rw [if_pos string.null]
    · have hchar := string.apply (List.getElem?_eq_getElem hlt)
      rw [if_neg (by rw [hchar.1]; exact hchar.2)]
      exact ih hlt (by omega)

theorem strLen_eq (string : m.StringAt str s) (hlen : s.length < 2 ^ 64) :
    strLen m str = some s.length :=
  strLenFrom_eq string (Nat.zero_le _) hlen

/-! ## Reversal -/

/-- After some turns from the `i`th on, the bytes that they reach have changed places. -/
theorem strReverseFrom_apply {len left i p : Nat} (hleft : i + left ≤ len / 2) (hp : p < len) :
    strReverseFrom str len left i m (str + p) =
      if (i ≤ p ∧ p < i + left) ∨ (len - (i + left) ≤ p ∧ p < len - i) then
        m (str + (len - 1 - p)) else m (str + p) := by
  induction left generalizing i m with
  | zero => rw [strReverseFrom, if_neg (by omega)]
  | succ left ih =>
    rw [strReverseFrom, ih (by omega)]
    -- the two bytes of this turn, and the others
    have hback : str + (len - i - 1) = str + (len - 1 - i) := by omega
    by_cases hfirst : p = i
    · subst hfirst
      rw [if_neg (by omega), if_pos (by omega), Mem.write_of_ne (by omega), Mem.write_self, hback]
    by_cases hlast : p = len - 1 - i
    · subst hlast
      have hfront : len - 1 - (len - 1 - i) = i := by omega
      rw [if_neg (by omega), if_pos (by omega), hback, Mem.write_self, hfront]
    · by_cases hin : (i + 1 ≤ p ∧ p < i + 1 + left) ∨ (len - (i + 1 + left) ≤ p ∧ p < len - (i + 1))
      · rw [if_pos hin, if_pos (by omega), Mem.write_of_ne (by omega), Mem.write_of_ne (by omega)]
      · rw [if_neg hin, if_neg (by omega), Mem.write_of_ne (by omega), Mem.write_of_ne (by omega)]

theorem strReverseFrom_of_outside {len left i x : Nat} (hleft : i + left ≤ len / 2)
    (hx : x < str ∨ str + len ≤ x) : strReverseFrom str len left i m x = m x := by
  induction left generalizing i m with
  | zero => rfl
  | succ left ih =>
    rw [strReverseFrom, ih (by omega), Mem.write_of_ne (by omega), Mem.write_of_ne (by omega)]

/-- A string that was just written, turned around. -/
theorem strReverse_copy (m : Mem) (str : Nat) (s : List Byte) :
    strReverse (m.copy str s) str s.length = m.copy str s.reverse := by
  funext x
  by_cases hx : x < str ∨ str + s.length ≤ x
  · rw [strReverse, strReverseFrom_of_outside (by omega) hx, Mem.copy_of_outside hx,
      Mem.copy_of_outside (by rwa [List.length_reverse])]
  · obtain ⟨p, rfl⟩ : ∃ p, x = str + p := ⟨x - str, by omega⟩
    have hp : p < s.length := by omega
    have hswap : strReverse (m.copy str s) str s.length (str + p) =
        m.copy str s (str + (s.length - 1 - p)) := by
      rw [strReverse, strReverseFrom_apply (by omega) hp]
      split
      · rfl
      · -- the byte in the middle
        next hmiddle =>
        have heq : s.length - 1 - p = p := by omega
        rw [heq]
    have hget : s.reverse[p]? = some (s.get ⟨s.length - 1 - p, by omega⟩) := by
      rw [List.getElem?_reverse hp]
      exact List.getElem?_eq_getElem _
    rw [hswap, Mem.copy_apply hget]
    exact Mem.copy_apply (List.getElem?_eq_getElem _)

/-! ## Numerals -/

/-- The digits of a number from the last one on, for a number of them. -/
def digitsFrom (base : Nat) : Nat → Nat → List Byte
  | 0, _ => []
  | left + 1, num =>
    if num = 0 then [] else digitChar (num % base) :: digitsFrom base left (num / base)

/-- The numeral of a `u64`. -/
def numeral (base num : Nat) : List Byte :=
  if num = 0 then [0x30] else (digitsFrom base 64 num).reverse

theorem itoaFrom_eq {buf left num i : Nat} :
    itoaFrom buf base left num i m =
      (i + (digitsFrom base left num).length, m.copy (buf + i) (digitsFrom base left num)) := by
  induction left generalizing num i m with
  | zero => rw [itoaFrom, digitsFrom, Mem.copy_nil, List.length_nil, Nat.add_zero]
  | succ left ih =>
    rw [itoaFrom, digitsFrom]
    split
    · rw [Mem.copy_nil, List.length_nil, Nat.add_zero]
    · rw [ih, List.length_cons, Mem.copy_cons, Nat.add_assoc i 1, Nat.add_comm 1, Nat.add_assoc buf]

/-- **What `itoa` writes**: the numeral and a null. -/
theorem itoa_eq (m : Mem) (num buf base : Nat) :
    itoa m num buf base =
      ((numeral base num).length, m.copy buf (numeral base num ++ [0])) := by
  unfold itoa numeral
  split
  · rw [List.singleton_append, Mem.copy_cons, Mem.copy_singleton, List.length_singleton]
  · rw [itoaFrom_eq, Nat.zero_add, Nat.add_zero]
    simp only
    rw [Mem.copy_write_of_outside (by omega), strReverse_copy, List.length_reverse, Mem.copy_append,
      Mem.copy_singleton, List.length_reverse,
      Mem.copy_write_of_outside (by rw [List.length_reverse]; omega)]

/-- The bytes of some characters. -/
def bytesOfChars (cs : List Char) : List Byte := cs.map fun c => BitVec.ofNat 8 c.toNat

theorem digitChar_eq {d : Nat} (hd : d < 16) :
    digitChar d = BitVec.ofNat 8 (Nat.digitChar d).toNat :=
  (by decide : ∀ d < 16, digitChar d = BitVec.ofNat 8 (Nat.digitChar d).toNat) d hd

/-- A `u64` has no more than 64 digits. -/
theorem lt_base_pow {num : Nat} (hbase : 1 < base) (hnum : num < 2 ^ 64) : num < base ^ 64 :=
  Nat.lt_of_lt_of_le hnum (Nat.pow_le_pow_left hbase 64)

theorem digitsFrom_eq_toDigits {left num : Nat} (hbase : 1 < base) (hbase' : base ≤ 16)
    (hpos : 0 < num) (hnum : num < base ^ left) :
    (digitsFrom base left num).reverse = bytesOfChars (Nat.toDigits base num) := by
  induction left generalizing num with
  | zero =>
    rw [Nat.pow_zero] at hnum
    omega
  | succ left ih =>
    have hmod : num % base < 16 := Nat.lt_of_lt_of_le (Nat.mod_lt num (by omega)) hbase'
    rw [digitsFrom, if_neg (by omega), List.reverse_cons, Nat.toDigits_eq_if hbase]
    split
    · next hlt =>
      have hnone : digitsFrom base left (num / base) = [] := by
        rw [Nat.div_eq_of_lt hlt]
        cases left with
        | zero => rfl
        | succ left => rfl
      rw [hnone, Nat.mod_eq_of_lt hlt, digitChar_eq (by omega)]
      rfl
    · next hge =>
      have hquot : num / base < base ^ left := by
        rw [Nat.pow_succ] at hnum
        exact Nat.div_lt_of_lt_mul (by rwa [Nat.mul_comm])
      rw [ih (Nat.div_pos (by omega) (by omega)) hquot, digitChar_eq hmod, bytesOfChars,
        bytesOfChars, List.map_append]
      rfl

theorem numeral_eq_toDigits {num : Nat} (hbase : 1 < base) (hbase' : base ≤ 16)
    (hnum : num < 2 ^ 64) : numeral base num = bytesOfChars (Nat.toDigits base num) := by
  unfold numeral
  split
  · next h =>
    rw [h, Nat.toDigits_zero]
    rfl
  · exact digitsFrom_eq_toDigits hbase hbase' (by omega) (lt_base_pow hbase hnum)

theorem digitChar_ne_zero {d : Nat} (hd : d < 36) : digitChar d ≠ 0 :=
  (by decide : ∀ d < 36, digitChar d ≠ 0) d hd

/-- A numeral has no null. -/
theorem zero_notMem_numeral {num : Nat} (hbase : 0 < base) (hbase' : base ≤ 36) :
    (0 : Byte) ∉ numeral base num := by
  have hdigits : ∀ left num, (0 : Byte) ∉ digitsFrom base left num := by
    intro left
    induction left with
    | zero => exact fun _ => List.not_mem_nil
    | succ left ih =>
      intro num
      rw [digitsFrom]
      split
      · exact List.not_mem_nil
      · rw [List.mem_cons, not_or]
        have hmod : num % base < base := Nat.mod_lt num hbase
        exact ⟨fun h => digitChar_ne_zero (d := num % base) (by omega) h.symm, ih _⟩
  unfold numeral
  split
  · decide
  · rw [List.mem_reverse]
    exact hdigits 64 num

/-- From base 10 on a numeral has no more than 20 digits. -/
theorem length_numeral_le {num : Nat} (hbase : 10 ≤ base) (hbase' : base ≤ 16)
    (hnum : num < 2 ^ 64) : (numeral base num).length ≤ 20 := by
  have hpow : 10 ^ 20 ≤ base ^ 20 := Nat.pow_le_pow_left hbase 20
  rw [numeral_eq_toDigits (by omega) hbase' hnum, bytesOfChars, List.length_map,
    Nat.length_toDigits_le_iff (by omega) (by decide)]
  omega

/-! ## The value of a numeral -/

/-- A digit or a small letter. -/
def IsDigit (c : Byte) : Prop :=
  (0x30 ≤ c.toNat ∧ c.toNat ≤ 0x39) ∨ (0x61 ≤ c.toNat ∧ c.toNat ≤ 0x7a)

/-- What a character is worth: the digits first, then the letters from 10 on. -/
def digitValue (c : Byte) : Nat := if c.toNat ≤ 0x39 then c.toNat - 0x30 else c.toNat - 0x61 + 10

/-- What a string is worth in a base, read from left to right. -/
def valueOf (base : Nat) (s : List Byte) : Nat := s.foldl (fun v c => v * base + digitValue c) 0

/-- A numeral of a `u64`, without a leading zero. -/
structure IsNumeral (base num : Nat) (s : List Byte) : Prop where
  nonempty : s ≠ []
  length : s.length ≤ 64
  isDigit : ∀ c ∈ s, IsDigit c
  digit_lt : ∀ c ∈ s, digitValue c < base
  leading : s.head? = some 0x30 → num = 0
  value : valueOf base s = num

theorem digitValue_digitChar {d : Nat} (hd : d < 36) : digitValue (digitChar d) = d :=
  (by decide : ∀ d < 36, digitValue (digitChar d) = d) d hd

theorem isDigit_digitChar {d : Nat} (hd : d < 36) : IsDigit (digitChar d) := by
  unfold digitChar IsDigit
  split
  · rw [BitVec.toNat_ofNat, Nat.mod_eq_of_lt (by omega)]
    omega
  · rw [BitVec.toNat_ofNat, Nat.mod_eq_of_lt (by omega)]
    omega

/-- The loop makes the digits that the number has, when the turns are enough for it. -/
theorem digitsFrom_eq_digits {left num : Nat} (hbase : 1 < base) (hnum : num < base ^ left) :
    digitsFrom base left num = (base.digits num).map digitChar := by
  induction left generalizing num with
  | zero =>
    rw [Nat.pow_zero] at hnum
    obtain rfl : num = 0 := by omega
    rw [digitsFrom, Nat.digits_zero, List.map_nil]
  | succ left ih =>
    rw [digitsFrom]
    split
    · next hzero => rw [hzero, Nat.digits_zero, List.map_nil]
    · next hpos =>
      have hquot : num / base < base ^ left := by
        rw [Nat.pow_succ] at hnum
        exact Nat.div_lt_of_lt_mul (by rwa [Nat.mul_comm])
      rw [Nat.digits_def' hbase (Nat.pos_of_ne_zero hpos), List.map_cons, ih hquot]

/-- Digits turned around, read from left to right, are worth the number. -/
theorem valueOf_reverse_map {ds : List Nat} (hds : ∀ d ∈ ds, d < 36) :
    valueOf base (ds.map digitChar).reverse = Nat.ofDigits base ds := by
  induction ds with
  | nil => rfl
  | cons d ds ih =>
    have htail := ih fun x hx => hds x (List.mem_cons_of_mem d hx)
    have hd := digitValue_digitChar (hds d List.mem_cons_self)
    rw [valueOf] at htail
    rw [valueOf, List.map_cons, List.reverse_cons, List.foldl_append, htail, List.foldl_cons,
      List.foldl_nil, hd, Nat.ofDigits_cons, Nat.mul_comm, Nat.add_comm]

/-- The numeral of a number other than zero is its digits turned around. -/
theorem numeral_eq_digits {num : Nat} (hbase : 1 < base) (hnum : num < 2 ^ 64) (hpos : num ≠ 0) :
    numeral base num = ((base.digits num).map digitChar).reverse := by
  rw [numeral, if_neg hpos, digitsFrom_eq_digits hbase (lt_base_pow hbase hnum)]

/-- The first digit is not a zero. -/
theorem head?_numeral {num : Nat} (hbase : 1 < base) (hbase' : base ≤ 36) (hnum : num < 2 ^ 64)
    (hhead : (numeral base num).head? = some 0x30) : num = 0 := by
  by_contra hpos
  have hne : base.digits num ≠ [] := Nat.digits_ne_nil_iff_ne_zero.mpr hpos
  have hlt : (base.digits num).getLast hne < base :=
    Nat.digits_lt_base hbase (List.getLast_mem hne)
  rw [numeral_eq_digits hbase hnum hpos, List.head?_reverse, List.getLast?_map,
    List.getLast?_eq_getLast_of_ne_nil hne, Option.map_some] at hhead
  -- the last digit from the right would be worth nothing
  have hvalue := digitValue_digitChar (Nat.lt_of_lt_of_le hlt hbase')
  rw [Option.some.inj hhead] at hvalue
  exact Nat.getLast_digit_ne_zero base hpos hvalue.symm

/-- The numeral of zero is its one digit. -/
theorem numeral_zero (base : Nat) : numeral base 0 = [digitChar 0] := rfl

/-- The characters of a numeral are those of digits below the base. -/
theorem exists_digit {num : Nat} {c : Byte} (hbase : 1 < base) (hnum : num < 2 ^ 64)
    (hc : c ∈ numeral base num) : ∃ d < base, digitChar d = c := by
  by_cases hpos : num = 0
  · rw [hpos, numeral_zero, List.mem_singleton] at hc
    exact ⟨0, Nat.zero_lt_of_lt hbase, hc.symm⟩
  · rw [numeral_eq_digits hbase hnum hpos, List.mem_reverse] at hc
    obtain ⟨d, hd, rfl⟩ := List.mem_map.mp hc
    exact ⟨d, Nat.digits_lt_base hbase hd, rfl⟩

theorem numeral_ne_nil {num : Nat} (hbase : 1 < base) (hnum : num < 2 ^ 64) :
    numeral base num ≠ [] := by
  by_cases hpos : num = 0
  · rw [hpos, numeral_zero]
    exact List.cons_ne_nil _ _
  · rw [numeral_eq_digits hbase hnum hpos, ne_eq, List.reverse_eq_nil_iff, List.map_eq_nil_iff]
    exact Nat.digits_ne_nil_iff_ne_zero.mpr hpos

/-- In every base a numeral has no more than 64 digits. -/
theorem length_numeral_le_bits {num : Nat} (hbase : 1 < base) (hnum : num < 2 ^ 64) :
    (numeral base num).length ≤ 64 := by
  by_cases hpos : num = 0
  · rw [hpos, numeral_zero, List.length_singleton]
    decide
  · rw [numeral_eq_digits hbase hnum hpos, List.length_reverse, List.length_map,
      Nat.digits_length_le_iff hbase]
    exact lt_base_pow hbase hnum

/-- Read from left to right, a numeral is worth the number. -/
theorem valueOf_numeral {num : Nat} (hbase : 1 < base) (hbase' : base ≤ 36) (hnum : num < 2 ^ 64) :
    valueOf base (numeral base num) = num := by
  by_cases hpos : num = 0
  · rw [hpos, numeral_zero, valueOf, List.foldl_cons, List.foldl_nil,
      digitValue_digitChar (by decide), Nat.zero_mul]
  · have hdigit : ∀ d ∈ base.digits num, d < 36 := fun d hd =>
      Nat.lt_of_lt_of_le (Nat.digits_lt_base hbase hd) hbase'
    rw [numeral_eq_digits hbase hnum hpos, valueOf_reverse_map hdigit, Nat.ofDigits_digits]

theorem numeral_isNumeral {num : Nat} (hbase : 1 < base) (hbase' : base ≤ 36)
    (hnum : num < 2 ^ 64) : IsNumeral base num (numeral base num) := by
  refine ⟨numeral_ne_nil hbase hnum, length_numeral_le_bits hbase hnum, fun c hc => ?_,
    fun c hc => ?_, head?_numeral hbase hbase' hnum, valueOf_numeral hbase hbase' hnum⟩
  · obtain ⟨d, hd, rfl⟩ := exists_digit hbase hnum hc
    exact isDigit_digitChar (Nat.lt_of_lt_of_le hd hbase')
  · obtain ⟨d, hd, rfl⟩ := exists_digit hbase hnum hc
    rwa [digitValue_digitChar (Nat.lt_of_lt_of_le hd hbase')]

/-- The numeral and the null are in memory after a call. -/
theorem itoa_stringAt (m : Mem) (buf : Nat) {num : Nat} (hbase : 0 < base) (hbase' : base ≤ 36) :
    (itoa m num buf base).2.StringAt buf (numeral base num) := by
  rw [itoa_eq]
  exact ⟨zero_notMem_numeral hbase hbase', Mem.holdsAt_copy m buf (numeral base num ++ [0])⟩

theorem itoa_of_outside {num buf x : Nat}
    (hx : x < buf ∨ buf + (numeral base num).length < x) : (itoa m num buf base).2 x = m x := by
  rw [itoa_eq]
  exact Mem.copy_of_outside (by rw [List.length_append, List.length_singleton]; omega)

/-- **What `itoa` leaves in a buffer**: a numeral of the number with a null behind it and no byte
beyond that, and no other number gives the same string. -/
theorem itoa_numeral (m : Mem) (num buf base : Nat) (hbase : 2 ≤ base) (hbase' : base ≤ 36)
    (hnum : num < 2 ^ 64) :
    ∃ s, (itoa m num buf base).2.StringAt buf s ∧ IsNumeral base num s ∧
      (∀ x, x < buf ∨ buf + s.length < x → (itoa m num buf base).2 x = m x) ∧
      ∀ m' buf' num', num' < 2 ^ 64 → (itoa m' num' buf' base).2.StringAt buf' s → num' = num := by
  have isNumeral := numeral_isNumeral hbase hbase' hnum
  refine ⟨numeral base num, itoa_stringAt m buf (by omega) hbase', isNumeral,
    fun x hx => itoa_of_outside hx, fun m' buf' num' hnum' string => ?_⟩
  have hsame := string.unique (itoa_stringAt m' buf' (by omega) hbase')
  rw [← valueOf_numeral hbase hbase' hnum', ← hsame, isNumeral.value]

/-- 255 in base 16. -/
theorem itoa_numeral_ff : ∃ s, (itoa (fun _ => 0) 255 0 16).2.StringAt 0 s ∧ IsNumeral 16 255 s ∧
    (∀ x, x < 0 ∨ 0 + s.length < x → (itoa (fun _ => 0) 255 0 16).2 x = 0) ∧
    ∀ m' buf' num', num' < 2 ^ 64 → (itoa m' num' buf' 16).2.StringAt buf' s → num' = 255 :=
  itoa_numeral (fun _ => 0) 255 0 16 (by decide) (by decide) (by decide)

end PrintOS
