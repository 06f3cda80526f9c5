import Mathlib.Algebra.Group.Nat.Defs
import Mathlib.Tactic.Common

/-!
# Bit-fields of a word

A field is `w` bits of a word from bit `lo` on. Fields over separate bits are independent, and
writing a field of a word of `n` bits leaves a word of `n` bits. The laws go through the bits
of the word (`testBit_set`, `testBit_get`), where both are plain case splits.
-/

namespace BitField

/-- The field's value. -/
def get (lo w e : Nat) : Nat := e / 2 ^ lo % 2 ^ w

/-- The word with the field set to the low bits of `v`. -/
def set (lo w v e : Nat) : Nat :=
  2 ^ (lo + w) * (e / 2 ^ (lo + w)) + (2 ^ lo * (v % 2 ^ w) + e % 2 ^ lo)

theorem testBit_get (lo w e j : Nat) :
    (get lo w e).testBit j = (decide (j < w) && e.testBit (lo + j)) := by
  rw [get, Nat.testBit_mod_two_pow, Nat.testBit_div_two_pow, Nat.add_comm]

private theorem low_lt (lo w v e : Nat) : 2 ^ lo * (v % 2 ^ w) + e % 2 ^ lo < 2 ^ (lo + w) := by
  have hv : v % 2 ^ w + 1 ≤ 2 ^ w := Nat.mod_lt _ (Nat.two_pow_pos w)
  have he : e % 2 ^ lo < 2 ^ lo := Nat.mod_lt _ (Nat.two_pow_pos lo)
  calc 2 ^ lo * (v % 2 ^ w) + e % 2 ^ lo
      < 2 ^ lo * (v % 2 ^ w) + 2 ^ lo := Nat.add_lt_add_left he _
    _ = 2 ^ lo * (v % 2 ^ w + 1) := by rw [Nat.mul_add, Nat.mul_one]
    _ ≤ 2 ^ lo * 2 ^ w := Nat.mul_le_mul_left _ hv
    _ = 2 ^ (lo + w) := (Nat.pow_add 2 lo w).symm

/-- Inside the field the bits are those of `v`, outside they are those of the word. -/
theorem testBit_set (lo w v e j : Nat) :
    (set lo w v e).testBit j =
      if lo ≤ j ∧ j < lo + w then v.testBit (j - lo) else e.testBit j := by
  rw [set, Nat.testBit_two_pow_mul_add _ (low_lt lo w v e)]
  by_cases hhigh : j < lo + w
  · rw [if_pos hhigh, Nat.testBit_two_pow_mul_add _ (Nat.mod_lt _ (Nat.two_pow_pos lo))]
    by_cases hlow : j < lo
    · rw [if_pos hlow, if_neg (by omega), Nat.testBit_mod_two_pow]
      simp [hlow]
    · rw [if_neg hlow, if_pos (by omega), Nat.testBit_mod_two_pow]
      simp [show j - lo < w by omega]
  · rw [if_neg hhigh, if_neg (by omega), Nat.testBit_div_two_pow]
    congr 1
    omega

theorem get_set (lo w v e : Nat) : get lo w (set lo w v e) = v % 2 ^ w := by
  refine Nat.eq_of_testBit_eq fun j => ?_
  rw [testBit_get, testBit_set, Nat.testBit_mod_two_pow]
  by_cases hj : j < w
  · rw [if_pos (by omega), Nat.add_sub_cancel_left]
  · simp [hj]

theorem get_set_disjoint {lo w lo' w' v e : Nat} (h : lo' + w' ≤ lo ∨ lo + w ≤ lo') :
    get lo' w' (set lo w v e) = get lo' w' e := by
  refine Nat.eq_of_testBit_eq fun j => ?_
  rw [testBit_get, testBit_get, testBit_set]
  by_cases hj : j < w'
  · rw [if_neg (by omega)]
  · simp [hj]

/-- A field that has the value already. -/
theorem set_get {lo w v e : Nat} (h : get lo w e = v % 2 ^ w) : set lo w v e = e := by
  refine Nat.eq_of_testBit_eq fun j => ?_
  rw [testBit_set]
  split
  · next hj =>
    have hbit := congrArg (fun n => n.testBit (j - lo)) h
    rw [testBit_get, Nat.testBit_mod_two_pow, Nat.add_sub_cancel' hj.1] at hbit
    have hw : decide (j - lo < w) = true := decide_eq_true (by omega)
    rw [hw, Bool.true_and, Bool.true_and] at hbit
    exact hbit.symm
  · rfl

theorem set_lt {lo w v e n : Nat} (he : e < 2 ^ n) (hn : lo + w ≤ n) :
    set lo w v e < 2 ^ n := by
  refine Nat.lt_pow_two_of_testBit _ fun j hj => ?_
  rw [testBit_set, if_neg (by omega)]
  exact Nat.testBit_lt_two_pow (Nat.lt_of_lt_of_le he (Nat.pow_le_pow_right (by decide) hj))

end BitField
