import PrintOS.Drivers.Keyboard
import PrintOS.Lib.Run

/-!
# The shift and Caps Lock flags

What a keyboard does is told by the codes it sends: a key is held from its make code to its break
code, where neither comes after the byte 0xE0 (`Held`), and it is pressed at a make code that finds
it not held (`presses`). The driver's flags are compared with that after every code of a sequence.

Neither flag is right for every sequence. `shift_right_iff` and `capslock_right_iff` say for which
ones it is: both flags are set from the last code alone, so the second shift key, a code with the
prefix, and a repeated make code of Caps Lock each put them wrong.
-/

namespace PrintOS.Keyboard

open ByteMemory (Byte)
open ScanCode

/-! ## What the driver makes of a code -/

theorem keyOf_eq_shiftIn :
    ∀ code, keyOf code = .shiftIn ↔ code = LEFT_SHIFT_IN ∨ code = RIGHT_SHIFT_IN := by
  decide +kernel

theorem keyOf_eq_shiftOut :
    ∀ code, keyOf code = .shiftOut ↔ code = LEFT_SHIFT_OUT ∨ code = RIGHT_SHIFT_OUT := by
  decide +kernel

theorem keyOf_eq_capslock : ∀ code, keyOf code = .capslock ↔ code = CAPSLOCK_IN := by
  decide +kernel

/-- The second character of every letter is the first in upper case. -/
theorem charKeyOf_letter {code : Byte} {chr modChr : Char}
    (h : charKeyOf code = .letter chr modChr) : modChr = chr.toUpper := by
  unfold charKeyOf at h
  split at h <;> cases h <;> rfl

theorem keyOf_letter {code : Byte} {chr modChr : Char} (h : keyOf code = .letter chr modChr) :
    modChr = chr.toUpper := by
  unfold keyOf at h
  split_ifs at h
  exact charKeyOf_letter h

/-- What a code does to the shift flag. -/
theorem shift_readKey (k : Keyboard) (code : Byte) :
    (k.readKey code).2.shift =
      if code = LEFT_SHIFT_IN ∨ code = RIGHT_SHIFT_IN then true
      else if code = LEFT_SHIFT_OUT ∨ code = RIGHT_SHIFT_OUT then false
      else k.shift := by
  simp only [← keyOf_eq_shiftIn, ← keyOf_eq_shiftOut, readKey]
  cases keyOf code <;> rfl

/-- What a code does to the Caps Lock flag. -/
theorem capslock_readKey (k : Keyboard) (code : Byte) :
    (k.readKey code).2.capslock = if code = CAPSLOCK_IN then !k.capslock else k.capslock := by
  simp only [← keyOf_eq_capslock, readKey]
  cases keyOf code <;> rfl

/-- A letter is in upper case exactly when one flag is set and the other is not. -/
theorem readKey_letter (k : Keyboard) {code : Byte} {chr modChr : Char}
    (h : keyOf code = .letter chr modChr) :
    (k.readKey code).1 = ascii (if k.capslock ≠ k.shift then chr.toUpper else chr) := by
  rw [readKey, h, ← keyOf_letter h]
  obtain ⟨shift, capslock⟩ := k
  cases shift <;> cases capslock <;> rfl

theorem readKeys_snoc (k : Keyboard) (codes : List Byte) (code : Byte) :
    k.readKeys (codes ++ [code]) = ((k.readKeys codes).readKey code).2 := by
  rw [readKeys, List.foldl_append]
  rfl

/-! ## What the codes say of a key -/

/-- The byte before the codes of the keys that were added later. -/
def EXTENDED : Byte := 0xe0

/-- The break code of a make code. -/
def breakCode (make : Byte) : Byte := make ||| 0x80

/-- The code after these is an extended one. -/
def Extended (codes : List Byte) : Prop := codes.getLast? = some EXTENDED

instance (codes : List Byte) : Decidable (Extended codes) :=
  inferInstanceAs (Decidable (_ = _))

/-- The key with this make code is held after the codes: the make code was seen, not extended, and
no break code of the key since that was not extended. -/
def Held (make : Byte) (codes : List Byte) : Prop :=
  ∃ pre post, codes = pre ++ make :: post ∧ ¬ Extended pre ∧
    ∀ mid rest, post = mid ++ breakCode make :: rest → Extended (pre ++ make :: mid)

theorem not_held_nil (make : Byte) : ¬ Held make [] := by
  rintro ⟨pre, post, h, -⟩
  exact absurd h (by simp)

/-- One code more: its make code not extended, or held before and not released now. -/
theorem held_snoc {make code : Byte} {codes : List Byte} :
    Held make (codes ++ [code]) ↔ (code = make ∧ ¬ Extended codes) ∨
      (Held make codes ∧ (code = breakCode make → Extended codes)) := by
  constructor
  · rintro ⟨pre, post, hsplit, hplain, hkept⟩
    rcases List.eq_nil_or_concat post with rfl | ⟨post, last, rfl⟩
    · obtain ⟨rfl, hcode⟩ := List.append_inj' hsplit rfl
      exact .inl ⟨List.singleton_inj.mp hcode, hplain⟩
    · rw [List.concat_eq_append] at hsplit hkept
      rw [← List.cons_append, ← List.append_assoc] at hsplit
      obtain ⟨rfl, hcode⟩ := List.append_inj' hsplit rfl
      obtain rfl := List.singleton_inj.mp hcode
      refine .inr ⟨⟨pre, post, rfl, hplain, ?_⟩, ?_⟩
      · rintro mid rest rfl
        exact hkept mid (rest ++ [code]) (by simp)
      · rintro rfl
        exact hkept post [] rfl
  · rintro (⟨rfl, hplain⟩ | ⟨⟨pre, post, rfl, hplain, hkept⟩, hlast⟩)
    · refine ⟨codes, [], rfl, hplain, ?_⟩
      intro mid rest h
      exact absurd h (by simp)
    · refine ⟨pre, post ++ [code], by simp, hplain, ?_⟩
      intro mid rest h
      rcases List.eq_nil_or_concat rest with rfl | ⟨rest, last, rfl⟩
      · obtain ⟨rfl, hcode⟩ := List.append_inj' h rfl
        exact hlast (List.singleton_inj.mp hcode)
      · rw [List.concat_eq_append, ← List.cons_append, ← List.append_assoc] at h
        exact hkept mid rest (List.append_inj' h rfl).1

/-- Whether a key is held, and how often it was pressed, told one code at a time. -/
structure Watch where
  codes : List Byte := []
  held : Bool := false
  presses : Nat := 0

/-- One code more. A make code that finds its key held is a repetition. -/
def Watch.see (make : Byte) (w : Watch) (code : Byte) : Watch :=
  { codes := w.codes ++ [code]
    held :=
      if ¬ Extended w.codes ∧ code = make then true
      else if ¬ Extended w.codes ∧ code = breakCode make then false
      else w.held
    presses :=
      if ¬ Extended w.codes ∧ code = make ∧ w.held = false then w.presses + 1 else w.presses }

def watch (make : Byte) (codes : List Byte) : Watch := codes.foldl (Watch.see make) {}

/-- How often the key with this make code was pressed. -/
def presses (make : Byte) (codes : List Byte) : Nat := (watch make codes).presses

theorem watch_snoc (make : Byte) (codes : List Byte) (code : Byte) :
    watch make (codes ++ [code]) = (watch make codes).see make code := by
  rw [watch, List.foldl_append]
  rfl

theorem codes_watch (make : Byte) (codes : List Byte) : (watch make codes).codes = codes := by
  induction codes using List.reverseRecOn with
  | nil => rfl
  | append_singleton codes code ih => rw [watch_snoc, Watch.see, ih]

theorem held_watch (make : Byte) (codes : List Byte) :
    (watch make codes).held = true ↔ Held make codes := by
  induction codes using List.reverseRecOn with
  | nil => exact iff_of_false Bool.false_ne_true (not_held_nil make)
  | append_singleton codes code ih =>
    rw [watch_snoc, held_snoc, ← ih, Watch.see, codes_watch]
    by_cases hext : Extended codes <;> by_cases hmake : code = make <;>
      by_cases hbreak : code = breakCode make <;> simp [hext, hmake, hbreak]

instance (make : Byte) (codes : List Byte) : Decidable (Held make codes) :=
  decidable_of_iff _ (held_watch make codes)

/-- A press is a make code, not extended, of a key that is not held. -/
theorem presses_snoc (make : Byte) (codes : List Byte) (code : Byte) :
    presses make (codes ++ [code]) = presses make codes +
      if code = make ∧ ¬ Extended codes ∧ ¬ Held make codes then 1 else 0 := by
  simp only [presses, watch_snoc, Watch.see, codes_watch, ← held_watch]
  by_cases hext : Extended codes <;> by_cases hmake : code = make <;>
    cases (watch make codes).held <;> simp [hext, hmake]

/-! ## The shift flag -/

/-- The shift flag says whether a shift key is held. -/
def ShiftRight (codes : List Byte) : Prop :=
  (readKeys {} codes).shift = true ↔ Held LEFT_SHIFT_IN codes ∨ Held RIGHT_SHIFT_IN codes

/-- The codes under which the flag stays right: a make code with the prefix comes while a shift key
is held, and a break code comes while the other shift key is not held, and with the prefix while
neither is. -/
@[mk_iff]
structure ShiftClean (codes : List Byte) (code : Byte) : Prop where
  make : code = LEFT_SHIFT_IN ∨ code = RIGHT_SHIFT_IN → Extended codes →
    Held LEFT_SHIFT_IN codes ∨ Held RIGHT_SHIFT_IN codes
  left : code = LEFT_SHIFT_OUT →
    ¬ Held RIGHT_SHIFT_IN codes ∧ (Extended codes → ¬ Held LEFT_SHIFT_IN codes)
  right : code = RIGHT_SHIFT_OUT →
    ¬ Held LEFT_SHIFT_IN codes ∧ (Extended codes → ¬ Held RIGHT_SHIFT_IN codes)

theorem shiftRight_snoc (codes : List Byte) (code : Byte) (h : ShiftRight codes) :
    ShiftRight (codes ++ [code]) ↔ ShiftClean codes code := by
  have hl : breakCode LEFT_SHIFT_IN = LEFT_SHIFT_OUT := rfl
  have hr : breakCode RIGHT_SHIFT_IN = RIGHT_SHIFT_OUT := rfl
  have apart : LEFT_SHIFT_IN ≠ LEFT_SHIFT_OUT ∧ LEFT_SHIFT_IN ≠ RIGHT_SHIFT_OUT ∧
      RIGHT_SHIFT_IN ≠ LEFT_SHIFT_OUT ∧ RIGHT_SHIFT_IN ≠ RIGHT_SHIFT_OUT ∧
      LEFT_SHIFT_OUT ≠ RIGHT_SHIFT_OUT := by decide
  rw [ShiftRight] at h
  rw [ShiftRight, readKeys_snoc, shift_readKey, held_snoc, held_snoc, hl, hr, shiftClean_iff]
  by_cases hmake : code = LEFT_SHIFT_IN ∨ code = RIGHT_SHIFT_IN
  · -- the flag is set, and the key is held unless the code was extended
    rw [if_pos hmake]
    grind
  by_cases hbreak : code = LEFT_SHIFT_OUT ∨ code = RIGHT_SHIFT_OUT
  · -- the flag is cleared, and the other key may still be held
    rw [if_neg hmake, if_pos hbreak]
    grind
  · rw [if_neg hmake, if_neg hbreak, h]
    grind

/-- **When the shift flag is right.** After every code of a sequence it says whether a shift key is
held, exactly when every code of the sequence is clean. -/
theorem shift_right_iff (codes : List Byte) :
    (∀ pre post, codes = pre ++ post → ShiftRight pre) ↔
      ∀ pre code post, codes = pre ++ code :: post → ShiftClean pre code := by
  refine history_iff ?_ shiftRight_snoc codes
  exact iff_of_false (by decide) (by decide)

/-- Both shift keys pressed and the left one released: the right one is held, and the flag is
cleared. -/
theorem shift_wrong_after_left_release :
    ¬ ∀ pre post, [LEFT_SHIFT_IN, RIGHT_SHIFT_IN, LEFT_SHIFT_OUT] = pre ++ post →
      ShiftRight pre := by
  intro h
  exact absurd (h _ [] (List.append_nil _).symm) (by unfold ShiftRight; decide)

/-! ## The Caps Lock flag -/

/-- The Caps Lock flag is the parity of the presses of Caps Lock. -/
def CapslockRight (codes : List Byte) : Prop :=
  (readKeys {} codes).capslock = true ↔ presses CAPSLOCK_IN codes % 2 = 1

/-- The flag stays right under every code but a make code of Caps Lock that is no press: one that
is extended, or that finds the key held. -/
def CapslockClean (codes : List Byte) (code : Byte) : Prop :=
  code = CAPSLOCK_IN → ¬ Extended codes ∧ ¬ Held CAPSLOCK_IN codes

theorem capslockRight_snoc (codes : List Byte) (code : Byte) (h : CapslockRight codes) :
    CapslockRight (codes ++ [code]) ↔ CapslockClean codes code := by
  rw [CapslockRight] at h
  rw [CapslockRight, readKeys_snoc, capslock_readKey, presses_snoc, CapslockClean]
  by_cases hcode : code = CAPSLOCK_IN
  · rw [if_pos hcode, Bool.not_eq_true']
    by_cases hpress : ¬ Extended codes ∧ ¬ Held CAPSLOCK_IN codes
    · rw [if_pos ⟨hcode, hpress⟩]
      refine iff_of_true ?_ fun _ => hpress
      rw [← Bool.not_eq_true, h]
      omega
    · -- the flag is turned over and nothing is counted
      rw [if_neg fun h => hpress h.2]
      refine iff_of_false ?_ fun h => hpress (h hcode)
      rw [← Bool.not_eq_true, h]
      omega
  · rw [if_neg hcode, if_neg fun h => hcode h.1]
    exact iff_of_true h fun h => absurd h hcode

/-- Every letter key answers in upper case exactly when Caps Lock differs from shift. -/
def LettersRight (k : Keyboard) : Prop :=
  ∀ code chr modChr, keyOf code = .letter chr modChr →
    (k.readKey code).1 = ascii (if k.capslock ≠ k.shift then chr.toUpper else chr)

/-- **When the Caps Lock flag is right.** After every code of a sequence it is the parity of the
presses of Caps Lock, and letters come out by it, exactly when no make code of Caps Lock in the
sequence is extended or repeated. -/
theorem capslock_right_iff (codes : List Byte) :
    (∀ pre post, codes = pre ++ post → CapslockRight pre ∧ LettersRight (readKeys {} pre)) ↔
      ∀ pre code post, codes = pre ++ code :: post → CapslockClean pre code := by
  have hletters : ∀ k, LettersRight k := fun k _ _ _ => k.readKey_letter
  have hnil : CapslockRight [] := iff_of_false (by decide) (by decide)
  rw [← history_iff hnil capslockRight_snoc codes]
  constructor
  · intro h pre post hsplit
    exact (h pre post hsplit).1
  · intro h pre post hsplit
    exact ⟨h pre post hsplit, hletters _⟩

/-- Caps Lock held long enough to repeat: one press, and the flag is cleared again. -/
theorem capslock_wrong_after_repeat :
    ¬ ∀ pre post, [CAPSLOCK_IN, CAPSLOCK_IN] = pre ++ post →
      CapslockRight pre ∧ LettersRight (readKeys {} pre) := by
  intro h
  exact absurd (h _ [] (List.append_nil _).symm).1 (by unfold CapslockRight; decide)

end PrintOS.Keyboard
