import Mathlib.Computability.StateTransition
import PrintOS.Kutils.Console
import PrintOS.Laws.Libc.Stdlib

/-!
# What `kprintf` prints, and where it writes

A format and its arguments stand for a text (`expand`): the characters of the format, the strings,
the numerals, and nothing for a specifier that is not known. `item` is what one character of the
format adds.

As long as the text is shorter than the buffer, the buffer has what was added so far, and every
store was to one of the two buffers (`Text`); one turn of the loop adds what its character stands
for (`turn_onTheWay`). The turn that comes to the end of the buffer stores past it, or leaves the
position there (`Overrun`).

The position in the format has 16 bits, so that a format of 65536 characters is never at its end. So
`__printf` ends and keeps to its buffers exactly when the format is shorter than that and the text
is shorter than the buffer (`printf_safe_iff`), and what it prints then is the text
(`printf_prints`).
-/

namespace PrintOS.Printf

open ByteMemory (Mem Byte)
open StateTransition (Reaches eval mem_eval)

/-! ## The text of a format -/

/-- What a specifier takes. -/
inductive Arg
  | str (s : List Byte)
  | num (n : Nat)
  deriving Repr, DecidableEq

/-- What one character of a format adds to the text, whether the next one is a specifier, and the
arguments that are left. There is no answer where the arguments do not match. -/
def item (percent : Bool) (chr : Byte) (args : List Arg) : Option (List Byte × Bool × List Arg) :=
  if percent then
    if chr = STRING then
      match args with
      | .str s :: args => some (s, false, args)
      | _ => none
    else if chr = DECIMAL then
      match args with
      | .num n :: args => some (bytesOfChars (Nat.toDigits 10 n), false, args)
      | _ => none
    else if chr = POINTER then
      match args with
      | .num n :: args => some (bytesOfChars (Nat.toDigits 16 n), false, args)
      | _ => none
    else some ([], false, args)
  else if chr = PERCENT then some ([], true, args)
  else some ([chr], false, args)

/-- The text of a format, where its first character is a specifier or not. -/
def expandFrom (percent : Bool) : List Byte → List Arg → Option (List Byte)
  | [], _ => some []
  | chr :: rest, args => do
    let (piece, percent, args) ← item percent chr args
    let tail ← expandFrom percent rest args
    return piece ++ tail

def expand (fmt : List Byte) (args : List Arg) : Option (List Byte) := expandFrom false fmt args

theorem expandFrom_cons {percent : Bool} {chr : Byte} {rest text : List Byte} {args : List Arg}
    (h : expandFrom percent (chr :: rest) args = some text) :
    ∃ piece percent' args' tail, item percent chr args = some (piece, percent', args') ∧
      expandFrom percent' rest args' = some tail ∧ text = piece ++ tail := by
  obtain ⟨⟨piece, percent', args'⟩, hitem, h⟩ := Option.bind_eq_some_iff.mp h
  obtain ⟨tail, htail, h⟩ := Option.bind_eq_some_iff.mp h
  exact ⟨piece, percent', args', tail, hitem, htail, (Option.some.inj h).symm⟩

/-! ## The layout of a call -/

variable {f : Frame} {m : Mem} {s : State} {fmt out text : List Byte} {args : List Arg}

/-- A range that meets neither of the buffers. -/
def Frame.Apart (f : Frame) (a n : Nat) : Prop :=
  (a + n ≤ f.buf ∨ f.buf + BUF_SZ ≤ a) ∧ (a + n ≤ f.tempBuf ∨ f.tempBuf + TEMP_BUF_SZ ≤ a)

/-- A store to one of the buffers. -/
def Frame.Inside (f : Frame) (w : Nat × Nat) : Prop :=
  ∀ b, w.1 ≤ b → b < w.1 + w.2 →
    (f.buf ≤ b ∧ b < f.buf + BUF_SZ) ∨ (f.tempBuf ≤ b ∧ b < f.tempBuf + TEMP_BUF_SZ)

/-- The format is a string, the arguments are what `va_arg` gives, and the buffers are apart from
each other and from the strings. -/
structure Matches (f : Frame) (m : Mem) (fmt : List Byte) (args : List Arg) : Prop where
  buffers : f.buf + BUF_SZ ≤ f.tempBuf ∨ f.tempBuf + TEMP_BUF_SZ ≤ f.buf
  format : m.StringAt f.str fmt ∧ f.Apart f.str (fmt.length + 1) ∧ f.str + fmt.length < 2 ^ 64
  strings : ∀ k s, args[k]? = some (.str s) →
    m.StringAt (f.args k) s ∧ f.Apart (f.args k) (s.length + 1) ∧ f.args k + s.length < 2 ^ 64
  numbers : ∀ k n, args[k]? = some (.num n) → f.args k = n ∧ n < 2 ^ 64

/-! ## The stores -/

/-- Memory that no store of the list reaches is as it was. -/
def Covers (m : Mem) (s : State) : Prop :=
  ∀ b, (∀ w ∈ s.written, b < w.1 ∨ w.1 + w.2 ≤ b) → s.mem b = m b

theorem addString_covers {src : Nat} (h : Covers m s) : Covers m (addString f s src) := by
  unfold addString
  split
  · exact h
  · intro b hb
    have hlast := hb _ (List.mem_append_right _ (List.mem_singleton_self _))
    have hcopy : memcpy s.mem (f.buf + s.j) src _ b = s.mem b := Mem.move_of_outside hlast
    exact hcopy.trans (h b fun w hw => hb w (List.mem_append_left _ hw))

/-- The state once `itoa` has written a number to the second buffer. -/
def numbered (f : Frame) (s : State) (num base : Nat) : State :=
  { s with
    mem := s.mem.copy f.tempBuf (numeral base num ++ [0])
    written := s.written ++ [(f.tempBuf, (numeral base num).length + 1)] }

theorem addNumber_eq (num base : Nat) :
    addNumber f s num base = addString f (numbered f s num base) f.tempBuf := by
  rw [addNumber, itoa_eq]
  rfl

theorem numbered_covers {num base : Nat} (h : Covers m s) : Covers m (numbered f s num base) := by
  intro b hb
  have hlast := hb _ (List.mem_append_right _ (List.mem_singleton_self _))
  have hcopy : s.mem.copy f.tempBuf (numeral base num ++ [0]) b = s.mem b := by
    refine Mem.copy_of_outside ?_
    rw [List.length_append, List.length_singleton]
    exact hlast
  exact hcopy.trans (h b fun w hw => hb w (List.mem_append_left _ hw))

theorem addNumber_covers {num base : Nat} (h : Covers m s) : Covers m (addNumber f s num base) := by
  rw [addNumber_eq]
  exact addString_covers (numbered_covers h)

theorem addChar_covers {chr : Byte} (h : Covers m s) : Covers m (addChar f s chr) := by
  intro b hb
  have hlast := hb _ (List.mem_append_right _ (List.mem_singleton_self _))
  have hwrite : s.mem.write (f.buf + s.j) chr b = s.mem b := by
    refine Mem.write_of_ne ?_
    simp only at hlast
    omega
  exact hwrite.trans (h b fun w hw => hb w (List.mem_append_left _ hw))

theorem convert_covers {chr : Byte} (h : Covers m s) : Covers m (convert f s chr) := by
  unfold convert
  split
  · exact addString_covers h
  split
  · exact addNumber_covers h
  split
  · exact addNumber_covers h
  · exact h

theorem turn_covers (h : Covers m s) : Covers m (turn f s) := by
  have hbody : Covers m (body f s (s.mem (f.str + s.i))) := by
    unfold body
    split
    · exact convert_covers h
    split
    · exact h
    · exact addChar_covers h
  exact hbody

theorem finish_covers (h : Covers m s) : Covers m (finish f s) := by
  have hnull : Covers m (addChar f s 0) := addChar_covers h
  exact hnull

/-- **The list of stores is right**: in every state that a call comes to, the memory differs from
that before the call at these bytes only. -/
theorem reaches_covers (h : Reaches (step f) (start f m) s) : Covers m s := by
  induction h with
  | refl =>
    intro b hb
    have hbuf := hb (f.buf, BUF_SZ) List.mem_cons_self
    have htemp := hb (f.tempBuf, TEMP_BUF_SZ) (List.mem_cons_of_mem _ List.mem_cons_self)
    exact (Mem.fill_of_outside htemp).trans (Mem.fill_of_outside hbuf)
  | @tail t u _ hstep ih =>
    have hstep' : step f t = some u := hstep
    unfold step at hstep'
    split at hstep'
    · cases hstep'
    · cases hstep'
      exact ih
    · cases hstep'
      split
      · exact turn_covers ih
      · exact finish_covers ih

/-! ## The buffer -/

/-- The buffer has the text so far, and room for a null; every store was to a buffer. -/
structure Text (f : Frame) (m : Mem) (out : List Byte) (s : State) : Prop where
  j : s.j = out.length
  small : out.length < BUF_SZ
  holds : s.mem.HoldsAt f.buf out
  nonzero : 0 ∉ out
  written : ∀ w ∈ s.written, f.Inside w
  covers : Covers m s

/-- A store went past the buffers, or the next one will. -/
def Overrun (f : Frame) (s : State) : Prop := BUF_SZ ≤ s.j ∨ ∃ w ∈ s.written, ¬ f.Inside w

theorem Text.of_eq {s' : State} (h : Text f m out s) (mem : s'.mem = s.mem) (j : s'.j = s.j)
    (written : s'.written = s.written) : Text f m out s' where
  j := j.trans h.j
  small := h.small
  holds := mem ▸ h.holds
  nonzero := h.nonzero
  written := written ▸ h.written
  covers := by
    intro b hb
    rw [mem]
    rw [written] at hb
    exact h.covers b hb

/-- What is in neither of the buffers is as it was. -/
theorem Text.same (h : Text f m out s) {b : Nat} (hbuf : b < f.buf ∨ f.buf + BUF_SZ ≤ b)
    (htemp : b < f.tempBuf ∨ f.tempBuf + TEMP_BUF_SZ ≤ b) : s.mem b = m b := by
  refine h.covers b fun w hw => ?_
  by_contra hin
  have := h.written w hw b (by omega) (by omega)
  omega

theorem Text.string {a : Nat} {str : List Byte} (h : Text f m out s) (string : m.StringAt a str)
    (apart : f.Apart a (str.length + 1)) : s.mem.StringAt a str := by
  obtain ⟨hbuf, htemp⟩ := apart
  exact string.congr fun x hx hx' => h.same (by omega) (by omega)

theorem inside_buf {a n : Nat} (hlo : f.buf ≤ a) (hhi : a + n ≤ f.buf + BUF_SZ) :
    f.Inside (a, n) :=
  fun b hb hb' => .inl (by simp only at hb hb'; omega)

/-- A store that goes on for more than both buffers is not inside of them: past the end of the
buffer it comes to more bytes than the second one has. -/
theorem not_inside_of_long {a n : Nat} (ha : a < BUF_SZ) (hn : BUF_SZ + TEMP_BUF_SZ < a + n) :
    ¬ f.Inside (f.buf + a, n) := by
  intro inside
  have hfirst := inside (f.buf + BUF_SZ) (by simp only; omega) (by simp only; omega)
  have hlast := inside (f.buf + BUF_SZ + TEMP_BUF_SZ) (by simp only; omega) (by simp only; omega)
  omega

/-- What a part of a turn does that adds a piece to the text. -/
structure Adds (f : Frame) (m : Mem) (out piece : List Byte) (s s' : State) : Prop where
  phase : s'.phase = s.phase
  len : s'.len = s.len
  i : s'.i = s.i
  isPercent : s'.isPercent = s.isPercent
  arg : s'.arg = s.arg
  text : out.length + piece.length < BUF_SZ → Text f m (out ++ piece) s'
  overrun : BUF_SZ ≤ out.length + piece.length → Overrun f s'

/-- Some bytes stored at the end of the text. -/
theorem Text.append {piece : List Byte} {s' : State} (h : Text f m out s)
    (hnonzero : 0 ∉ piece) (hsmall : out.length + piece.length < BUF_SZ)
    (mem : s'.mem = s.mem.copy (f.buf + s.j) piece) (j : s'.j = u16 (s.j + piece.length))
    (written : s'.written = s.written ++ [(f.buf + s.j, piece.length)]) (covers : Covers m s') :
    Text f m (out ++ piece) s' where
  j := by
    rw [j, h.j, List.length_append]
    refine u16_of_lt ?_
    simp only [BUF_SZ] at hsmall
    omega
  small := by rwa [List.length_append]
  holds := by
    rw [mem, h.j]
    refine Mem.holdsAt_append.mpr ⟨?_, Mem.holdsAt_copy _ _ _⟩
    exact h.holds.congr fun x _ hx => Mem.copy_of_outside (.inl hx)
  nonzero := by
    rw [List.mem_append, not_or]
    exact ⟨h.nonzero, hnonzero⟩
  written := by
    rw [written, h.j]
    intro w hw
    rcases List.mem_append.mp hw with hw | hw
    · exact h.written w hw
    · rw [List.mem_singleton.mp hw]
      exact inside_buf (by omega) (by omega)
  covers := covers

/-- The store of a piece that the buffer has no room for. -/
theorem Text.overrun {piece : List Byte} {s' : State} (h : Text f m out s)
    (hbig : BUF_SZ ≤ out.length + piece.length) (j : s'.j = u16 (s.j + piece.length))
    (written : s'.written = s.written ++ [(f.buf + s.j, piece.length)]) : Overrun f s' := by
  have hsmall := h.small
  by_cases hwrap : out.length + piece.length < 2 ^ 16
  · refine .inl ?_
    rw [j, h.j, u16_of_lt hwrap]
    exact hbig
  · -- the position has wrapped, but then the store was long
    refine .inr ⟨(f.buf + s.j, piece.length), ?_, ?_⟩
    · rw [written]
      exact List.mem_append_right _ (List.mem_singleton_self _)
    · rw [h.j]
      refine not_inside_of_long hsmall ?_
      simp only [BUF_SZ, TEMP_BUF_SZ] at hsmall ⊢
      omega

theorem addChar_adds {chr : Byte} (h : Text f m out s) (hchr : chr ≠ 0) :
    Adds f m out [chr] s (addChar f s chr) where
  phase := rfl
  len := rfl
  i := rfl
  isPercent := rfl
  arg := rfl
  text hsmall := by
    refine h.append ?_ hsmall (Mem.copy_singleton _ _ _).symm rfl rfl (addChar_covers h.covers)
    rw [List.mem_singleton]
    exact hchr.symm
  overrun hbig := h.overrun hbig rfl rfl

theorem addString_adds {src : Nat} {piece : List Byte} (h : Text f m out s)
    (string : s.mem.StringAt src piece)
    (apart : src + piece.length + 1 ≤ f.buf ∨ f.buf + BUF_SZ ≤ src) (hlen : piece.length < 2 ^ 64) :
    Adds f m out piece s (addString f s src) := by
  have hadd : addString f s src =
      { s with
        mem := memcpy s.mem (f.buf + s.j) src piece.length
        j := u16 (s.j + piece.length)
        written := s.written ++ [(f.buf + s.j, piece.length)] } := by
    rw [addString, strLen_eq string hlen]
  have hcovers : Covers m (addString f s src) := addString_covers h.covers
  rw [hadd] at hcovers ⊢
  refine ⟨rfl, rfl, rfl, rfl, rfl, fun hsmall => ?_, fun hbig => h.overrun hbig rfl rfl⟩
  refine h.append string.nonzero hsmall ?_ rfl rfl hcovers
  have hholds : s.mem.HoldsAt src piece := (Mem.holdsAt_append.mp string.holds).1
  have hj := h.j
  exact Mem.move_eq_copy hholds (by omega)

/-- A number in the second buffer leaves the text as it was. -/
theorem Text.numbered {num base : Nat} (h : Text f m out s)
    (buffers : f.buf + BUF_SZ ≤ f.tempBuf ∨ f.tempBuf + TEMP_BUF_SZ ≤ f.buf)
    (hlength : (numeral base num).length ≤ 20) : Text f m out (numbered f s num base) where
  j := h.j
  small := h.small
  holds := by
    have hsmall := h.small
    refine h.holds.congr fun x hx hx' => Mem.copy_of_outside ?_
    rw [List.length_append, List.length_singleton]
    simp only [TEMP_BUF_SZ] at buffers
    omega
  nonzero := h.nonzero
  written := by
    intro w hw
    rcases List.mem_append.mp hw with hw | hw
    · exact h.written w hw
    · rw [List.mem_singleton.mp hw]
      intro b hb hb'
      simp only [TEMP_BUF_SZ] at hb hb' ⊢
      exact .inr (by omega)
  covers := numbered_covers h.covers

theorem addNumber_adds {num base : Nat} (h : Text f m out s)
    (buffers : f.buf + BUF_SZ ≤ f.tempBuf ∨ f.tempBuf + TEMP_BUF_SZ ≤ f.buf) (hbase : 10 ≤ base)
    (hbase' : base ≤ 16) (hnum : num < 2 ^ 64) :
    Adds f m out (bytesOfChars (Nat.toDigits base num)) s (addNumber f s num base) := by
  have hlength := length_numeral_le hbase hbase' hnum
  have string : (numbered f s num base).mem.StringAt f.tempBuf (numeral base num) :=
    ⟨zero_notMem_numeral (by omega) (by omega), Mem.holdsAt_copy _ _ _⟩
  have hapart : f.tempBuf + (numeral base num).length + 1 ≤ f.buf ∨ f.buf + BUF_SZ ≤ f.tempBuf := by
    simp only [TEMP_BUF_SZ] at buffers
    omega
  rw [← numeral_eq_toDigits (by omega) hbase' hnum, addNumber_eq]
  obtain ⟨phase, len, i, isPercent, arg, htext, hoverrun⟩ :=
    addString_adds (h.numbered buffers hlength) string hapart (by omega)
  exact ⟨phase, len, i, isPercent, arg, htext, hoverrun⟩

/-! ## One turn -/

/-- A call in its loop: the text so far, and the rest of the format and of the arguments. -/
structure OnTheWay (f : Frame) (m : Mem) (fmt : List Byte) (args : List Arg) (text : List Byte)
    (s : State) : Prop where
  phase : s.phase = .loop
  len : s.len = fmt.length
  i_le : s.i ≤ fmt.length
  text : ∃ out tail, Text f m out s ∧
    expandFrom s.isPercent (fmt.drop s.i) (args.drop s.arg) = some tail ∧ out ++ tail = text

theorem drop_eq_cons {α : Type} {l rest : List α} {k : Nat} {a : α} (h : l.drop k = a :: rest) :
    l[k]? = some a ∧ l.drop (k + 1) = rest := by
  constructor
  · have hget : (l.drop k)[0]? = l[k + 0]? := List.getElem?_drop
    rw [h] at hget
    exact hget.symm
  · rw [← List.tail_drop, h]
    rfl

/-- What the body of the loop does to the text. -/
structure Turned (f : Frame) (m : Mem) (out piece : List Byte) (percent : Bool) (args left : List Arg)
    (s s' : State) : Prop where
  phase : s'.phase = s.phase
  len : s'.len = s.len
  i : s'.i = s.i
  isPercent : s'.isPercent = percent
  args : args.drop s'.arg = left
  text : out.length + piece.length < BUF_SZ → Text f m (out ++ piece) s'
  overrun : BUF_SZ ≤ out.length + piece.length → Overrun f s'

/-- An argument was taken, and a piece was added for it. -/
theorem Adds.turned {piece : List Byte} {left : List Arg} {s' : State}
    (adds : Adds f m out piece { s with arg := s.arg + 1 } s')
    (hleft : args.drop (s.arg + 1) = left) :
    Turned f m out piece false args left s { s' with isPercent := false } where
  phase := adds.phase
  len := adds.len
  i := adds.i
  isPercent := rfl
  args := by
    show args.drop s'.arg = left
    rw [adds.arg]
    exact hleft
  text hsmall := (adds.text hsmall).of_eq rfl rfl rfl
  overrun hbig := adds.overrun hbig

/-- Nothing was added. -/
theorem Text.turned {percent : Bool} (h : Text f m out s) :
    Turned f m out [] percent args (args.drop s.arg) s { s with isPercent := percent } where
  phase := rfl
  len := rfl
  i := rfl
  isPercent := rfl
  args := rfl
  text _ := by
    rw [List.append_nil]
    exact h.of_eq rfl rfl rfl
  overrun hbig := absurd h.small (Nat.not_lt.mpr hbig)

/-- An argument that is a number is in its register as it is. -/
theorem number_turned {n base : Nat} {rest : List Arg} (layout : Matches f m fmt args)
    (h : Text f m out s) (hdrop : args.drop s.arg = .num n :: rest) (hbase : 10 ≤ base)
    (hbase' : base ≤ 16) :
    Turned f m out (bytesOfChars (Nat.toDigits base n)) false args rest s
      { addNumber f { s with arg := s.arg + 1 } (f.args s.arg) base with isPercent := false } := by
  have htaken : Text f m out { s with arg := s.arg + 1 } := h.of_eq rfl rfl rfl
  obtain ⟨hget, hrest⟩ := drop_eq_cons hdrop
  obtain ⟨hword, hn⟩ := layout.numbers _ _ hget
  rw [hword]
  exact (addNumber_adds htaken layout.buffers hbase hbase' hn).turned hrest

/-- One that is a string is the address of it. -/
theorem string_turned {str : List Byte} {rest : List Arg} (layout : Matches f m fmt args)
    (h : Text f m out s) (hdrop : args.drop s.arg = .str str :: rest) :
    Turned f m out str false args rest s
      { addString f { s with arg := s.arg + 1 } (f.args s.arg) with isPercent := false } := by
  have htaken : Text f m out { s with arg := s.arg + 1 } := h.of_eq rfl rfl rfl
  obtain ⟨hget, hrest⟩ := drop_eq_cons hdrop
  obtain ⟨string, apart, hmemory⟩ := layout.strings _ _ hget
  have hsrc := apart.1
  exact (addString_adds htaken (h.string string apart) (by omega) (by omega)).turned hrest

/-- A specifier. One that is none of the three adds nothing. -/
theorem convert_turned {chr : Byte} {piece : List Byte} {percent : Bool} {left : List Arg}
    (layout : Matches f m fmt args) (h : Text f m out s)
    (hitem : item true chr (args.drop s.arg) = some (piece, percent, left)) :
    Turned f m out piece percent args left s { convert f s chr with isPercent := false } := by
  unfold item at hitem
  unfold convert
  rw [if_pos rfl] at hitem
  split at hitem
  · next hs =>
    rw [if_pos hs]
    split at hitem
    · next str rest hdrop =>
      obtain ⟨rfl, rfl, rfl⟩ : _ ∧ _ ∧ _ := by simpa using hitem
      exact string_turned layout h hdrop
    · cases hitem
  next hs =>
  rw [if_neg hs]
  split at hitem
  · next hd =>
    rw [if_pos hd]
    split at hitem
    · next n rest hdrop =>
      obtain ⟨rfl, rfl, rfl⟩ : _ ∧ _ ∧ _ := by simpa using hitem
      exact number_turned layout h hdrop (by decide) (by decide)
    · cases hitem
  next hd =>
  rw [if_neg hd]
  split at hitem
  · next hp =>
    rw [if_pos hp]
    split at hitem
    · next n rest hdrop =>
      obtain ⟨rfl, rfl, rfl⟩ : _ ∧ _ ∧ _ := by simpa using hitem
      exact number_turned layout h hdrop (by decide) (by decide)
    · cases hitem
  · next hp =>
    rw [if_neg hp]
    obtain ⟨rfl, rfl, rfl⟩ : _ ∧ _ ∧ _ := by simpa using hitem
    exact h.turned

theorem body_turned {chr : Byte} {piece : List Byte} {percent : Bool} {left : List Arg}
    (layout : Matches f m fmt args) (h : Text f m out s) (hchr : chr ≠ 0)
    (hitem : item s.isPercent chr (args.drop s.arg) = some (piece, percent, left)) :
    Turned f m out piece percent args left s (body f s chr) := by
  unfold body
  split
  · next hpercent =>
    rw [hpercent] at hitem
    exact convert_turned layout h hitem
  next hpercent =>
  unfold item at hitem
  rw [if_neg hpercent] at hitem
  split at hitem
  · next hc =>
    rw [if_pos hc]
    obtain ⟨rfl, rfl, rfl⟩ : _ ∧ _ ∧ _ := by simpa using hitem
    exact h.turned
  · next hc =>
    rw [if_neg hc]
    obtain ⟨rfl, rfl, rfl⟩ : _ ∧ _ ∧ _ := by simpa using hitem
    obtain ⟨phase, len, i, isPercent, arg, htext, hoverrun⟩ := addChar_adds h hchr
    refine ⟨phase, len, i, ?_, congrArg (List.drop · args) arg, htext, hoverrun⟩
    rw [isPercent]
    exact Bool.not_eq_true _ ▸ hpercent

/-- **One turn of the loop** adds what its character stands for, or comes to the end of the buffer.
-/
theorem turn_onTheWay (layout : Matches f m fmt args) (hfmt : fmt.length < 2 ^ 16)
    (way : OnTheWay f m fmt args text s) (hi : s.i < fmt.length) :
    (OnTheWay f m fmt args text (turn f s) ∧ (turn f s).i = s.i + 1) ∨
      (Overrun f (turn f s) ∧ BUF_SZ ≤ text.length) := by
  obtain ⟨out, tail, htext, htail, rfl⟩ := way.text
  have hget : fmt[s.i]? = some (fmt.get ⟨s.i, hi⟩) := List.getElem?_eq_getElem hi
  obtain ⟨hchr, hne⟩ := (htext.string layout.format.1 layout.format.2.1).apply hget
  rw [List.drop_eq_getElem_cons hi] at htail
  obtain ⟨piece, percent, left, rest, hitem, hrest, rfl⟩ := expandFrom_cons htail
  have turned := body_turned layout htext hne hitem
  rw [← hchr] at turned
  have hnext : (turn f s).i = s.i + 1 := by
    show u16 ((body f s (s.mem (f.str + s.i))).i + 1) = s.i + 1
    rw [turned.i]
    exact u16_of_lt (by omega)
  by_cases hsmall : out.length + piece.length < BUF_SZ
  · refine .inl ⟨⟨turned.phase.trans way.phase, turned.len.trans way.len, ?_, out ++ piece, rest, ?_,
      ?_, List.append_assoc out piece rest⟩, hnext⟩
    · rw [hnext]
      exact hi
    · exact (turned.text hsmall).of_eq rfl rfl rfl
    · rw [hnext]
      show expandFrom (body f s (s.mem (f.str + s.i))).isPercent (fmt.drop (s.i + 1))
        (args.drop (body f s (s.mem (f.str + s.i))).arg) = some rest
      rw [turned.isPercent, turned.args]
      exact hrest
  · have hbig : BUF_SZ ≤ out.length + piece.length := Nat.le_of_not_lt hsmall
    refine .inr ⟨turned.overrun hbig, ?_⟩
    rw [List.length_append, List.length_append]
    omega

/-! ## A call -/

theorem stringAt_eq {a : Nat} {str : List Byte} (string : m.StringAt a str)
    (hlen : str.length < 2 ^ 64) : stringAt m a = some str := by
  rw [stringAt, strLen_eq string hlen, Option.map_some]
  refine congrArg some (List.ext_getElem? fun i => ?_)
  rw [List.getElem?_map]
  by_cases hi : i < str.length
  · rw [List.getElem?_range hi, List.getElem?_eq_getElem hi, Option.map_some]
    exact congrArg some (string.apply (List.getElem?_eq_getElem hi)).1
  · rw [List.getElem?_eq_none (by rw [List.length_range]; omega), List.getElem?_eq_none (by omega),
      Option.map_none]

/-- The text was printed, and every store was to a buffer. -/
structure Printed (f : Frame) (text : List Byte) (s : State) : Prop where
  phase : s.phase = .printed (some text)
  j : s.j < BUF_SZ
  written : ∀ w ∈ s.written, f.Inside w

/-- After the last store the buffer has the text, and a null after it. -/
theorem finish_string (way : OnTheWay f m fmt args text s) (hi : s.i = fmt.length) :
    (finish f s).mem.StringAt f.buf text ∧ text.length = s.j := by
  obtain ⟨out, tail, htext, htail, rfl⟩ := way.text
  rw [hi, List.drop_length] at htail
  obtain rfl := Option.some.inj htail
  rw [List.append_nil]
  show (s.mem.write (f.buf + s.j) 0).StringAt f.buf out ∧ out.length = s.j
  rw [← Mem.copy_singleton, htext.j]
  refine ⟨⟨htext.nonzero, Mem.holdsAt_append.mpr ⟨?_, Mem.holdsAt_copy _ _ _⟩⟩, rfl⟩
  exact htext.holds.congr fun x _ hx => Mem.copy_of_outside (.inl hx)

theorem finish_printed (way : OnTheWay f m fmt args text s) (hi : s.i = fmt.length) :
    Printed f text (finish f s) := by
  obtain ⟨string, hlength⟩ := finish_string way hi
  obtain ⟨out, tail, htext, -⟩ := way.text
  have hj := htext.j
  have hsmall := htext.small
  refine ⟨?_, ?_, ?_⟩
  · show Phase.printed (stringAt (finish f s).mem f.buf) = _
    rw [stringAt_eq string]
    simp only [BUF_SZ] at hsmall
    omega
  · show s.j < BUF_SZ
    omega
  · intro w hw
    rcases List.mem_append.mp hw with hw | hw
    · exact htext.written w hw
    · rw [List.mem_singleton.mp hw]
      exact inside_buf (by omega) (by omega)

theorem start_onTheWay (layout : Matches f m fmt args) (h : expand fmt args = some text) :
    OnTheWay f m fmt args text (start f m) := by
  obtain ⟨string, ⟨hbuf, htemp⟩, hmemory⟩ := layout.format
  have hlen : strLen (memset (memset m f.buf 0 BUF_SZ) f.tempBuf 0 TEMP_BUF_SZ) f.str =
      some fmt.length := by
    refine strLen_eq (string.congr fun x hx hx' => ?_) (by omega)
    exact (Mem.fill_of_outside (by omega)).trans (Mem.fill_of_outside (by omega))
  refine ⟨?_, ?_, Nat.zero_le _, [], text, ?_, h, rfl⟩
  · simp only [start, hlen, Option.isSome_some, if_true]
  · simp only [start, hlen, Option.getD_some]
  · refine ⟨rfl, by decide, fun i b hb => absurd hb (by simp), List.not_mem_nil, ?_,
      reaches_covers .refl⟩
    intro w hw
    rcases List.mem_cons.mp hw with rfl | hw
    · exact inside_buf (Nat.le_refl _) (Nat.le_refl _)
    · rw [List.mem_singleton.mp hw]
      exact fun b hb hb' => .inr ⟨hb, hb'⟩

theorem step_turn (hphase : s.phase = .loop) (hi : s.i < s.len) : step f s = some (turn f s) := by
  rw [step, hphase]
  exact congrArg some (if_pos hi)

theorem step_finish (hphase : s.phase = .loop) (hi : ¬ s.i < s.len) :
    step f s = some (finish f s) := by
  rw [step, hphase]
  exact congrArg some (if_neg hi)

/-- **A call goes on** until the text was printed or the end of the buffer was reached. -/
theorem OnTheWay.reaches (layout : Matches f m fmt args) (hfmt : fmt.length < 2 ^ 16)
    (way : OnTheWay f m fmt args text s) :
    ∃ s', Reaches (step f) s s' ∧
      ((Overrun f s' ∧ BUF_SZ ≤ text.length) ∨ (Printed f text s' ∧ text.length < BUF_SZ)) := by
  obtain ⟨n, hn⟩ : ∃ n, fmt.length - s.i = n := ⟨_, rfl⟩
  have hi_le := way.i_le
  induction n generalizing s with
  | zero =>
    have hi : s.i = fmt.length := by omega
    refine ⟨finish f s, .single (step_finish way.phase (by rw [way.len]; omega)), .inr ⟨?_, ?_⟩⟩
    · exact finish_printed way hi
    · obtain ⟨out, tail, htext, htail, rfl⟩ := way.text
      rw [hi, List.drop_length] at htail
      obtain rfl := Option.some.inj htail
      rw [List.append_nil]
      exact htext.small
  | succ n ih =>
    have hi : s.i < fmt.length := by omega
    have hstep : step f s = some (turn f s) := step_turn way.phase (by rw [way.len]; exact hi)
    rcases turn_onTheWay layout hfmt way hi with ⟨next, hnext⟩ | hover
    · obtain ⟨s', hreach, hend⟩ := ih next (by omega) next.i_le
      exact ⟨s', .head hstep hreach, hend⟩
    · exact ⟨turn f s, .single hstep, .inl hover⟩

/-- Where the text is shorter than the buffer, every state is on the way or the last one. -/
theorem reaches_cases (layout : Matches f m fmt args) (hfmt : fmt.length < 2 ^ 16)
    (h : expand fmt args = some text) (hsmall : text.length < BUF_SZ)
    (hreach : Reaches (step f) (start f m) s) :
    OnTheWay f m fmt args text s ∨ Printed f text s := by
  induction hreach with
  | refl => exact .inl (start_onTheWay layout h)
  | @tail t u _ hstep ih =>
    have hstep' : step f t = some u := hstep
    rcases ih with way | printed
    · by_cases hi : t.i < fmt.length
      · rw [step_turn way.phase (by rw [way.len]; exact hi)] at hstep'
        obtain rfl := Option.some.inj hstep'
        rcases turn_onTheWay layout hfmt way hi with ⟨next, -⟩ | ⟨-, hbig⟩
        · exact .inl next
        · omega
      · rw [step_finish way.phase (by rw [way.len]; exact hi)] at hstep'
        obtain rfl := Option.some.inj hstep'
        have hi_le := way.i_le
        exact .inr (finish_printed way (by omega))
    · rw [step, printed.phase] at hstep'
      cases hstep'

/-! ## Stores of others -/

/-- The memory that a call began with, had the stores been made before it that others made to a
memory in the middle of it. -/
def rebase (m before after : Mem) : Mem := fun b => if after b = before b then m b else after b

theorem rebase_of_eq {before after : Mem} {b : Nat} (h : after b = before b) :
    rebase m before after b = m b := if_pos h

theorem StringAt.rebase {before after : Mem} {a : Nat} {str : List Byte}
    (string : m.StringAt a str)
    (same : ∀ b, a ≤ b → b < a + (str.length + 1) → after b = before b) :
    (rebase m before after).StringAt a str :=
  string.congr fun b hb hb' => rebase_of_eq (same b hb (by omega))

theorem Matches.rebase {before after : Mem} (layout : Matches f m fmt args)
    (format : ∀ b, f.str ≤ b → b < f.str + (fmt.length + 1) → after b = before b)
    (strings : ∀ k s, args[k]? = some (.str s) →
      ∀ b, f.args k ≤ b → b < f.args k + (s.length + 1) → after b = before b) :
    Matches f (rebase m before after) fmt args where
  buffers := layout.buffers
  format := ⟨StringAt.rebase layout.format.1 format, layout.format.2⟩
  strings k s hk := ⟨StringAt.rebase (layout.strings k s hk).1 (strings k s hk),
    (layout.strings k s hk).2⟩
  numbers := layout.numbers

/-- **A call goes on as before** after stores of others that leave its buffer. -/
theorem OnTheWay.rebase {after : Mem} (way : OnTheWay f m fmt args text s)
    (buf : ∀ b, f.buf ≤ b → b < f.buf + BUF_SZ → after b = s.mem b) :
    OnTheWay f (rebase m s.mem after) fmt args text { s with mem := after } := by
  obtain ⟨out, tail, htext, htail, hpieces⟩ := way.text
  have hsmall := htext.small
  refine ⟨way.phase, way.len, way.i_le, out, tail, ?_, htail, hpieces⟩
  refine ⟨htext.j, hsmall, ?_, htext.nonzero, htext.written, ?_⟩
  · exact htext.holds.congr fun b hb hb' => buf b hb (by omega)
  · intro b hb
    by_cases h : after b = s.mem b
    · rw [rebase_of_eq h, ← htext.covers b hb]
      exact h
    · exact (if_neg h).symm

/-- A turn and the last store keep to the buffers. -/
theorem turn_outside (way : OnTheWay f m fmt args text s)
    (next : OnTheWay f m fmt args text (turn f s)) {b : Nat}
    (hbuf : b < f.buf ∨ f.buf + BUF_SZ ≤ b) (htemp : b < f.tempBuf ∨ f.tempBuf + TEMP_BUF_SZ ≤ b) :
    (turn f s).mem b = s.mem b := by
  obtain ⟨_, _, before, -⟩ := way.text
  obtain ⟨_, _, after, -⟩ := next.text
  rw [before.same hbuf htemp, after.same hbuf htemp]

theorem finish_outside (way : OnTheWay f m fmt args text s) {b : Nat}
    (hbuf : b < f.buf ∨ f.buf + BUF_SZ ≤ b) : (finish f s).mem b = s.mem b := by
  obtain ⟨_, _, htext, -⟩ := way.text
  have hsmall := htext.small
  have hj := htext.j
  exact Mem.write_of_ne (by omega)

/-! ## A format that is too long -/

/-- The position in the format is never past a length that needs more than 16 bits. -/
structure Endless (s : State) : Prop where
  phase : s.phase = .loop ∨ s.phase = .hangs
  len : 2 ^ 16 ≤ s.len
  i : s.i < 2 ^ 16

theorem addString_frame (src : Nat) : (addString f s src).len = s.len ∧
    ((addString f s src).phase = s.phase ∨ (addString f s src).phase = .hangs) := by
  unfold addString
  split
  · exact ⟨rfl, .inr rfl⟩
  · exact ⟨rfl, .inl rfl⟩

theorem body_frame (chr : Byte) : (body f s chr).len = s.len ∧
    ((body f s chr).phase = s.phase ∨ (body f s chr).phase = .hangs) := by
  have hnumber : ∀ (s : State) num base, (addNumber f s num base).len = s.len ∧
      ((addNumber f s num base).phase = s.phase ∨ (addNumber f s num base).phase = .hangs) := by
    intro s num base
    rw [addNumber_eq]
    exact addString_frame _
  have hconvert : (convert f s chr).len = s.len ∧
      ((convert f s chr).phase = s.phase ∨ (convert f s chr).phase = .hangs) := by
    unfold convert
    split
    · exact addString_frame _
    split
    · exact hnumber _ _ _
    split
    · exact hnumber _ _ _
    · exact ⟨rfl, .inl rfl⟩
  unfold body
  split
  · exact hconvert
  split
  · exact ⟨rfl, .inl rfl⟩
  · exact ⟨rfl, .inl rfl⟩

theorem Endless.step (endless : Endless s) : ∃ s', step f s = some s' ∧ Endless s' := by
  have hi := endless.i
  have hlen := endless.len
  rcases endless.phase with hphase | hphase
  · refine ⟨turn f s, step_turn hphase (by omega), ?_⟩
    obtain ⟨hlen', hphase'⟩ := @body_frame f s (s.mem (f.str + s.i))
    refine ⟨?_, hlen'.symm ▸ hlen, Nat.mod_lt _ (by decide)⟩
    exact hphase'.imp_left fun h => h.trans hphase
  · refine ⟨s, ?_, endless⟩
    rw [Printf.step, hphase]

theorem Endless.reaches {t : State} (endless : Endless s) (h : Reaches (Printf.step f) s t) :
    Endless t := by
  induction h with
  | refl => exact endless
  | tail _ hstep ih =>
    obtain ⟨u, hu, next⟩ := ih.step (f := f)
    obtain rfl := Option.some.inj (hu.symm.trans hstep)
    exact next

/-- A format of 65536 characters is never at its end. -/
theorem Endless.not_dom (endless : Endless s) : ¬ (eval (Printf.step f) s).Dom := by
  intro hdom
  obtain ⟨t, ht⟩ := Part.dom_iff_mem.mp hdom
  obtain ⟨hreach, hend⟩ := mem_eval.mp ht
  obtain ⟨u, hu, -⟩ := (endless.reaches hreach).step (f := f)
  rw [hend] at hu
  cases hu

/-! ## Safety and the text that is printed -/

/-- What is asked of a call: it ends, the position in the buffer is never past it, and every store
is to one of the two buffers. -/
structure Safe (f : Frame) (m : Mem) : Prop where
  ends : (eval (step f) (start f m)).Dom
  inside : ∀ s, Reaches (step f) (start f m) s → s.j < BUF_SZ ∧ ∀ w ∈ s.written, f.Inside w

theorem not_safe_of_long_text (layout : Matches f m fmt args) (h : expand fmt args = some text)
    (hfmt : fmt.length < 2 ^ 16) (hbig : BUF_SZ ≤ text.length) : ¬ Safe f m := by
  intro safe
  obtain ⟨s, hreach, ⟨hover, -⟩ | ⟨-, hsmall⟩⟩ := (start_onTheWay layout h).reaches layout hfmt
  · obtain ⟨hj, hwritten⟩ := safe.inside s hreach
    rcases hover with hover | ⟨w, hw, hout⟩
    · omega
    · exact hout (hwritten w hw)
  · omega

theorem not_safe_of_long_format (layout : Matches f m fmt args) (h : expand fmt args = some text)
    (hfmt : 2 ^ 16 ≤ fmt.length) : ¬ Safe f m := by
  intro safe
  have way := start_onTheWay layout h
  have endless : Endless (start f m) := ⟨.inl way.phase, by rw [way.len]; exact hfmt,
    Nat.two_pow_pos 16⟩
  exact endless.not_dom safe.ends

theorem safe_of_short (layout : Matches f m fmt args) (h : expand fmt args = some text)
    (hfmt : fmt.length < 2 ^ 16) (hsmall : text.length < BUF_SZ) : Safe f m := by
  constructor
  · obtain ⟨s, hreach, ⟨-, hbig⟩ | ⟨printed, -⟩⟩ := (start_onTheWay layout h).reaches layout hfmt
    · omega
    · refine Part.dom_iff_mem.mpr ⟨s, mem_eval.mpr ⟨hreach, ?_⟩⟩
      rw [step, printed.phase]
  · intro s hreach
    rcases reaches_cases layout hfmt h hsmall hreach with way | printed
    · obtain ⟨out, tail, htext, -⟩ := way.text
      exact ⟨htext.j ▸ htext.small, htext.written⟩
    · exact ⟨printed.j, printed.written⟩

/-- **`__printf` ends and keeps to its buffers exactly when the format and the text are short
enough**: the format has fewer than 65536 characters, and what it stands for fewer than 4096. For
every format, every matching arguments and every memory. -/
theorem printf_safe_iff (f : Frame) (m : Mem) (fmt : List Byte) (args : List Arg) (text : List Byte)
    (layout : Matches f m fmt args) (h : expand fmt args = some text) :
    Safe f m ↔ fmt.length < 2 ^ 16 ∧ text.length < BUF_SZ := by
  constructor
  · intro safe
    have hfmt : fmt.length < 2 ^ 16 := by
      by_contra hlong
      exact not_safe_of_long_format layout h (Nat.le_of_not_lt hlong) safe
    refine ⟨hfmt, ?_⟩
    by_contra hbig
    exact not_safe_of_long_text layout h hfmt (Nat.le_of_not_lt hbig) safe
  · rintro ⟨hfmt, hsmall⟩
    exact safe_of_short layout h hfmt hsmall

/-- A call with a string at 0x3000 and a number. -/
def exampleFrame (n : Nat) : Frame where
  str := 0x100
  buf := 0x1000
  tempBuf := 0x2000
  args := fun k => if k = 0 then 0x3000 else n

def exampleMem (fmt str : List Byte) : Mem :=
  Mem.copy (Mem.copy (fun _ => 0) 0x100 (fmt ++ [0])) 0x3000 (str ++ [0])

theorem example_matches {fmt str : List Byte} {n : Nat} (hfmt : 0 ∉ fmt) (hstr : 0 ∉ str)
    (hshort : fmt.length < 100) (hstr' : str.length < 2 ^ 32) (hn : n < 2 ^ 64) :
    Matches (exampleFrame n) (exampleMem fmt str) fmt [.str str, .num n] where
  buffers := by
    simp only [exampleFrame, BUF_SZ, TEMP_BUF_SZ]
    omega
  format := by
    refine ⟨⟨hfmt, ?_⟩, ?_, ?_⟩
    · refine (Mem.holdsAt_copy (fun _ => 0) 0x100 (fmt ++ [0])).congr fun x hx hx' => ?_
      rw [List.length_append, List.length_singleton] at hx'
      exact Mem.copy_of_outside (.inl (by omega))
    · simp only [Frame.Apart, exampleFrame, BUF_SZ, TEMP_BUF_SZ]
      omega
    · simp only [exampleFrame]
      omega
  strings := by
    intro k s hk
    obtain ⟨rfl, rfl⟩ : k = 0 ∧ str = s := by
      match k, hk with
      | 0, hk => exact ⟨rfl, Arg.str.inj (Option.some.inj hk)⟩
      | 1, hk => cases hk
    refine ⟨⟨hstr, Mem.holdsAt_copy _ _ _⟩, ?_, ?_⟩
    · simp only [Frame.Apart, exampleFrame, if_true, BUF_SZ, TEMP_BUF_SZ]
      omega
    · simp only [exampleFrame, if_true]
      omega
  numbers := by
    intro k n' hk
    match k, hk with
    | 1, hk => exact ⟨Arg.num.inj (Option.some.inj hk), Arg.num.inj (Option.some.inj hk) ▸ hn⟩

/-- The call `kprintf("%s=%d", "id", 42)` is safe. -/
theorem short_call_safe : Safe (exampleFrame 42) (exampleMem [0x25, 0x73, 0x3d, 0x25, 0x64] [0x69, 0x64]) :=
  (printf_safe_iff _ _ _ _ [0x69, 0x64, 0x3d, 0x34, 0x32]
    (example_matches (by decide) (by decide) (by decide) (by decide) (by decide)) (by decide)).mpr
    ⟨by decide, by decide⟩

/-- The call `kprintf("%s", msg)` is not, where the message has 4096 characters. -/
theorem long_message_not_safe :
    Matches (exampleFrame 0) (exampleMem [0x25, 0x73] (List.replicate 4096 0x61)) [0x25, 0x73]
        [.str (List.replicate 4096 0x61), .num 0] ∧
      expand [0x25, 0x73] [.str (List.replicate 4096 0x61), .num 0] =
        some (List.replicate 4096 0x61) ∧
      ¬ Safe (exampleFrame 0) (exampleMem [0x25, 0x73] (List.replicate 4096 0x61)) := by
  have layout : Matches (exampleFrame 0) (exampleMem [0x25, 0x73] (List.replicate 4096 0x61))
      [0x25, 0x73] [.str (List.replicate 4096 0x61), .num 0] := by
    refine example_matches (by decide) ?_ (by decide) ?_ (by decide)
    · intro hmem
      exact absurd (List.eq_of_mem_replicate hmem) (by decide)
    · rw [List.length_replicate]
      decide
  have htext : expand [0x25, 0x73] [.str (List.replicate 4096 0x61), .num 0] =
      some (List.replicate 4096 0x61) := congrArg some (List.append_nil _)
  refine ⟨layout, htext, not_safe_of_long_text layout htext (by decide) ?_⟩
  rw [List.length_replicate]
  decide

/-- **What `__printf` prints is the text of the format.** For every format of fewer than 65536
characters, every matching arguments and every memory, as long as the text has fewer than 4096
characters. -/
theorem printf_prints (f : Frame) (m : Mem) (fmt : List Byte) (args : List Arg) (text : List Byte)
    (layout : Matches f m fmt args) (h : expand fmt args = some text) (hfmt : fmt.length < 2 ^ 16)
    (hsmall : text.length < BUF_SZ) :
    ∃ s, s ∈ eval (step f) (start f m) ∧ s.phase = .printed (some text) := by
  obtain ⟨s, hreach, ⟨-, hbig⟩ | ⟨printed, -⟩⟩ := (start_onTheWay layout h).reaches layout hfmt
  · omega
  · refine ⟨s, mem_eval.mpr ⟨hreach, ?_⟩, printed.phase⟩
    rw [step, printed.phase]

/-- The call `kprintf("%s=%p", "id", 0xcafe)` prints `id=cafe`. -/
theorem short_call_prints : ∃ s, s ∈ eval (step (exampleFrame 0xcafe)) (start (exampleFrame 0xcafe)
    (exampleMem [0x25, 0x73, 0x3d, 0x25, 0x70] [0x69, 0x64])) ∧
      s.phase = .printed (some [0x69, 0x64, 0x3d, 0x63, 0x61, 0x66, 0x65]) :=
  printf_prints _ _ [0x25, 0x73, 0x3d, 0x25, 0x70] [.str [0x69, 0x64], .num 0xcafe] _
    (example_matches (by decide) (by decide) (by decide) (by decide) (by decide)) (by decide)
    (by decide) (by decide)

end PrintOS.Printf
