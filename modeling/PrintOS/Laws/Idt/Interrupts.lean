import PrintOS.Idt.Interrupts
import PrintOS.Laws.Console.Pixels
import PrintOS.Laws.Drivers.Keyboard
import PrintOS.Laws.Kutils.Console

/-!
# Printing while keys are pressed

A run is calls of `kprintf`, one after the other, with the keyboard's interrupt anywhere between
their steps (`Runs`). Whatever the order, the display has the picture of the characters in the order
in which they were printed, every call prints all of its text and nothing else, every key its
character, and a call takes as many turns as without interrupts.

The three share one memory. An interrupt in the middle of `__printf` draws, and a call writes to its
buffers; `Formatting` says that the call is on its way, from a memory with the stores that the
interrupts made to it (`rebase`), and `Shown` that the screen is the picture, for the memory as the
last store of a call or of the handler left it. The layout has to keep them apart (`Layout`,
`Clear`).
-/

namespace PrintOS

open ByteMemory (Mem Byte)
open Console (Agree ApartFrom Drawn Escapes FontApart Pictured SameFont TextArea)
open Printf (BUF_SZ Frame Matches OnTheWay TEMP_BUF_SZ expand)

/-! ## The characters of some codes -/

/-- The characters that the driver makes of some codes, without the nulls. -/
def Keyboard.chars (k : Keyboard) : List Byte → List Byte
  | [] => []
  | code :: codes =>
    (if (k.readKey code).1 ≠ 0 then [(k.readKey code).1] else []) ++ chars (k.readKey code).2 codes

theorem Keyboard.chars_snoc (k : Keyboard) (codes : List Byte) (code : Byte) :
    k.chars (codes ++ [code]) = k.chars codes ++
      if ((k.readKeys codes).readKey code).1 ≠ 0 then [((k.readKeys codes).readKey code).1]
      else [] := by
  induction codes generalizing k with
  | nil => exact List.append_nil _
  | cons first codes ih =>
    rw [List.cons_append, chars, ih, chars, List.append_assoc]
    rfl

namespace Terminal

variable {fb : Framebuffer} {font : ConsoleFont} {lapicAddr : Nat} {m : Mem}
variable {t : Terminal} {f : Frame} {s : Printf.State} {fmt text : List Byte}
variable {args : List Printf.Arg}
variable {calls : List (List Byte × List Byte)} {codes : List Byte} {turns : Nat}

/-! ## The layout -/

/-- Neither the console nor the end of an interrupt stores to the bytes. -/
def Quiet (fb : Framebuffer) (lapicAddr a n : Nat) : Prop :=
  ApartFrom fb a n ∧ (a + n ≤ lapicAddr + Lapic.EOI ∨ lapicAddr + Lapic.EOI + 4 ≤ a)

/-- The text area is on the display. The font is in the memory, and the register that ends an
interrupt is apart from both. -/
structure Layout (fb : Framebuffer) (font : ConsoleFont) (lapicAddr : Nat) (m : Mem) : Prop where
  area : TextArea fb font
  apart : FontApart fb font m
  eoi : ApartFrom fb (lapicAddr + Lapic.EOI) 4
  header : Quiet fb lapicAddr (font.psfHeader + 3) 1
  glyphs : Quiet fb lapicAddr font.glyphBuffer
    (ASCII_PRINTABLE_MAX * font.charsize m + font.glyphHeight)

/-- Nobody else stores to what a call reads, nor to its buffers, and these are not in the font. -/
structure Clear (fb : Framebuffer) (font : ConsoleFont) (lapicAddr : Nat) (m : Mem) (f : Frame)
    (fmt : List Byte) (args : List Printf.Arg) : Prop where
  format : Quiet fb lapicAddr f.str (fmt.length + 1)
  strings : ∀ k s, args[k]? = some (.str s) → Quiet fb lapicAddr (f.args k) (s.length + 1)
  buf : Quiet fb lapicAddr f.buf BUF_SZ
  tempBuf : Quiet fb lapicAddr f.tempBuf TEMP_BUF_SZ
  header : f.Apart (font.psfHeader + 3) 1
  glyphs : f.Apart font.glyphBuffer (ASCII_PRINTABLE_MAX * font.charsize m + font.glyphHeight)

/-- A call that `__printf` can make: its format and its arguments stand for a text, which is shorter
than the buffer. -/
structure Fits (fb : Framebuffer) (font : ConsoleFont) (lapicAddr : Nat) (m : Mem) (f : Frame)
    (fmt : List Byte) (args : List Printf.Arg) (text : List Byte) : Prop where
  layout : Matches f m fmt args
  clear : Clear fb font lapicAddr m f fmt args
  fmt_lt : fmt.length < 2 ^ 16
  expands : expand fmt args = some text
  text_lt : text.length < BUF_SZ

/-! ## The runs -/

/-- The runs from a terminal: the calls of `kprintf` so far, each with its format and its text, the
codes that came with interrupts, and the turns that calls had. No character is a backspace in the
first cell. -/
inductive Runs (fb : Framebuffer) (font : ConsoleFont) (lapicAddr : Nat) (start : Terminal) :
    List (List Byte × List Byte) → List Byte → Nat → Terminal → Prop
  | nil : Runs fb font lapicAddr start [] [] 0 start
  | kprintf {calls : List (List Byte × List Byte)} {codes : List Byte} {turns : Nat} {t : Terminal}
      {f : Frame} {fmt : List Byte} {args : List Printf.Arg} {text : List Byte} :
    Runs fb font lapicAddr start calls codes turns t → t.running = none →
      Fits fb font lapicAddr t.mem f fmt args text →
      Runs fb font lapicAddr start (calls ++ [(fmt, text)]) codes turns (t.kprintf f)
  | turn {calls : List (List Byte × List Byte)} {codes : List Byte} {turns : Nat} {t : Terminal} :
    Runs fb font lapicAddr start calls codes turns t → t.running ≠ none →
      (∀ str, t.running = some (.printing str) → ¬ Escapes t.console (t.mem str)) →
      Runs fb font lapicAddr start calls codes (turns + 1) (t.turn fb font)
  | key {calls : List (List Byte × List Byte)} {codes : List Byte} {turns : Nat} {t : Terminal}
      (code : Byte) :
    Runs fb font lapicAddr start calls codes turns t →
      ¬ Escapes t.console (t.keyboard.readKey code).1 →
      Runs fb font lapicAddr start calls (codes ++ [code]) turns
        (t.keyboardHandler fb font lapicAddr code)

/-- The characters that one of the two has printed. -/
def printedBy (p : Printer) (t : Terminal) : List Byte :=
  (t.log.filter fun entry => entry.1 = p).map Prod.snd

/-- All the characters that were printed. -/
def printed (t : Terminal) : List Byte := t.log.map Prod.snd

/-- The texts of some calls, one after the other. -/
def textOf (calls : List (List Byte × List Byte)) : List Byte := calls.flatMap Prod.snd

/-- The turns that some calls take: one for each character of the format, one that ends the text,
one for each character of the text, and one that draws. -/
def turnsOf (calls : List (List Byte × List Byte)) : Nat :=
  (calls.map fun call => call.1.length + 1 + call.2.length + 1).sum

theorem textOf_snoc (calls : List (List Byte × List Byte)) (fmt text : List Byte) :
    textOf (calls ++ [(fmt, text)]) = textOf calls ++ text := by
  rw [textOf, List.flatMap_append, List.flatMap_singleton]
  rfl

theorem turnsOf_snoc (calls : List (List Byte × List Byte)) (fmt text : List Byte) :
    turnsOf (calls ++ [(fmt, text)]) =
      turnsOf calls + (fmt.length + 1 + text.length + 1) := by
  rw [turnsOf, List.map_append, List.sum_append]
  rfl

/-! ## The screen -/

/-- The screen is the picture of what was printed. -/
def Shown (fb : Framebuffer) (font : ConsoleFont) (m : Mem) (t : Terminal) : Prop :=
  ∃ m', SameFont font m m' ∧ Agree (Pictured fb font m') t.console
    (Console.printChars (Picture.surface fb font) Picture.cleared t.printed)

/-- What the console does keeps the bytes that are in neither of its buffers. -/
def Keeps (fb : Framebuffer) (m m' : Mem) : Prop := ∀ b, ApartFrom fb b 1 → m' b = m b

/-- A character more, printed by one of the two. -/
def putChar (fb : Framebuffer) (font : ConsoleFont) (t : Terminal) (p : Printer) (chr : Byte) :
    Terminal :=
  { t with
    console := Console.printChar (Console.framebuffer fb font) t.console chr
    log := t.log ++ [(p, chr)] }

/-- The end of a call of `print`. -/
def draw (fb : Framebuffer) (font : ConsoleFont) (t : Terminal) : Terminal :=
  { t with console := Console.draw (Console.framebuffer fb font) t.console }

theorem Shown.putChar (shown : Shown fb font m t) (area : TextArea fb font)
    (apart : FontApart fb font m) (p : Printer) {chr : Byte} (stays : ¬ Escapes t.console chr) :
    Shown fb font m (t.putChar fb font p chr) ∧ Keeps fb t.mem (t.putChar fb font p chr).mem := by
  obtain ⟨m', same, agree⟩ := shown
  have stays' : ¬ Escapes (Console.printChars (Picture.surface fb font) Picture.cleared t.printed)
      chr := by
    rintro ⟨hback, home⟩
    rw [← agree.cursor] at home
    exact stays ⟨hback, home⟩
  have next := agree.printChar (Console.pictured_simulates area (same.apart apart)) stays'
  have hprinted : (t.putChar fb font p chr).printed = t.printed ++ [chr] := List.map_append
  refine ⟨⟨m', same, ?_⟩, fun b hb => ?_⟩
  · rw [hprinted, Console.printChars, List.foldl_append]
    exact next
  · exact (next.screen.kept b hb).trans (agree.screen.kept b hb).symm

theorem Shown.draw (shown : Shown fb font m t) (area : TextArea fb font)
    (apart : FontApart fb font m) :
    Shown fb font m (t.draw fb font) ∧ Keeps fb t.mem (t.draw fb font).mem ∧
      Drawn fb (t.draw fb font).mem := by
  obtain ⟨m', same, agree⟩ := shown
  have next := agree.draw (Console.pictured_simulates area (same.apart apart))
  refine ⟨⟨m', same, next⟩, fun b hb => ?_, Console.draw_drawn area _⟩
  exact (next.screen.kept b hb).trans (agree.screen.kept b hb).symm

/-- Stores to neither of the buffers of the console nor the font. -/
theorem Shown.setMem (shown : Shown fb font m t) (area : TextArea fb font)
    (apart : FontApart fb font m) {m' : Mem}
    (back : ∀ b, fb.doubleFbAddr ≤ b → b < fb.doubleFbAddr + fb.bSize → m' b = t.mem b)
    (same' : SameFont font t.mem m') : Shown fb font m (t.setMem m') := by
  obtain ⟨m₁, same, agree⟩ := shown
  have apart' := same.apart apart
  refine ⟨m', (same.trans (agree.screen.sameFont apart')).trans same', agree.cursor, agree.plain,
    agree.area, ?_⟩
  exact agree.screen.write area apart' back same'

theorem Shown.sameFont (shown : Shown fb font m t) (apart : FontApart fb font m) :
    SameFont font m t.mem := by
  obtain ⟨m', same, agree⟩ := shown
  exact same.trans (agree.screen.sameFont (same.apart apart))

/-! ## The stores of a call -/

/-- The byte is in neither of the buffers of the call. -/
def Outside (f : Frame) (b : Nat) : Prop :=
  (b < f.buf ∨ f.buf + BUF_SZ ≤ b) ∧ (b < f.tempBuf ∨ f.tempBuf + TEMP_BUF_SZ ≤ b)

/-- A call leaves the screen. -/
theorem Clear.stores (clear : Clear fb font lapicAddr m f fmt args) (shown : Shown fb font m t)
    (layout : Layout fb font lapicAddr m) {m' : Mem} (stores : ∀ b, Outside f b → m' b = t.mem b) :
    Shown fb font m (t.setMem m') ∧ (Drawn fb t.mem → Drawn fb m') := by
  obtain ⟨⟨hback, hfront⟩, -⟩ := clear.buf
  obtain ⟨⟨hback', hfront'⟩, -⟩ := clear.tempBuf
  have back : ∀ b, fb.doubleFbAddr ≤ b → b < fb.doubleFbAddr + fb.bSize → m' b = t.mem b :=
    fun b hb hb' => stores b ⟨by omega, by omega⟩
  refine ⟨shown.setMem layout.area layout.apart back ⟨?_, ?_⟩, fun drawn i hi => ?_⟩
  · obtain ⟨hbuf, htemp⟩ := clear.header
    exact stores _ ⟨by omega, by omega⟩
  · intro b hb hb'
    obtain ⟨hbuf, htemp⟩ := clear.glyphs
    rw [(shown.sameFont layout.apart).charsize] at hb'
    exact stores b ⟨by omega, by omega⟩
  · rw [stores _ ⟨by omega, by omega⟩, stores _ ⟨by omega, by omega⟩]
    exact drawn i hi

/-! ## Where a call is -/

/-- The call is in `__printf`. -/
structure Formatting (fb : Framebuffer) (font : ConsoleFont) (lapicAddr : Nat) (m : Mem)
    (t : Terminal) (f : Frame) (s : Printf.State) (fmt text : List Byte) (args : List Printf.Arg) :
    Prop where
  way : ∃ m', Matches f m' fmt args ∧ OnTheWay f m' fmt args text { s with mem := t.mem }
  clear : Clear fb font lapicAddr m f fmt args
  fmt_lt : fmt.length < 2 ^ 16
  text_lt : text.length < BUF_SZ

/-- The calls so far, and the turns that they had: the last one may still be under way. -/
inductive Stage (fb : Framebuffer) (font : ConsoleFont) (lapicAddr : Nat) (m : Mem) (t : Terminal) :
    List (List Byte × List Byte) → Nat → Prop
  | idle {calls : List (List Byte × List Byte)} : t.running = none → Drawn fb t.mem →
      t.printedBy .call = textOf calls → Stage fb font lapicAddr m t calls (turnsOf calls)
  | formatting {calls : List (List Byte × List Byte)} {f : Frame} {s : Printf.State}
      {fmt text : List Byte} {args : List Printf.Arg} : t.running = some (.formatting f s) →
      Drawn fb t.mem → t.printedBy .call = textOf calls →
      Formatting fb font lapicAddr m t f s fmt text args →
      Stage fb font lapicAddr m t (calls ++ [(fmt, text)]) (turnsOf calls + s.i)
  | printing {calls : List (List Byte × List Byte)} {buf i : Nat} {fmt text : List Byte} :
      t.running = some (.printing (buf + i)) → i ≤ text.length →
      t.printedBy .call = textOf calls ++ text.take i → t.mem.StringAt buf text →
      Quiet fb lapicAddr buf BUF_SZ → text.length < BUF_SZ →
      Stage fb font lapicAddr m t (calls ++ [(fmt, text)]) (turnsOf calls + (fmt.length + 1 + i))

theorem Quiet.byte {a n b : Nat} (quiet : Quiet fb lapicAddr a n) (hb : a ≤ b) (hb' : b < a + n) :
    Quiet fb lapicAddr b 1 := by
  obtain ⟨⟨hback, hfront⟩, heoi⟩ := quiet
  refine ⟨⟨?_, ?_⟩, ?_⟩ <;> omega

/-- **An interrupt leaves the call where it is.** -/
theorem Stage.interrupt (stage : Stage fb font lapicAddr m t calls turns) {t' : Terminal}
    (running : t'.running = t.running) (called : t'.printedBy .call = t.printedBy .call)
    (drawn : Drawn fb t.mem → Drawn fb t'.mem)
    (kept : ∀ b, Quiet fb lapicAddr b 1 → t'.mem b = t.mem b) :
    Stage fb font lapicAddr m t' calls turns := by
  have same : ∀ {a n : Nat}, Quiet fb lapicAddr a n →
      ∀ b, a ≤ b → b < a + n → t'.mem b = t.mem b := fun quiet b hb hb' =>
    kept b (quiet.byte hb hb')
  cases stage with
  | idle hnone shown htext =>
    exact .idle (running.trans hnone) (drawn shown) (called.trans htext)
  | formatting hrunning shown htext formatting =>
    obtain ⟨⟨m', layout, way⟩, clear, fmt_lt, text_lt⟩ := formatting
    refine .formatting (running.trans hrunning) (drawn shown) (called.trans htext)
      ⟨⟨_, ?_, way.rebase (same clear.buf)⟩, clear, fmt_lt, text_lt⟩
    exact layout.rebase (same clear.format) fun k str hk => same (clear.strings k str hk)
  | printing hrunning hi htext string quiet text_lt =>
    refine .printing (running.trans hrunning) hi (called.trans htext) ?_ quiet text_lt
    exact string.congr fun b hb hb' => same quiet b hb (by omega)

/-! ## The steps -/

/-- What holds all along a run. -/
structure Inv (fb : Framebuffer) (font : ConsoleFont) (lapicAddr : Nat) (m : Mem) (k : Keyboard)
    (calls : List (List Byte × List Byte)) (codes : List Byte) (turns : Nat) (t : Terminal) :
    Prop where
  shown : Shown fb font m t
  keyboard : t.keyboard = k.readKeys codes
  typed : t.printedBy .key = k.chars codes
  stage : Stage fb font lapicAddr m t calls turns

theorem printedBy_putChar (t : Terminal) (q : Printer) (chr : Byte) (p : Printer) :
    (t.putChar fb font q chr).printedBy p = t.printedBy p ++ if q = p then [chr] else [] := by
  show ((t.log ++ [(q, chr)]).filter fun entry => entry.1 = p).map Prod.snd = _
  rw [List.filter_append, List.map_append, List.filter_cons]
  by_cases h : q = p
  · simp [printedBy, h]
  · simp [printedBy, h]

variable {k : Keyboard}

/-- A call begins. -/
theorem Inv.kprintf (inv : Inv fb font lapicAddr m k calls codes turns t)
    (layout : Layout fb font lapicAddr m) (idle : t.running = none)
    (fits : Fits fb font lapicAddr t.mem f fmt args text) :
    Inv fb font lapicAddr m k (calls ++ [(fmt, text)]) codes turns (t.kprintf f) := by
  have way := Printf.start_onTheWay fits.layout fits.expands
  obtain ⟨_, _, started, -⟩ := way.text
  have clear : Clear fb font lapicAddr m f fmt args := by
    have hsize := (inv.shown.sameFont layout.apart).charsize
    refine ⟨fits.clear.format, fits.clear.strings, fits.clear.buf, fits.clear.tempBuf,
      fits.clear.header, ?_⟩
    rw [← hsize]
    exact fits.clear.glyphs
  obtain ⟨shown, drawn⟩ := clear.stores inv.shown layout fun b hb => started.same hb.1 hb.2
  cases inv.stage with
  | idle _ before htext =>
    have stage : Stage fb font lapicAddr m (t.kprintf f) (calls ++ [(fmt, text)])
        (turnsOf calls + (Printf.start f t.mem).i) :=
      .formatting rfl (drawn before) htext
        ⟨⟨t.mem, fits.layout, way⟩, clear, fits.fmt_lt, fits.text_lt⟩
    exact ⟨shown, inv.keyboard, inv.typed, stage⟩
  | formatting hrunning =>
    rw [idle] at hrunning
    cases hrunning
  | printing hrunning =>
    rw [idle] at hrunning
    cases hrunning

/-- A step of `__printf` that is not its last one. -/
theorem turn_loop {s' : Printf.State} (hrunning : t.running = some (.formatting f s))
    (hstep : Printf.step f { s with mem := t.mem } = some s') (hphase : s'.phase = .loop) :
    t.turn fb font = { t.setMem s'.mem with running := some (.formatting f s') } := by
  simp only [turn, hrunning, hstep, hphase]

theorem turn_printed {s' : Printf.State} {out : Option (List Byte)}
    (hrunning : t.running = some (.formatting f s))
    (hstep : Printf.step f { s with mem := t.mem } = some s') (hphase : s'.phase = .printed out) :
    t.turn fb font = { t.setMem s'.mem with running := some (.printing f.buf) } := by
  simp only [turn, hrunning, hstep, hphase]

theorem turn_char {str : Nat} (hrunning : t.running = some (.printing str)) (hchr : t.mem str ≠ 0) :
    t.turn fb font =
      { t.putChar fb font .call (t.mem str) with running := some (.printing (str + 1)) } := by
  simp only [turn, hrunning]
  exact if_pos hchr

theorem turn_null {str : Nat} (hrunning : t.running = some (.printing str)) (hchr : t.mem str = 0) :
    t.turn fb font = { t.draw fb font with running := none } := by
  simp only [turn, hrunning]
  exact if_neg (not_not.mpr hchr)

/-- A turn of the loop, or the end of the text. -/
theorem Inv.turn_formatting (inv : Inv fb font lapicAddr m k (calls ++ [(fmt, text)]) codes turns t)
    (layout : Layout fb font lapicAddr m) (hrunning : t.running = some (.formatting f s))
    (before : Drawn fb t.mem) (htext : t.printedBy .call = textOf calls)
    (formatting : Formatting fb font lapicAddr m t f s fmt text args)
    (hturns : turns = turnsOf calls + s.i) :
    Inv fb font lapicAddr m k (calls ++ [(fmt, text)]) codes (turns + 1) (t.turn fb font) := by
  obtain ⟨⟨m', hmatches, way⟩, clear, fmt_lt, text_lt⟩ := formatting
  have hlen := way.len
  have hi_le := way.i_le
  by_cases hi : s.i < fmt.length
  · have hstep := Printf.step_turn (f := f) way.phase (by rw [hlen]; exact hi)
    rcases Printf.turn_onTheWay hmatches fmt_lt way hi with ⟨next, hnext⟩ | ⟨-, hbig⟩
    swap
    · omega
    obtain ⟨shown, drawn⟩ := clear.stores inv.shown layout fun b hb =>
      Printf.turn_outside way next hb.1 hb.2
    have hcount : turns + 1 = turnsOf calls + (Printf.turn f { s with mem := t.mem }).i := by
      rw [hnext, hturns]
      exact Nat.add_assoc _ _ _
    rw [turn_loop hrunning hstep next.phase, hcount]
    exact ⟨shown, inv.keyboard, inv.typed,
      .formatting rfl (drawn before) htext ⟨⟨m', hmatches, next⟩, clear, fmt_lt, text_lt⟩⟩
  · have hend : s.i = fmt.length := Nat.le_antisymm hi_le (Nat.le_of_not_lt hi)
    have hstep := Printf.step_finish (f := f) way.phase (by rw [hlen]; exact hi)
    obtain ⟨string, -⟩ := Printf.finish_string way hend
    obtain ⟨shown, -⟩ := clear.stores inv.shown layout fun b hb => Printf.finish_outside way hb.1
    rw [turn_printed hrunning hstep (Printf.finish_printed way hend).phase, hturns, hend,
      Nat.add_assoc]
    refine ⟨shown, inv.keyboard, inv.typed, ?_⟩
    refine .printing rfl (Nat.zero_le _) ?_ string clear.buf text_lt
    rw [List.take_zero, List.append_nil]
    exact htext

/-- A character of the text, or the end of the call. -/
theorem Inv.turn_printing {buf i : Nat}
    (inv : Inv fb font lapicAddr m k (calls ++ [(fmt, text)]) codes turns t)
    (layout : Layout fb font lapicAddr m) (hrunning : t.running = some (.printing (buf + i)))
    (hi_le : i ≤ text.length) (htext : t.printedBy .call = textOf calls ++ text.take i)
    (string : t.mem.StringAt buf text) (quiet : Quiet fb lapicAddr buf BUF_SZ)
    (text_lt : text.length < BUF_SZ) (hturns : turns = turnsOf calls + (fmt.length + 1 + i))
    (stays : ¬ Escapes t.console (t.mem (buf + i))) :
    Inv fb font lapicAddr m k (calls ++ [(fmt, text)]) codes (turns + 1) (t.turn fb font) := by
  by_cases hi : i < text.length
  · obtain ⟨hchr, hne⟩ := string.apply (List.getElem?_eq_getElem hi)
    have hnonzero : t.mem (buf + i) ≠ 0 := by rwa [hchr]
    rw [turn_char hrunning hnonzero]
    obtain ⟨shown, kept⟩ := inv.shown.putChar layout.area layout.apart .call stays
    have hprinted := @printedBy_putChar fb font t .call (t.mem (buf + i))
    refine ⟨shown, inv.keyboard, ?_, ?_⟩
    · refine (hprinted .key).trans ?_
      rw [inv.typed]
      exact List.append_nil _
    · rw [hturns, show turnsOf calls + (fmt.length + 1 + i) + 1 =
        turnsOf calls + (fmt.length + 1 + (i + 1)) from rfl]
      refine .printing rfl hi ?_ ?_ quiet text_lt
      · refine (hprinted .call).trans ?_
        rw [htext, hchr, List.append_assoc, List.take_add_one, List.getElem?_eq_getElem hi]
        rfl
      · exact string.congr fun b hb hb' => kept b (quiet.byte hb (by omega)).1
  · obtain rfl : i = text.length := Nat.le_antisymm hi_le (Nat.le_of_not_lt hi)
    rw [turn_null hrunning string.null]
    obtain ⟨shown, -, drawn⟩ := inv.shown.draw layout.area layout.apart
    refine ⟨shown, inv.keyboard, inv.typed, ?_⟩
    have hcount : turns + 1 = turnsOf (calls ++ [(fmt, text)]) := by
      rw [turnsOf_snoc, hturns]
      omega
    rw [hcount]
    refine .idle rfl drawn ?_
    rw [textOf_snoc, ← List.take_length (l := text)]
    exact htext

/-- **A turn**, wherever the call is. -/
theorem Inv.turn (inv : Inv fb font lapicAddr m k calls codes turns t)
    (layout : Layout fb font lapicAddr m) (busy : t.running ≠ none)
    (stays : ∀ str, t.running = some (.printing str) → ¬ Escapes t.console (t.mem str)) :
    Inv fb font lapicAddr m k calls codes (turns + 1) (t.turn fb font) := by
  cases inv.stage with
  | idle hnone => exact absurd hnone busy
  | formatting hrunning before htext formatting =>
    exact inv.turn_formatting layout hrunning before htext formatting rfl
  | printing hrunning hi htext string quiet text_lt =>
    exact inv.turn_printing layout hrunning hi htext string quiet text_lt rfl (stays _ hrunning)

/-- The handler up to the end of the interrupt. -/
def pressed (fb : Framebuffer) (font : ConsoleFont) (t : Terminal) (code : Byte) : Terminal :=
  if (t.keyboard.readKey code).1 ≠ 0 then
    { (t.putChar fb font .key (t.keyboard.readKey code).1).draw fb font with
      keyboard := (t.keyboard.readKey code).2 }
  else { t with keyboard := (t.keyboard.readKey code).2 }

theorem keyboardHandler_eq (t : Terminal) (code : Byte) :
    t.keyboardHandler fb font lapicAddr code =
      (pressed fb font t code).setMem (Lapic.writeEoi lapicAddr (pressed fb font t code).mem) := rfl

/-- What the handler prints, and what it leaves. -/
theorem Shown.pressed (shown : Shown fb font m t) (layout : Layout fb font lapicAddr m)
    (code : Byte) (stays : ¬ Escapes t.console (t.keyboard.readKey code).1) :
    Shown fb font m (pressed fb font t code) ∧ Keeps fb t.mem (pressed fb font t code).mem ∧
      (Drawn fb t.mem → Drawn fb (pressed fb font t code).mem) := by
  unfold Terminal.pressed
  split_ifs
  · obtain ⟨printed, kept⟩ := shown.putChar layout.area layout.apart .key stays
    obtain ⟨shown', kept', drawn⟩ := printed.draw layout.area layout.apart
    exact ⟨shown', fun b hb => (kept' b hb).trans (kept b hb), fun _ => drawn⟩
  · exact ⟨shown, fun _ _ => rfl, id⟩

theorem pressed_running (t : Terminal) (code : Byte) :
    (pressed fb font t code).running = t.running := by
  unfold pressed
  split_ifs <;> rfl

theorem pressed_keyboard (t : Terminal) (code : Byte) :
    (pressed fb font t code).keyboard = (t.keyboard.readKey code).2 := by
  unfold pressed
  split_ifs <;> rfl

theorem pressed_printedBy (t : Terminal) (code : Byte) (p : Printer) :
    (pressed fb font t code).printedBy p = t.printedBy p ++
      if p = .key ∧ (t.keyboard.readKey code).1 ≠ 0 then [(t.keyboard.readKey code).1] else [] := by
  unfold pressed
  split_ifs with hne hp hp
  · exact (@printedBy_putChar fb font t .key _ p).trans (by rw [if_pos hp.1.symm])
  · exact (@printedBy_putChar fb font t .key _ p).trans
      (by rw [if_neg fun h => hp ⟨h.symm, hne⟩])
  · exact absurd hp.2 hne
  · exact (List.append_nil _).symm

/-- **An interrupt**, wherever the call is. -/
theorem Inv.key (inv : Inv fb font lapicAddr m k calls codes turns t)
    (layout : Layout fb font lapicAddr m) (code : Byte)
    (stays : ¬ Escapes t.console (t.keyboard.readKey code).1) :
    Inv fb font lapicAddr m k calls (codes ++ [code]) turns
      (t.keyboardHandler fb font lapicAddr code) := by
  obtain ⟨shown, kept, drawn⟩ := inv.shown.pressed layout code stays
  obtain ⟨hback, hfront⟩ := layout.eoi
  -- the store that ends the interrupt
  have store : ∀ b, b < lapicAddr + Lapic.EOI ∨ lapicAddr + Lapic.EOI + 4 ≤ b →
      Lapic.writeEoi lapicAddr (pressed fb font t code).mem b = (pressed fb font t code).mem b :=
    fun b hb => Mem.writeLE_of_outside 4 _ _ hb
  have same : SameFont font (pressed fb font t code).mem
      (Lapic.writeEoi lapicAddr (pressed fb font t code).mem) := by
    obtain ⟨-, hheader⟩ := layout.header
    obtain ⟨-, hglyphs⟩ := layout.glyphs
    refine ⟨store _ (by omega), fun b hb hb' => store b ?_⟩
    rw [(shown.sameFont layout.apart).charsize] at hb'
    omega
  rw [keyboardHandler_eq]
  refine ⟨shown.setMem layout.area layout.apart (fun b hb hb' => store b (by omega)) same, ?_, ?_,
    inv.stage.interrupt (pressed_running t code) ?_ (fun before i hi => ?_) fun b hb => ?_⟩
  · show (pressed fb font t code).keyboard = _
    rw [pressed_keyboard, inv.keyboard, Keyboard.readKeys_snoc]
  · show (pressed fb font t code).printedBy .key = _
    rw [pressed_printedBy, inv.typed, inv.keyboard, Keyboard.chars_snoc]
    simp only [true_and]
  · show (pressed fb font t code).printedBy .call = _
    rw [pressed_printedBy, if_neg fun h => nomatch h.1]
    exact List.append_nil _
  · show Lapic.writeEoi lapicAddr _ _ = Lapic.writeEoi lapicAddr _ _
    rw [store _ (by omega), store _ (by omega)]
    exact drawn before i hi
  · show Lapic.writeEoi lapicAddr _ b = t.mem b
    rw [store b (by have := hb.2; omega), kept b hb.1]

/-! ## Whole runs -/

variable {c : Console Mem}

theorem Runs.inv (layout : Layout fb font lapicAddr c.screen)
    (runs : Runs fb font lapicAddr (cleared fb font c k) calls codes turns t) :
    Inv fb font lapicAddr c.screen k calls codes turns t := by
  induction runs with
  | nil =>
    have shown : Shown fb font c.screen (cleared fb font c k) :=
      ⟨c.screen, .refl font c.screen, Console.clear_pictured layout.area c⟩
    exact ⟨shown, rfl, rfl, .idle rfl (Console.draw_drawn layout.area _) rfl⟩
  | kprintf _ idle fits ih => exact ih.kprintf layout idle fits
  | turn _ busy stays ih => exact ih.turn layout busy stays
  | key code _ stays ih => exact ih.key layout code stays

/-- While no call prints, the display has what was drawn. -/
theorem Stage.drawn (stage : Stage fb font lapicAddr m t calls turns)
    (quiet : ∀ str, t.running ≠ some (.printing str)) : Drawn fb t.mem := by
  cases stage with
  | idle _ before => exact before
  | formatting _ before => exact before
  | printing hrunning => exact absurd hrunning (quiet _)

/-- The turns that the calls have had, and when the last one is over. -/
theorem Stage.turns_le (stage : Stage fb font lapicAddr m t calls turns) :
    turns ≤ turnsOf calls ∧ (t.running = none ↔ turns = turnsOf calls) := by
  cases stage with
  | idle hnone => exact ⟨Nat.le_refl _, iff_of_true hnone rfl⟩
  | formatting hrunning _ _ formatting =>
    obtain ⟨⟨m', -, way⟩, -⟩ := formatting
    have hi := way.i_le
    rw [turnsOf_snoc]
    refine ⟨by simp only at hi; omega, iff_of_false ?_ (by simp only at hi; omega)⟩
    exact fun hnone => nomatch hrunning.symm.trans hnone
  | printing hrunning hi =>
    rw [turnsOf_snoc]
    refine ⟨by omega, iff_of_false ?_ (by omega)⟩
    exact fun hnone => nomatch hrunning.symm.trans hnone

/-- How much of the last call's text is printed: as many characters as it had turns after the end of
`__printf`. -/
theorem Stage.printedBy (calls : List (List Byte × List Byte))
    (stage : Stage fb font lapicAddr m t (calls ++ [(fmt, text)]) turns) : t.printedBy .call =
      textOf calls ++ text.take (turns - (turnsOf calls + (fmt.length + 1))) := by
  generalize hall : calls ++ [(fmt, text)] = all at stage
  cases stage with
  | idle _ _ htext =>
    subst hall
    rw [htext, textOf_snoc, turnsOf_snoc, List.take_of_length_le (by omega)]
  | formatting _ _ htext formatting =>
    obtain ⟨rfl, hcall⟩ := List.append_inj' hall rfl
    obtain ⟨⟨m', -, way⟩, -⟩ := formatting
    obtain ⟨rfl, rfl⟩ := Prod.mk.inj (List.cons.inj hcall).1
    have hi := way.i_le
    simp only at hi
    rw [htext, Nat.sub_eq_zero_of_le (by omega), List.take_zero, List.append_nil]
  | @printing _ _ i _ _ _ _ htext =>
    obtain ⟨rfl, hcall⟩ := List.append_inj' hall rfl
    obtain ⟨rfl, rfl⟩ := Prod.mk.inj (List.cons.inj hcall).1
    rw [htext, ← Nat.add_assoc, Nat.add_sub_cancel_left]

/-- A text without a backspace keeps to the area. -/
theorem Stage.stays (stage : Stage fb font lapicAddr m t (calls ++ [(fmt, text)]) turns)
    (plain : Console.BACKSPACE ∉ text) :
    ∀ str, t.running = some (.printing str) → ¬ Escapes t.console (t.mem str) := by
  rintro str hrunning ⟨hback, -⟩
  generalize hall : calls ++ [(fmt, text)] = all at stage
  cases stage with
  | idle hnone => exact nomatch hnone.symm.trans hrunning
  | formatting hformatting => exact nomatch hformatting.symm.trans hrunning
  | @printing _ buf i _ _ hprinting hi _ string =>
    obtain ⟨-, hcall⟩ := List.append_inj' hall rfl
    obtain ⟨-, rfl⟩ := Prod.mk.inj (List.cons.inj hcall).1
    obtain rfl : buf + i = str := by
      have hsame := Option.some.inj (hprinting.symm.trans hrunning)
      exact Running.printing.inj hsame
    rcases Nat.lt_or_eq_of_le hi with hlt | rfl
    · rw [(string.apply (List.getElem?_eq_getElem hlt)).1] at hback
      exact plain (hback ▸ List.getElem_mem hlt)
    · rw [string.null] at hback
      exact absurd hback (by decide)

/-- A turn prints at the end of the log. -/
theorem log_turn (t : Terminal) : t.log <+: (t.turn fb font).log := by
  unfold turn
  split
  · exact List.prefix_rfl
  · split <;> exact List.prefix_rfl
  · dsimp only
    split
    · exact List.prefix_append _ _
    · exact List.prefix_rfl

/-- **A call whose text has no backspace goes on to its end**: it has a next turn as long as it is
under way. -/
theorem Runs.advance (calls : List (List Byte × List Byte))
    (layout : Layout fb font lapicAddr c.screen) (plain : Console.BACKSPACE ∉ text)
    (runs : Runs fb font lapicAddr (cleared fb font c k) (calls ++ [(fmt, text)]) codes turns t)
    (n : Nat) (hn : turns + n ≤ turnsOf (calls ++ [(fmt, text)])) : ∃ t',
      Runs fb font lapicAddr (cleared fb font c k) (calls ++ [(fmt, text)]) codes (turns + n) t' ∧
        t.log <+: t'.log := by
  induction n with
  | zero => exact ⟨t, runs, List.prefix_rfl⟩
  | succ n ih =>
    obtain ⟨u, runs', hlog⟩ := ih (by omega)
    have stage := (runs'.inv layout).stage
    have busy : u.running ≠ none := by
      intro hnone
      have hall := stage.turns_le.2.mp hnone
      omega
    exact ⟨u.turn fb font, runs'.turn busy (stage.stays plain), hlog.trans (log_turn u)⟩

/-- What was printed since, where no key was pressed. -/
theorem printed_of_log {t' : Terminal} (more : List Byte) (hlog : t.log <+: t'.log)
    (keys : t'.printedBy .key = t.printedBy .key)
    (called : t'.printedBy .call = t.printedBy .call ++ more) :
    t'.printed = t.printed ++ more := by
  obtain ⟨extra, hextra⟩ := hlog
  have hpart : ∀ p, t'.printedBy p =
      t.printedBy p ++ (extra.filter fun entry => entry.1 = p).map Prod.snd := by
    intro p
    rw [printedBy, ← hextra, List.filter_append, List.map_append]
    rfl
  have hnone : (extra.filter fun entry => entry.1 = .key) = [] := by
    have h := keys
    rwa [hpart, List.append_right_eq_self, List.map_eq_nil_iff] at h
  have hcalls : (extra.filter fun entry => entry.1 = .call) = extra := by
    rw [List.filter_eq_self]
    rintro ⟨p, chr⟩ hmem
    cases p with
    | call => rfl
    | key => exact absurd (decide_eq_true rfl) (List.filter_eq_nil_iff.mp hnone _ hmem)
  have hmore : extra.map Prod.snd = more := by
    have h := called
    rwa [hpart, hcalls, List.append_cancel_left_eq] at h
  rw [printed, ← hextra, List.map_append, hmore]
  rfl

/-- **What is on the display**, whatever the order in which calls and keys came: while no call
prints, the pixels are those of the picture of the characters that were printed, in the order in
which they were. -/
theorem display_of_run (fb : Framebuffer) (font : ConsoleFont) (lapicAddr : Nat) (c : Console Mem)
    (k : Keyboard) (layout : Layout fb font lapicAddr c.screen)
    (calls : List (List Byte × List Byte)) (codes : List Byte) (turns : Nat) (t : Terminal)
    (runs : Runs fb font lapicAddr (cleared fb font c k) calls codes turns t)
    (quiet : ∀ str, t.running ≠ some (.printing str)) :
    ∀ row < ConsoleDefault.maxRow, ∀ col < ConsoleDefault.maxCol,
      ∀ x < font.glyphWidth, ∀ y < font.glyphHeight,
        t.mem.readLE (Console.frontAt fb (col * font.glyphWidth + x)
            (row * font.glyphHeight + y)) 4 =
          (Picture.ofChars fb font t.printed).pixel font c.screen row col x y := by
  have inv := runs.inv layout
  obtain ⟨m', same, agree⟩ := inv.shown
  intro row hrow col hcol x hx y hy
  exact (agree.screen.front (inv.stage.drawn quiet) layout.area hrow hcol hx hy).trans
    (same.pixel agree.screen.printable hy)

/-- A call that fits the memory before a `clear` fits the one after it. -/
theorem Fits.cleared (fits : Fits fb font lapicAddr c.screen f fmt args text)
    (layout : Layout fb font lapicAddr c.screen) (k : Keyboard) :
    Fits fb font lapicAddr (cleared fb font c k).mem f fmt args text := by
  have pictured := (Console.clear_pictured layout.area c).screen
  have kept : ∀ {a n : Nat}, Quiet fb lapicAddr a n → ∀ b, a ≤ b → b < a + n →
      (Terminal.cleared fb font c k).mem b = c.screen b := fun quiet b hb hb' =>
    pictured.kept b (quiet.byte hb hb').1
  have hsize : font.charsize (Terminal.cleared fb font c k).mem = font.charsize c.screen :=
    (pictured.sameFont layout.apart).charsize
  obtain ⟨hformat, hreads⟩ := fits.layout.format
  refine ⟨⟨fits.layout.buffers, ⟨hformat.congr (kept fits.clear.format), hreads⟩, ?_,
    fits.layout.numbers⟩, ⟨fits.clear.format, fits.clear.strings, fits.clear.buf,
    fits.clear.tempBuf, fits.clear.header, ?_⟩, fits.fmt_lt, fits.expands, fits.text_lt⟩
  · intro i str hi
    obtain ⟨string, hreads⟩ := fits.layout.strings i str hi
    exact ⟨string.congr (kept (fits.clear.strings i str hi)), hreads⟩
  · rw [hsize]
    exact fits.clear.glyphs

theorem printed_keyboardHandler (t : Terminal) (code : Byte) :
    (t.keyboardHandler fb font lapicAddr code).printed = t.printed ++
      if (t.keyboard.readKey code).1 ≠ 0 then [(t.keyboard.readKey code).1] else [] := by
  rw [keyboardHandler_eq]
  show (pressed fb font t code).printed = _
  unfold pressed
  split_ifs
  · exact List.map_append
  · exact (List.append_nil _).symm

/-- A call of `kprintf("AB")`. -/
def exampleFrame : Frame where
  str := 0x3000
  buf := 0x10000
  tempBuf := 0x20000
  args _ := 0

/-- The font, and the format of the call. -/
def exampleMem : Mem := fun a =>
  if a = 0x3000 then 0x41 else if a = 0x3001 then 0x42 else Console.fullFont a

def exampleLapic : Nat := 0xfee00000

/-- The terminal before the call. -/
def exampleCleared : Terminal :=
  cleared Console.display Console.displayFont ⟨.reset, exampleMem, []⟩ {}

theorem example_layout : Layout Console.display Console.displayFont exampleLapic exampleMem where
  area := Console.display_area
  apart := ⟨Console.fullFont_apart.header, Console.fullFont_apart.glyphs,
    Console.fullFont_apart.memory⟩
  eoi := by
    unfold ApartFrom
    decide
  header := by
    unfold Quiet ApartFrom
    decide
  glyphs := by
    unfold Quiet ApartFrom
    decide

theorem example_fits : Fits Console.display Console.displayFont exampleLapic exampleMem exampleFrame
    [0x41, 0x42] [] [0x41, 0x42] where
  layout := by
    refine ⟨by decide, ⟨⟨by decide, ?_⟩, by unfold Frame.Apart; decide, by decide⟩, ?_, ?_⟩
    · intro i b hb
      match i, hb with
      | 0, hb => exact Option.some.inj hb
      | 1, hb => exact Option.some.inj hb
      | 2, hb => exact Option.some.inj hb
    · intro i str hi
      cases hi
    · intro i n hi
      cases hi
  clear := by
    refine ⟨by unfold Quiet ApartFrom; decide, ?_, by unfold Quiet ApartFrom; decide,
      by unfold Quiet ApartFrom; decide, by unfold Frame.Apart; decide,
      by unfold Frame.Apart; decide⟩
    intro i str hi
    cases hi
  fmt_lt := by decide
  expands := rfl
  text_lt := by decide

/-- The runs of the example. -/
def ExampleRuns (codes : List Byte) (turns : Nat) (t : Terminal) : Prop :=
  Runs Console.display Console.displayFont exampleLapic exampleCleared
    [([0x41, 0x42], [0x41, 0x42])] codes turns t

/-- The call up to its first character. -/
theorem example_first : ∃ t, ExampleRuns [] 4 t ∧ t.printed = [0x41] := by
  have start : ExampleRuns [] 0 (exampleCleared.kprintf exampleFrame) :=
    .kprintf .nil rfl (example_fits.cleared (c := ⟨.reset, exampleMem, []⟩) example_layout {})
  obtain ⟨t, runs, hlog⟩ := Runs.advance [] example_layout (by decide) start 4 (by decide)
  have inv := runs.inv example_layout
  exact ⟨t, runs, printed_of_log [0x41] hlog inv.typed (Stage.printedBy [] inv.stage)⟩

/-- A key, and then the rest of the call. -/
theorem example_runs : ∃ t, ExampleRuns [0x1e] 6 t ∧ t.running = none ∧
    t.printed = [0x41, 0x61, 0x42] := by
  obtain ⟨t, first, hfirst⟩ := example_first
  have inv := first.inv example_layout
  have hkey : (t.keyboard.readKey 0x1e).1 = 0x61 := by
    rw [inv.keyboard]
    decide
  have pressed : ExampleRuns [0x1e] 4
      (t.keyboardHandler Console.display Console.displayFont exampleLapic 0x1e) := by
    refine .key 0x1e first ?_
    rintro ⟨hback, -⟩
    exact absurd (hkey.symm.trans hback) (by decide)
  obtain ⟨u, runs, hlog⟩ := Runs.advance [] example_layout (by decide) pressed 2 (by decide)
  have inv' := pressed.inv example_layout
  have inv'' := runs.inv example_layout
  refine ⟨u, runs, inv''.stage.turns_le.2.mpr rfl, ?_⟩
  have hprinted := printed_of_log [0x42] hlog (inv''.typed.trans inv'.typed.symm) (by
    rw [Stage.printedBy [] inv''.stage, Stage.printedBy [] inv'.stage]
    rfl)
  rw [hprinted, printed_keyboardHandler, hfirst, hkey]
  rfl

/-- The letter of the key is on the display, between those of the call: the first pixels of the
second rows of three cells are white, and that of the fourth is black. -/
theorem key_on_display : ∃ t, ExampleRuns [0x1e] 6 t ∧
    (∀ col < 3, t.mem.readLE (Console.frontAt Console.display (col * 8 + 0) (0 * 16 + 1)) 4 =
      WHITE) ∧
    t.mem.readLE (Console.frontAt Console.display (3 * 8 + 0) (0 * 16 + 1)) 4 = BLACK := by
  obtain ⟨t, runs, hnone, hprinted⟩ := example_runs
  have shown := display_of_run Console.display Console.displayFont exampleLapic
    ⟨.reset, exampleMem, []⟩ {} example_layout _ _ _ _ runs
    (fun str h => nomatch hnone.symm.trans h) 0 (by decide)
  rw [hprinted] at shown
  refine ⟨t, runs, fun col hcol => ?_, ?_⟩
  · refine (shown col (Nat.lt_trans hcol (by decide)) 0 (by decide) 1 (by decide)).trans ?_
    match col, hcol with
    | 0, _ => decide
    | 1, _ => decide
    | 2, _ => decide
  · exact (shown 3 (by decide) 0 (by decide) 1 (by decide)).trans (by decide)

/-- **No character is lost, doubled or out of its order**: what the calls printed is the texts of
the calls before the last one and a first part of the last one's, all of it once no call is under
way; and what the keys printed is what the driver makes of their codes. -/
theorem printed_of_run (fb : Framebuffer) (font : ConsoleFont) (lapicAddr : Nat) (c : Console Mem)
    (k : Keyboard) (layout : Layout fb font lapicAddr c.screen)
    (calls : List (List Byte × List Byte)) (codes : List Byte) (turns : Nat) (t : Terminal)
    (runs : Runs fb font lapicAddr (cleared fb font c k) calls codes turns t) :
    textOf calls.dropLast <+: t.printedBy .call ∧ t.printedBy .call <+: textOf calls ∧
      (t.running = none → t.printedBy .call = textOf calls) ∧
      t.printedBy .key = k.chars codes := by
  have inv := runs.inv layout
  refine ⟨?_, ?_, ?_, inv.typed⟩
  all_goals cases inv.stage
  case refine_1.idle htext =>
    rw [htext]
    exact ((List.dropLast_prefix calls).flatMap _)
  case refine_1.formatting htext _ =>
    rw [htext, List.dropLast_concat]
  case refine_1.printing htext _ _ _ =>
    rw [htext, List.dropLast_concat]
    exact List.prefix_append _ _
  case refine_2.idle htext => rw [htext]
  case refine_2.formatting htext _ =>
    rw [htext, textOf_snoc]
    exact List.prefix_append _ _
  case refine_2.printing htext _ _ _ =>
    rw [htext, textOf_snoc, List.prefix_append_right_inj]
    exact List.take_prefix _ _
  case refine_3.idle htext => exact fun _ => htext
  case refine_3.formatting hrunning _ _ _ => exact fun hnone => nomatch hrunning.symm.trans hnone
  case refine_3.printing hrunning _ _ _ _ _ => exact fun hnone => nomatch hrunning.symm.trans hnone

/-- The call has printed its text, and the key its letter in the middle of it. -/
theorem example_printed : ∃ t, ExampleRuns [0x1e] 6 t ∧ t.printed = [0x41, 0x61, 0x42] ∧
    t.printedBy .call = [0x41, 0x42] ∧ t.printedBy .key = [0x61] := by
  obtain ⟨t, runs, hnone, hprinted⟩ := example_runs
  obtain ⟨-, -, hcall, hkey⟩ := printed_of_run Console.display Console.displayFont exampleLapic
    ⟨.reset, exampleMem, []⟩ {} example_layout _ _ _ _ runs
  exact ⟨t, runs, hprinted, hcall hnone, hkey.trans (by decide)⟩

/-- **How long a call takes**: one turn for each character of its format and of its text, and two
more, whatever comes between them. No call has had more turns than these, and none is under way
exactly when all have had theirs. -/
theorem turns_of_run (fb : Framebuffer) (font : ConsoleFont) (lapicAddr : Nat) (c : Console Mem)
    (k : Keyboard) (layout : Layout fb font lapicAddr c.screen)
    (calls : List (List Byte × List Byte)) (codes : List Byte) (turns : Nat) (t : Terminal)
    (runs : Runs fb font lapicAddr (cleared fb font c k) calls codes turns t) :
    turns ≤ turnsOf calls ∧ (t.running = none ↔ turns = turnsOf calls) :=
  (runs.inv layout).stage.turns_le

/-- The call is under way after four turns, and over after six. -/
theorem example_turns : (∃ t, ExampleRuns [] 4 t ∧ t.running ≠ none) ∧
    ∃ t, ExampleRuns [0x1e] 6 t ∧ t.running = none := by
  obtain ⟨t, first, -⟩ := example_first
  obtain ⟨u, runs, -⟩ := example_runs
  obtain ⟨-, hunder⟩ := turns_of_run Console.display Console.displayFont exampleLapic
    ⟨.reset, exampleMem, []⟩ {} example_layout _ _ _ _ first
  obtain ⟨-, hover⟩ := turns_of_run Console.display Console.displayFont exampleLapic
    ⟨.reset, exampleMem, []⟩ {} example_layout _ _ _ _ runs
  exact ⟨⟨t, first, fun hnone => absurd (hunder.mp hnone) (by decide)⟩, u, runs, hover.mpr rfl⟩

end Terminal

end PrintOS
