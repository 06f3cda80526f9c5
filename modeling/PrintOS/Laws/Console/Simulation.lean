import PrintOS.Laws.Console.Console

/-!
# The console on two framebuffers

The console does the same to its cursor whatever it is drawn on. So where one framebuffer does to
its state what another does to its own, as far as a relation between the two tells (`Simulates`), a
character keeps that relation (`Agree.printChar`). A framebuffer is only asked for what the console
does with it: to draw a glyph in the text area and in the colours of a `reset`, to scroll by a line,
and to draw.

The one character that draws elsewhere is a backspace in the first cell. `Stays` says of some
characters that none is that.
-/

namespace PrintOS

open ByteMemory (Byte)

/-! ## The cursor -/

namespace ConsoleCursor

variable {c : ConsoleCursor}

/-- The area and the colours are those that `reset` gives. -/
structure Plain (c : ConsoleCursor) : Prop where
  sized : c.Sized
  fg : c.fg = ConsoleDefault.fg
  bg : c.bg = ConsoleDefault.bg

theorem plain_reset : reset.Plain := ⟨sized_reset, rfl, rfl⟩

theorem Plain.next (plain : c.Plain) : c.next.Plain := by
  refine ⟨plain.sized.next, ?_, ?_⟩
  · unfold ConsoleCursor.next
    split <;> exact plain.fg
  · unfold ConsoleCursor.next
    split <;> exact plain.bg

theorem Plain.back (plain : c.Plain) : c.back.Plain := by
  refine ⟨plain.sized.back, ?_, ?_⟩
  · unfold ConsoleCursor.back
    split <;> exact plain.fg
  · unfold ConsoleCursor.back
    split <;> exact plain.bg

theorem Plain.cr (plain : c.Plain) : c.cr.Plain := ⟨plain.sized, plain.fg, plain.bg⟩

theorem Plain.lf (plain : c.Plain) : c.lf.Plain := ⟨plain.sized, plain.fg, plain.bg⟩

theorem Plain.gotoxy (plain : c.Plain) (x y : Nat) : (c.gotoxy x y).Plain :=
  ⟨plain.sized, plain.fg, plain.bg⟩

end ConsoleCursor

namespace Console

variable {δ ε : Type} {s₁ : Surface δ} {s₂ : Surface ε} {R : δ → ε → Prop}

/-! ## Two framebuffers -/

/-- What the scroll does to the framebuffer. -/
def Surface.scroll (s : Surface δ) (d : δ) : δ :=
  s.draw (s.blankLine (s.moveUp d) (ConsoleDefault.maxRow - 1))

/-- What is done to both keeps the relation. -/
structure Simulates (s₁ : Surface δ) (s₂ : Surface ε) (R : δ → ε → Prop) : Prop where
  printGlyph : ∀ {d e cursor chr}, R d e → cursor.Plain → cursor.Inside → Printable chr →
    R (s₁.printGlyph d cursor chr) (s₂.printGlyph e cursor chr)
  scroll : ∀ {d e}, R d e → R (Surface.scroll s₁ d) (Surface.scroll s₂ e)
  draw : ∀ {d e}, R d e → R (s₁.draw d) (s₂.draw e)

/-- Two consoles with one cursor, which is where it may be, and with related framebuffers. -/
structure Agree (R : δ → ε → Prop) (c : Console δ) (d : Console ε) : Prop where
  cursor : c.cursor = d.cursor
  plain : d.cursor.Plain
  area : d.InArea
  screen : R c.screen d.screen

variable {c : Console δ} {d : Console ε} {chr : Byte}

/-- The character is a backspace in the first cell. -/
def Escapes (c : Console δ) (chr : Byte) : Prop := chr = BACKSPACE ∧ c.cursor.Home

instance (c : Console δ) (chr : Byte) : Decidable (Escapes c chr) :=
  inferInstanceAs (Decidable (_ ∧ _))

theorem Agree.move (agree : Agree R c d) {move : ConsoleCursor → ConsoleCursor}
    (plain : (move d.cursor).Plain) (area : (d.moveCursor move).InArea) :
    Agree R (c.moveCursor move) (d.moveCursor move) where
  cursor := congrArg move agree.cursor
  plain := plain
  area := area
  screen := agree.screen

theorem Agree.putGlyph (sim : Simulates s₁ s₂ R) (agree : Agree R c d)
    (inside : d.cursor.Inside) (hchr : Printable chr) :
    Agree R (putGlyph s₁ c chr) (putGlyph s₂ d chr) where
  cursor := congrArg ConsoleCursor.next agree.cursor
  plain := agree.plain.next
  area := agree.area.putGlyph agree.plain.sized inside chr
  screen := by
    show R (s₁.printGlyph c.screen c.cursor chr) (s₂.printGlyph d.screen d.cursor chr)
    rw [agree.cursor]
    exact sim.printGlyph agree.screen agree.plain inside hchr

theorem scrollDown_screen (s : Surface δ) {c : Console δ} (sized : c.cursor.Sized) :
    (scrollDown s c).screen = Surface.scroll s c.screen := by
  have hlast : sub16 ConsoleDefault.maxRow 1 = ConsoleDefault.maxRow - 1 := by decide
  rw [scrollDown_eq, sized.2, hlast]
  rfl

theorem Agree.scrollIfFull (sim : Simulates s₁ s₂ R) (agree : Agree R c d) :
    Agree R (scrollIfFull s₁ c) (scrollIfFull s₂ d) := by
  obtain ⟨area, -, -⟩ := scrollIfFull_spec s₂ agree.plain.sized agree.area
  by_cases full : d.cursor.maxRow = d.cursor.row
  · have full' : c.cursor.maxRow = c.cursor.row := by
      rwa [agree.cursor]
    have sized : c.cursor.Sized := agree.cursor ▸ agree.plain.sized
    rw [Console.scrollIfFull, if_pos full] at area
    rw [Console.scrollIfFull, if_pos full', Console.scrollIfFull, if_pos full]
    refine ⟨?_, ?_, area, ?_⟩
    · rw [scrollDown_cursor, scrollDown_cursor, agree.cursor]
    · rw [scrollDown_cursor]
      exact agree.plain.gotoxy _ _
    · rw [scrollDown_screen s₁ sized, scrollDown_screen s₂ agree.plain.sized]
      exact sim.scroll agree.screen
  · have full' : ¬ c.cursor.maxRow = c.cursor.row := by
      rwa [agree.cursor]
    rw [Console.scrollIfFull, if_neg full', Console.scrollIfFull, if_neg full]
    exact agree

/-- **A character** that is no backspace in the first cell. -/
theorem Agree.printChar (sim : Simulates s₁ s₂ R) (agree : Agree R c d) (stays : ¬ Escapes d chr) :
    Agree R (printChar s₁ c chr) (printChar s₂ d chr) := by
  have scrolled := agree.scrollIfFull sim
  obtain ⟨-, inside, hhome⟩ := scrollIfFull_spec s₂ agree.plain.sized agree.area
  have area : (Console.printChar s₂ d chr).InArea :=
    (printChar_inArea_iff agree.plain.sized agree.area).mpr stays
  by_cases hback : chr = BACKSPACE
  · -- The step back goes to a cell of the area, so that the inner call does not scroll.
    have away : ¬ (Console.scrollIfFull s₂ d).cursor.Home := fun home =>
      stays ⟨hback, hhome.mp home⟩
    have sized := scrolled.plain.sized
    obtain ⟨inside', hnext⟩ := ConsoleCursor.back_inside sized inside away
    have inside₂ : ((Console.scrollIfFull s₂ d).moveCursor ConsoleCursor.back).cursor.Inside :=
      inside'
    have inside₁ : ((Console.scrollIfFull s₁ c).moveCursor ConsoleCursor.back).cursor.Inside := by
      show (Console.scrollIfFull s₁ c).cursor.back.Inside
      rwa [scrolled.cursor]
    have moved : Agree R ((Console.scrollIfFull s₁ c).moveCursor ConsoleCursor.back)
        ((Console.scrollIfFull s₂ d).moveCursor ConsoleCursor.back) := by
      refine scrolled.move scrolled.plain.back (scrolled.area.move ?_ ?_ ?_ ?_)
      · exact ConsoleCursor.back_maxCol _
      · exact ConsoleCursor.back_maxRow _
      · simpa using inside'.1
      · simpa using Nat.le_of_lt inside'.2
    have put := moved.putGlyph sim inside₂ (show Printable SPACE by decide)
    rw [hback, printChar_backspace] at area ⊢
    rw [printChar_backspace]
    simp only [backspace, scrollIfFull_of_inside inside₁, scrollIfFull_of_inside inside₂] at area ⊢
    exact put.move put.plain.back area
  · simp only [Console.printChar, if_neg hback] at area ⊢
    split_ifs at area ⊢
    · exact scrolled.putGlyph sim inside ‹_›
    · exact scrolled.move scrolled.plain.lf.cr area
    · exact scrolled.move scrolled.plain.next.next.next area
    · exact scrolled.move scrolled.plain.cr area
    · exact scrolled

theorem Agree.draw (sim : Simulates s₁ s₂ R) (agree : Agree R c d) :
    Agree R (draw s₁ c) (draw s₂ d) where
  cursor := agree.cursor
  plain := agree.plain
  area := ⟨agree.area.col_lt, agree.area.row_le, agree.area.drawn_lt⟩
  screen := sim.draw agree.screen

/-! ## Some characters -/

/-- None of the characters is a backspace in the first cell. -/
def Stays (s : Surface δ) (c : Console δ) (chars : List Byte) : Prop :=
  ∀ pre chr post, chars = pre ++ chr :: post → ¬ Escapes (printChars s c pre) chr

theorem Stays.head {chars : List Byte} {s : Surface δ} (stays : Stays s c (chr :: chars)) :
    ¬ Escapes c chr := stays [] chr chars rfl

theorem Stays.tail {chars : List Byte} {s : Surface δ} (stays : Stays s c (chr :: chars)) :
    Stays s (Console.printChar s c chr) chars := fun pre x post h =>
  stays (chr :: pre) x post (congrArg (chr :: ·) h)

/-- A text without a backspace stays. -/
theorem stays_of_not_mem {s : Surface δ} {chars : List Byte} (h : BACKSPACE ∉ chars) :
    Stays s c chars := by
  rintro pre chr post rfl ⟨rfl, -⟩
  exact h (List.mem_append_right _ List.mem_cons_self)

theorem Agree.printChars (sim : Simulates s₁ s₂ R) (agree : Agree R c d) {chars : List Byte}
    (stays : Stays s₂ d chars) : Agree R (printChars s₁ c chars) (printChars s₂ d chars) := by
  induction chars generalizing c d with
  | nil => exact agree
  | cons chr chars ih => exact ih (agree.printChar sim stays.head) stays.tail

end Console

end PrintOS
