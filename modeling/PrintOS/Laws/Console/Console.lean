import PrintOS.Console.Console
import PrintOS.Lib.Run

/-!
# The cursor and the text area

Every glyph should be drawn inside the text area, and the cursor should stay in it or on the line
below it (`InArea`). A character comes through a call of `print`, which draws the framebuffer after
its last one: `Act` has both, so that a law can speak of what holds after every character, also in
the middle of a call.

One character leaves the area, a backspace in the first cell: both coordinates are unsigned, so the
cursor goes to row 65535 and a space is drawn there. `inArea_iff` says that it is the only one.
-/

namespace PrintOS

open ByteMemory (Byte)

/-! ## The moves of the cursor -/

namespace ConsoleCursor

variable {c : ConsoleCursor}

/-- The text area has the size that `reset` gives it. -/
def Sized (c : ConsoleCursor) : Prop :=
  c.maxCol = ConsoleDefault.maxCol ∧ c.maxRow = ConsoleDefault.maxRow

/-- The cursor is in the text area. -/
def Inside (c : ConsoleCursor) : Prop := c.col < c.maxCol ∧ c.row < c.maxRow

/-- The cursor is in the first cell. -/
def Home (c : ConsoleCursor) : Prop := c.col = 0 ∧ c.row = 0

instance (c : ConsoleCursor) : Decidable c.Home := inferInstanceAs (Decidable (_ ∧ _))

theorem sized_reset : reset.Sized := ⟨rfl, rfl⟩

@[simp]
theorem next_maxCol (c : ConsoleCursor) : c.next.maxCol = c.maxCol := by
  unfold next
  split <;> rfl

@[simp]
theorem next_maxRow (c : ConsoleCursor) : c.next.maxRow = c.maxRow := by
  unfold next
  split <;> rfl

@[simp]
theorem back_maxCol (c : ConsoleCursor) : c.back.maxCol = c.maxCol := by
  unfold back
  split <;> rfl

@[simp]
theorem back_maxRow (c : ConsoleCursor) : c.back.maxRow = c.maxRow := by
  unfold back
  split <;> rfl

theorem Sized.next (h : c.Sized) : c.next.Sized := by
  simpa [Sized] using h

theorem Sized.back (h : c.Sized) : c.back.Sized := by
  simpa [Sized] using h

theorem Sized.gotoxy (h : c.Sized) (x y : Nat) : (c.gotoxy x y).Sized := h

@[simp]
theorem gotoxy_col (c : ConsoleCursor) (x y : Nat) : (c.gotoxy x y).col = x := rfl

@[simp]
theorem gotoxy_row (c : ConsoleCursor) (x y : Nat) : (c.gotoxy x y).row = y := rfl

theorem Sized.maxCol_lt (h : c.Sized) : c.maxCol < 2 ^ 16 := by
  rw [h.1]
  decide

theorem Sized.maxRow_lt (h : c.Sized) : c.maxRow + 1 < 2 ^ 16 := by
  rw [h.2]
  decide

/-- One column on, if there is one. -/
theorem next_of_lt (sized : c.Sized) (h : c.col + 1 < c.maxCol) :
    c.next = { c with col := c.col + 1 } := by
  have hcol : u16 (c.col + 1) = c.col + 1 := u16_of_lt (Nat.lt_trans h sized.maxCol_lt)
  rw [ConsoleCursor.next, if_pos h, hcol]

/-- From the last column, to the start of the next line. -/
theorem next_of_ge (sized : c.Sized) (h : c.maxCol ≤ c.col + 1) (row : c.row ≤ c.maxRow) :
    c.next = { c with col := 0, row := c.row + 1 } := by
  have hrow : u16 (c.row + 1) = c.row + 1 :=
    u16_of_lt (Nat.lt_of_le_of_lt (Nat.succ_le_succ row) sized.maxRow_lt)
  rw [ConsoleCursor.next, if_neg (Nat.not_lt.mpr h), hrow]

/-- One column back, if there is one. -/
theorem back_of_pos (sized : c.Sized) (col : c.col < c.maxCol) (h : 0 < c.col) :
    c.back = { c with col := c.col - 1 } := by
  have hcol : sub16 c.col 1 = c.col - 1 := sub16_of_le h (Nat.lt_trans col sized.maxCol_lt)
  rw [ConsoleCursor.back, if_pos h, hcol]

/-- From the first column, to the end of the line before, if there is one. -/
theorem back_of_zero (sized : c.Sized) (row : c.row < c.maxRow) (h : c.col = 0)
    (above : 0 < c.row) : c.back = { c with col := c.maxCol - 1, row := c.row - 1 } := by
  have hrow : sub16 c.row 1 = c.row - 1 :=
    sub16_of_le above (Nat.lt_trans row (Nat.lt_of_succ_lt sized.maxRow_lt))
  have hcol : sub16 c.maxCol 1 = c.maxCol - 1 := by
    rw [sized.1]
    rfl
  rw [ConsoleCursor.back, if_neg (by omega), hrow, hcol]

/-- From the first cell the row goes below zero. -/
theorem back_of_home (home : c.Home) : c.back.row = 65535 := by
  obtain ⟨col, row⟩ := home
  rw [ConsoleCursor.back, if_neg (by omega)]
  show sub16 c.row 1 = 65535
  rw [row]
  rfl

/-- A step back from anywhere else stays inside, and the step on returns. -/
theorem back_inside (sized : c.Sized) (inside : c.Inside) (away : ¬ c.Home) :
    c.back.Inside ∧ c.back.next = c := by
  obtain ⟨col, row⟩ := inside
  have sized' := sized.back
  by_cases h : c.col = 0
  · have above : 0 < c.row := by
      rcases Nat.eq_zero_or_pos c.row with h' | h'
      · exact absurd ⟨h, h'⟩ away
      · exact h'
    have hback := back_of_zero sized row h above
    rw [hback] at sized' ⊢
    refine ⟨⟨Nat.sub_one_lt_of_lt col, Nat.lt_of_le_of_lt (Nat.sub_le _ _) row⟩, ?_⟩
    rw [next_of_ge sized' (by show c.maxCol ≤ c.maxCol - 1 + 1; omega)
      (Nat.le_trans (Nat.sub_le _ _) (Nat.le_of_lt row))]
    show { c with col := 0, row := c.row - 1 + 1 } = c
    rw [← h, Nat.sub_add_cancel above]
  · have hpos := Nat.pos_of_ne_zero h
    have hback := back_of_pos sized col hpos
    rw [hback] at sized' ⊢
    refine ⟨⟨Nat.lt_of_le_of_lt (Nat.sub_le _ _) col, row⟩, ?_⟩
    rw [next_of_lt sized' (by show c.col - 1 + 1 < c.maxCol; omega)]
    show { c with col := c.col - 1 + 1 } = c
    rw [Nat.sub_add_cancel hpos]

/-- Where a step on leads: to the next column, or over the end of the line. -/
theorem next_cases (sized : c.Sized) (row : c.row ≤ c.maxRow) :
    (c.col + 1 < c.maxCol ∧ c.next.col = c.col + 1 ∧ c.next.row = c.row) ∨
      (c.maxCol ≤ c.col + 1 ∧ c.next.col = 0 ∧ c.next.row = c.row + 1) := by
  rcases Nat.lt_or_ge (c.col + 1) c.maxCol with h | h
  · rw [next_of_lt sized h]
    exact .inl ⟨h, rfl, rfl⟩
  · rw [next_of_ge sized h row]
    exact .inr ⟨h, rfl, rfl⟩

/-- A step on from inside goes no further than the line below the area. -/
theorem next_inside (sized : c.Sized) (inside : c.Inside) :
    c.next.col < c.maxCol ∧ c.next.row ≤ c.maxRow := by
  obtain ⟨col, row⟩ := inside
  have := next_cases sized (Nat.le_of_lt row)
  omega

/-- A tab moves on three times, over the end of one line at the most. -/
theorem tab_inside (sized : c.Sized) (inside : c.Inside) :
    c.next.next.next.col < c.maxCol ∧ c.next.next.next.row ≤ c.maxRow := by
  obtain ⟨col, row⟩ := inside
  have wide : 3 ≤ c.maxCol := by
    rw [sized.1]
    decide
  have first := next_cases sized (Nat.le_of_lt row)
  have second := next_cases sized.next (by rw [next_maxRow]; omega)
  have third := next_cases sized.next.next (by simp only [next_maxCol, next_maxRow] at *; omega)
  simp only [next_maxCol] at second third
  omega

end ConsoleCursor

/-! ## A character -/

namespace Console

variable {δ : Type} {surface : Surface δ} {c : Console δ} {chr : Byte}

/-- The cursor is in the text area or on the line below it, and every glyph was drawn in the
area. -/
structure InArea (c : Console δ) : Prop where
  col_lt : c.cursor.col < c.cursor.maxCol
  row_le : c.cursor.row ≤ c.cursor.maxRow
  drawn_lt : ∀ cell ∈ c.drawn, cell.1 < c.cursor.maxCol ∧ cell.2 < c.cursor.maxRow

theorem clear_inArea (surface : Surface δ) (c : Console δ) : (clear surface c).InArea where
  col_lt := by
    show 0 < ConsoleDefault.maxCol
    decide
  row_le := Nat.zero_le _
  drawn_lt := by
    intro cell mem
    cases mem

/-- Moving the cursor of a console in its area, to somewhere that is still in it. -/
theorem InArea.move (area : c.InArea) {move : ConsoleCursor → ConsoleCursor}
    (maxCol : (move c.cursor).maxCol = c.cursor.maxCol)
    (maxRow : (move c.cursor).maxRow = c.cursor.maxRow)
    (col : (move c.cursor).col < c.cursor.maxCol) (row : (move c.cursor).row ≤ c.cursor.maxRow) :
    (c.moveCursor move).InArea where
  col_lt := by
    show (move c.cursor).col < (move c.cursor).maxCol
    rwa [maxCol]
  row_le := by
    show (move c.cursor).row ≤ (move c.cursor).maxRow
    rwa [maxRow]
  drawn_lt := by
    intro cell mem
    show cell.1 < (move c.cursor).maxCol ∧ cell.2 < (move c.cursor).maxRow
    rw [maxCol, maxRow]
    exact area.drawn_lt cell mem

/-- A glyph drawn inside. -/
theorem InArea.putGlyph (area : c.InArea) (sized : c.cursor.Sized) (inside : c.cursor.Inside)
    (chr : Byte) : (putGlyph surface c chr).InArea where
  col_lt := by
    show c.cursor.next.col < c.cursor.next.maxCol
    rw [ConsoleCursor.next_maxCol]
    exact (ConsoleCursor.next_inside sized inside).1
  row_le := by
    show c.cursor.next.row ≤ c.cursor.next.maxRow
    rw [ConsoleCursor.next_maxRow]
    exact (ConsoleCursor.next_inside sized inside).2
  drawn_lt := by
    intro cell mem
    show cell.1 < c.cursor.next.maxCol ∧ cell.2 < c.cursor.next.maxRow
    rw [ConsoleCursor.next_maxCol, ConsoleCursor.next_maxRow]
    rcases List.mem_append.mp mem with mem | mem
    · exact area.drawn_lt cell mem
    · rw [List.mem_singleton.mp mem]
      exact inside

/-! ### The scroll -/

theorem scrollDown_eq (surface : Surface δ) (c : Console δ) :
    scrollDown surface c =
      { cursor := c.cursor.gotoxy c.cursor.col (sub16 c.cursor.row 1)
        screen := surface.draw
          (surface.blankLine (surface.moveUp c.screen) (sub16 c.cursor.maxRow 1))
        drawn := c.drawn } :=
  rfl

theorem scrollDown_cursor (surface : Surface δ) (c : Console δ) :
    (scrollDown surface c).cursor = c.cursor.gotoxy c.cursor.col (sub16 c.cursor.row 1) := by
  rw [scrollDown_eq]

theorem scrollIfFull_of_inside (inside : c.cursor.Inside) : scrollIfFull surface c = c :=
  if_neg (Nat.ne_of_gt inside.2)

theorem scrollIfFull_sized (surface : Surface δ) (sized : c.cursor.Sized) :
    (scrollIfFull surface c).cursor.Sized := by
  unfold scrollIfFull
  split
  · rw [scrollDown_cursor]
    exact sized.gotoxy _ _
  · exact sized

/-- After the scroll the cursor is inside, and it is in the first cell only if it was before. -/
theorem scrollIfFull_spec (surface : Surface δ) (sized : c.cursor.Sized) (area : c.InArea) :
    (scrollIfFull surface c).InArea ∧ (scrollIfFull surface c).cursor.Inside ∧
      ((scrollIfFull surface c).cursor.Home ↔ c.cursor.Home) := by
  by_cases full : c.cursor.maxRow = c.cursor.row
  · have pos : 1 < c.cursor.row := by
      rw [← full, sized.2]
      decide
    have hrow : sub16 c.cursor.row 1 = c.cursor.row - 1 :=
      sub16_of_le (Nat.le_of_lt pos) (by rw [← full]; exact Nat.lt_of_succ_lt sized.maxRow_lt)
    have hcursor : (scrollIfFull surface c).cursor =
        c.cursor.gotoxy c.cursor.col (c.cursor.row - 1) := by
      rw [scrollIfFull, if_pos full, scrollDown_cursor, hrow]
    have hdrawn : (scrollIfFull surface c).drawn = c.drawn := by
      rw [scrollIfFull, if_pos full, scrollDown_eq]
    have inside : (scrollIfFull surface c).cursor.Inside := by
      rw [hcursor]
      refine ⟨area.col_lt, ?_⟩
      show c.cursor.row - 1 < c.cursor.maxRow
      omega
    refine ⟨⟨inside.1, Nat.le_of_lt inside.2, ?_⟩, inside, ?_⟩
    · rw [hdrawn, hcursor]
      exact area.drawn_lt
    · rw [hcursor]
      show (c.cursor.col = 0 ∧ c.cursor.row - 1 = 0) ↔ (c.cursor.col = 0 ∧ c.cursor.row = 0)
      omega
  · have inside : c.cursor.Inside := by
      refine ⟨area.col_lt, Nat.lt_of_le_of_ne area.row_le ?_⟩
      exact fun h => full h.symm
    rw [scrollIfFull_of_inside inside]
    exact ⟨area, inside, Iff.rfl⟩

/-! ### The backspace -/

/-- What a backspace does once the scroll is done. -/
def backspace (surface : Surface δ) (c : Console δ) : Console δ :=
  (putGlyph surface (scrollIfFull surface (c.moveCursor ConsoleCursor.back)) SPACE).moveCursor
    ConsoleCursor.back

/-- A backspace keeps to the area exactly when it is not in the first cell. -/
theorem backspace_inArea_iff (sized : c.cursor.Sized) (area : c.InArea)
    (inside : c.cursor.Inside) : (backspace surface c).InArea ↔ ¬ c.cursor.Home := by
  constructor
  · -- From the first cell the row wraps, so that the test for a full area does not see it.
    intro area' home
    have hrow := ConsoleCursor.back_of_home home
    have hnot : (c.moveCursor ConsoleCursor.back).cursor.maxRow ≠
        (c.moveCursor ConsoleCursor.back).cursor.row := by
      show c.cursor.back.maxRow ≠ c.cursor.back.row
      rw [hrow, sized.back.2]
      decide
    have mem : (c.cursor.back.col, c.cursor.back.row) ∈ (backspace surface c).drawn := by
      rw [backspace, scrollIfFull, if_neg hnot]
      exact List.mem_append_right _ (List.mem_singleton.mpr rfl)
    have lt := (area'.drawn_lt _ mem).2
    have hmax : (backspace surface c).cursor.maxRow = c.cursor.maxRow := by
      rw [backspace, scrollIfFull, if_neg hnot]
      show c.cursor.back.next.back.maxRow = c.cursor.maxRow
      simp only [ConsoleCursor.back_maxRow, ConsoleCursor.next_maxRow]
    rw [hmax, hrow, sized.2, ConsoleDefault.maxRow] at lt
    omega
  · intro away
    obtain ⟨inside', hnext⟩ := ConsoleCursor.back_inside sized inside away
    have moved : (c.moveCursor ConsoleCursor.back).InArea := by
      refine area.move (ConsoleCursor.back_maxCol _) (ConsoleCursor.back_maxRow _) ?_ ?_
      · simpa using inside'.1
      · simpa using Nat.le_of_lt inside'.2
    rw [backspace, scrollIfFull_of_inside (c := c.moveCursor ConsoleCursor.back) inside']
    refine (moved.putGlyph sized.back inside' SPACE).move ?_ ?_ ?_ ?_
    · exact ConsoleCursor.back_maxCol _
    · exact ConsoleCursor.back_maxRow _
    · show c.cursor.back.next.back.col < c.cursor.back.next.maxCol
      rw [hnext]
      simpa using inside'.1
    · show c.cursor.back.next.back.row ≤ c.cursor.back.next.maxRow
      rw [hnext]
      simpa using Nat.le_of_lt inside'.2

/-! ### Any character -/

theorem not_printable_of_control
    (h : chr = NEW_LINE ∨ chr = TAB ∨ chr = CARRIAGE_RETURN ∨ chr = BACKSPACE) :
    ¬ Printable chr := by
  rcases h with rfl | rfl | rfl | rfl <;> decide

theorem printChar_backspace (surface : Surface δ) (c : Console δ) :
    printChar surface c BACKSPACE = backspace surface (scrollIfFull surface c) := by
  have hnot : ¬ Printable BACKSPACE := by decide
  simp only [printChar, if_neg hnot]
  rfl

theorem printChar_sized (sized : c.cursor.Sized) : (printChar surface c chr).cursor.Sized := by
  have sized' := scrollIfFull_sized surface sized
  simp only [printChar]
  split_ifs
  · exact sized'.next
  · exact sized'
  · exact sized'.next.next.next
  · exact sized'
  · have moved : ((scrollIfFull surface c).moveCursor ConsoleCursor.back).cursor.Sized :=
      sized'.back
    exact (scrollIfFull_sized surface moved).next.back
  · exact sized'

/-- A character keeps to the area exactly when it is no backspace in the first cell. -/
theorem printChar_inArea_iff (sized : c.cursor.Sized) (area : c.InArea) :
    (printChar surface c chr).InArea ↔ ¬ (chr = BACKSPACE ∧ c.cursor.Home) := by
  obtain ⟨area', inside, hhome⟩ := scrollIfFull_spec surface sized area
  have sized' := scrollIfFull_sized surface sized
  by_cases hback : chr = BACKSPACE
  · rw [hback, printChar_backspace, backspace_inArea_iff sized' area' inside, hhome]
    exact ⟨fun away h => away h.2, fun h home => h ⟨rfl, home⟩⟩
  · refine iff_of_true ?_ fun h => hback h.1
    simp only [printChar, if_neg hback]
    split_ifs
    · exact area'.putGlyph sized' inside chr
    · have hrow : u16 ((scrollIfFull surface c).cursor.row + 1) =
          (scrollIfFull surface c).cursor.row + 1 :=
        u16_of_lt (Nat.lt_trans (Nat.succ_le_succ inside.2) sized'.maxRow_lt)
      refine area'.move rfl rfl (Nat.zero_lt_of_lt inside.1) ?_
      show u16 ((scrollIfFull surface c).cursor.row + 1) ≤ (scrollIfFull surface c).cursor.maxRow
      rw [hrow]
      exact inside.2
    · obtain ⟨col, row⟩ := ConsoleCursor.tab_inside sized' inside
      exact area'.move (by simp only [ConsoleCursor.next_maxCol])
        (by simp only [ConsoleCursor.next_maxRow]) col row
    · exact area'.move rfl rfl (Nat.zero_lt_of_lt inside.1) area'.row_le
    · exact area'

/-! ## Calls of `print` -/

/-- What a call of `print` does, one thing after the other. -/
inductive Act
  | char (c : Byte)
  | draw
  deriving Repr, DecidableEq

/-- One thing of a call. -/
def act (surface : Surface δ) (c : Console δ) : Act → Console δ
  | .char chr => printChar surface c chr
  | .draw => draw surface c

def acts (surface : Surface δ) (c : Console δ) (as : List Act) : Console δ :=
  as.foldl (act surface) c

/-- The characters of a call, and the drawing of the framebuffer after them. -/
def Call.acts (call : Call) : List Act := call.chars.map .char ++ [.draw]

theorem acts_append (surface : Surface δ) (c : Console δ) (as bs : List Act) :
    acts surface c (as ++ bs) = acts surface (acts surface c as) bs :=
  List.foldl_append

theorem acts_map_char (surface : Surface δ) (c : Console δ) (chars : List Byte) :
    acts surface c (chars.map .char) = printChars surface c chars :=
  List.foldl_map

theorem print_eq_acts (surface : Surface δ) (c : Console δ) (call : Call) :
    print surface c call = acts surface c call.acts := by
  rw [Call.acts, acts_append, acts_map_char]
  rfl

/-- Some calls do the things of each, one call after the other. -/
theorem prints_eq_acts (surface : Surface δ) (c : Console δ) (calls : List Call) :
    prints surface c calls = acts surface c (calls.flatMap Call.acts) := by
  induction calls generalizing c with
  | nil => rfl
  | cons call calls ih =>
    rw [List.flatMap_cons, acts_append, ← print_eq_acts]
    exact ih (print surface c call)

/-- The thing is a backspace in the first cell. -/
def Leaves (c : Console δ) (a : Act) : Prop := a = .char BACKSPACE ∧ c.cursor.Home

instance (c : Console δ) (a : Act) : Decidable (Leaves c a) := inferInstanceAs (Decidable (_ ∧ _))

theorem acts_sized (surface : Surface δ) (sized : c.cursor.Sized) (as : List Act) :
    (acts surface c as).cursor.Sized := by
  induction as generalizing c with
  | nil => exact sized
  | cons a as ih =>
    cases a with
    | char chr => exact ih (c := printChar surface c chr) (printChar_sized sized)
    | draw => exact ih (c := draw surface c) sized

/-- One thing more keeps to the area exactly when it does not leave it. -/
theorem act_inArea_iff {a : Act} (sized : c.cursor.Sized) (area : c.InArea) :
    (act surface c a).InArea ↔ ¬ Leaves c a := by
  cases a with
  | char chr =>
    rw [act, printChar_inArea_iff sized area, Leaves, Act.char.injEq]
  | draw =>
    refine iff_of_true ?_ fun h => nomatch h.1
    exact ⟨area.col_lt, area.row_le, area.drawn_lt⟩

/-- In the calls of `print` after a `clear`, whatever framebuffer they are drawn on, the cursor and
the glyphs keep to the text area after every character exactly when no character is a backspace
in the first cell. -/
theorem inArea_iff (surface : Surface δ) (c : Console δ) (calls : List Call) :
    (∀ pre post, calls.flatMap Call.acts = pre ++ post →
      (acts surface (clear surface c) pre).InArea) ↔
    ∀ pre a post, calls.flatMap Call.acts = pre ++ a :: post →
      ¬ Leaves (acts surface (clear surface c) pre) a := by
  refine history_iff (clear_inArea surface c) ?_ _
  intro pre a area
  rw [acts_append]
  exact act_inArea_iff (acts_sized surface ConsoleCursor.sized_reset pre) area

/-- A backspace right after the `clear`, as a call of the keyboard handler, leaves it. -/
theorem backspace_leaves_area :
    [Call.chr BACKSPACE].flatMap Call.acts = [.char BACKSPACE] ++ [.draw] ∧
      ∀ (δ : Type) (surface : Surface δ) (c : Console δ),
        ¬ (acts surface (clear surface c) [.char BACKSPACE]).InArea := by
  refine ⟨rfl, ?_⟩
  intro δ surface c area
  have sized : (clear surface c).cursor.Sized := ConsoleCursor.sized_reset
  have home : (clear surface c).cursor.Home := ⟨rfl, rfl⟩
  have stays := (act_inArea_iff (a := .char BACKSPACE) sized (clear_inArea surface c)).mp area
  exact stays ⟨rfl, home⟩

end Console

end PrintOS
