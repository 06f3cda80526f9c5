import Mathlib.Data.List.TakeWhile
import PrintOS.Laws.Console.Console

/-!
# What the screen shows

The framebuffer at the level of character cells (`Cells`): a glyph fills one cell, a scroll moves
every row up by one. A text is cut into lines at each newline and after the last column of a line
(`linesOf`). After a `clear`, printing a text leaves its last lines on the screen, whatever calls it
is printed by.

The console wraps a line at once but scrolls only when the next character comes, so a text that ends
with a line break has a last line that is not yet on the screen. `Shows` says what the screen and
the cursor are for the lines before the last one, the last one, and the number of lines that went
off the top; only that number differs before and after the scroll.
-/

namespace PrintOS

open ByteMemory (Byte)

/-! ## Lines of a text -/

section Lines

variable (width : Nat)

/-- The lines of a text that goes on a line with `cur` already on it. -/
def linesFrom (cur : List Byte) : List Byte → List (List Byte)
  | [] => [cur]
  | chr :: s =>
    if chr = Console.NEW_LINE then cur :: linesFrom [] s
    else if cur.length + 1 = width then (cur ++ [chr]) :: linesFrom [] s
    else linesFrom (cur ++ [chr]) s

/-- The lines of a text. A new line starts after each newline and after each character in the last
column. -/
def linesOf (s : List Byte) : List (List Byte) := linesFrom width [] s

variable {width}

theorem linesFrom_ne_nil (cur s : List Byte) : linesFrom width cur s ≠ [] := by
  induction s generalizing cur with
  | nil => exact List.cons_ne_nil _ _
  | cons chr s ih =>
    rw [linesFrom]
    split_ifs
    · exact List.cons_ne_nil _ _
    · exact List.cons_ne_nil _ _
    · exact ih _

/-- The text after a text goes on with its last line. -/
theorem linesFrom_append {s : List Byte} (t : List Byte) {cur last : List Byte}
    {done : List (List Byte)} (h : linesFrom width cur s = done ++ [last]) :
    linesFrom width cur (s ++ t) = done ++ linesFrom width last t := by
  induction s generalizing cur done with
  | nil =>
    have hsingle : [] ++ [cur] = done ++ [last] := h
    obtain ⟨rfl, hlast⟩ := List.append_inj' hsingle rfl
    obtain rfl : cur = last := List.singleton_inj.mp hlast
    rfl
  | cons chr s ih =>
    -- Where a line ends, it is not the last one: the rest of the text has at least one more.
    have tail : ∀ line, line :: linesFrom width [] s = done ++ [last] →
        line :: linesFrom width [] (s ++ t) = done ++ linesFrom width last t := by
      intro line h
      cases done with
      | nil => exact absurd (List.cons.inj h).2 (linesFrom_ne_nil [] s)
      | cons line' done =>
        obtain ⟨rfl, rest⟩ := List.cons.inj h
        rw [ih rest]
        rfl
    rw [linesFrom] at h
    rw [List.cons_append, linesFrom]
    split_ifs at h ⊢
    · exact tail cur h
    · exact tail (cur ++ [chr]) h
    · exact ih h

/-- The line that an empty line at the end of a text leaves out. -/
def trimmed (lines : List (List Byte)) : List (List Byte) :=
  if lines.getLast? = some [] then lines.dropLast else lines

end Lines

/-! ## The cells of a text -/

/-- The character of a text in a row and a column, if it has one there. -/
def cell (lines : List (List Byte)) (row col : Nat) : Option Byte :=
  lines[row]?.bind fun text => text[col]?

theorem cell_drop (lines : List (List Byte)) (k row col : Nat) :
    cell (lines.drop k) row col = cell lines (k + row) col := by
  rw [cell, List.getElem?_drop]
  rfl

/-- There is nothing after the end of a list with one thing more. -/
theorem getElem?_concat_of_lt {α : Type} {xs : List α} {x : α} {i : Nat} (h : xs.length < i) :
    (xs ++ [x])[i]? = none := by
  apply List.getElem?_eq_none
  rw [List.length_append]
  exact h

/-- An empty line more has no character. -/
theorem cell_append_nil (lines : List (List Byte)) (row col : Nat) :
    cell (lines ++ [[]]) row col = cell lines row col := by
  unfold cell
  rcases Nat.lt_trichotomy row lines.length with h | h | h
  · rw [List.getElem?_append_left h]
  · rw [h, List.getElem?_concat_length, List.getElem?_eq_none (Nat.le_refl lines.length)]
    rfl
  · rw [List.getElem?_eq_none (Nat.le_of_lt h), getElem?_concat_of_lt h]

/-- A character more on the last line. -/
theorem cell_append_char (done : List (List Byte)) (cur : List Byte) (chr : Byte)
    (row col : Nat) :
    cell (done ++ [cur ++ [chr]]) row col =
      if row = done.length ∧ col = cur.length then some chr else cell (done ++ [cur]) row col := by
  unfold cell
  rcases Nat.lt_trichotomy row done.length with h | h | h
  · rw [if_neg (by omega), List.getElem?_append_left h, List.getElem?_append_left h]
  · rw [h, List.getElem?_concat_length, List.getElem?_concat_length]
    show (cur ++ [chr])[col]? =
      if done.length = done.length ∧ col = cur.length then some chr else cur[col]?
    rcases Nat.lt_trichotomy col cur.length with h' | h' | h'
    · rw [if_neg (by omega), List.getElem?_append_left h']
    · rw [if_pos ⟨rfl, h'⟩, h', List.getElem?_concat_length]
    · rw [if_neg (by omega), getElem?_concat_of_lt h',
        List.getElem?_eq_none (Nat.le_of_lt h')]
  · rw [if_neg (by omega), getElem?_concat_of_lt h, getElem?_concat_of_lt h]

theorem cell_of_ge {lines : List (List Byte)} {row : Nat} (h : lines.length ≤ row) (col : Nat) :
    cell lines row col = none := by
  rw [cell, List.getElem?_eq_none h]
  rfl

/-! ## The framebuffer as cells -/

/-- The framebuffer at the level of character cells: what was drawn to, and what is on the
screen. -/
structure Cells where
  back : Nat → Nat → Option Byte
  front : Nat → Nat → Option Byte

namespace Cells

/-- What the console does to the cells. -/
def surface : Surface Cells where
  setAllPixels s _ := { s with back := fun _ _ => none }
  printGlyph s cursor chr :=
    { s with
      back := fun row col =>
        if row = cursor.row ∧ col = cursor.col then some chr else s.back row col }
  moveUp s := { s with back := fun row col => s.back (row + 1) col }
  blankLine s line :=
    { s with back := fun row col => if row = line then none else s.back row col }
  draw s := { s with front := s.back }

end Cells

namespace Console

open Cells (surface)

variable {c : Console Cells} {done : List (List Byte)} {cur : List Byte} {k : Nat} {chr : Byte}

/-- The console shows the lines `done` and after them `cur`, where the cursor is, of which the
first `k` went off the top. -/
structure Shows (c : Console Cells) (done : List (List Byte)) (cur : List Byte) (k : Nat) :
    Prop where
  sized : c.cursor.Sized
  hidden_le : k ≤ done.length
  row : c.cursor.row = done.length - k
  col : c.cursor.col = cur.length
  short : cur.length < ConsoleDefault.maxCol
  back : ∀ row col, c.screen.back row col = cell (done ++ [cur]) (k + row) col

/-- The number of lines off the top between two characters, when an empty last line does not yet
count. -/
def hidden (done : List (List Byte)) (cur : List Byte) : Nat :=
  (if cur = [] then done.length else done.length + 1) - ConsoleDefault.maxRow

/-- What a scroll does to the cells: every row moves up, and the last one is blank. -/
theorem scrollDown_back (c : Console Cells) (row col : Nat) :
    (scrollDown surface c).screen.back row col =
      if row = sub16 c.cursor.maxRow 1 then none else c.screen.back (row + 1) col := by
  rw [scrollDown_eq]
  rfl

/-- The scroll makes room for the last line. -/
theorem Shows.scrollIfFull (shows : Shows c done cur (hidden done cur)) :
    Shows (scrollIfFull surface c) done cur (done.length + 1 - ConsoleDefault.maxRow) := by
  have hrow := shows.row
  have hmax : c.cursor.maxRow = 37 := shows.sized.2
  rw [hidden] at shows hrow
  rw [show ConsoleDefault.maxRow = 37 from rfl] at shows hrow ⊢
  by_cases full : c.cursor.maxRow = c.cursor.row
  · -- Only an empty last line can be below the area.
    have hempty : cur = [] := by
      by_contra hne
      rw [if_neg hne] at hrow
      omega
    rw [if_pos hempty] at shows hrow
    have hk : done.length + 1 - 37 = done.length - 37 + 1 := by omega
    rw [Console.scrollIfFull, if_pos full, hk]
    constructor
    · rw [scrollDown_cursor]
      exact shows.sized.gotoxy _ _
    · omega
    · have hsub : sub16 c.cursor.row 1 = c.cursor.row - 1 := sub16_of_le (by omega) (by omega)
      rw [scrollDown_cursor, ConsoleCursor.gotoxy_row, hsub]
      omega
    · rw [scrollDown_cursor, ConsoleCursor.gotoxy_col]
      exact shows.col
    · exact shows.short
    · intro row col
      have hlast : sub16 c.cursor.maxRow 1 = 36 := by
        rw [hmax]
        rfl
      rw [scrollDown_back, hlast]
      split_ifs with h
      · rw [hempty, cell_append_nil, cell_of_ge (by omega)]
      · rw [shows.back, show done.length - 37 + (row + 1) = done.length - 37 + 1 + row by omega]
  · have hk : (if cur = [] then done.length else done.length + 1) - 37 = done.length + 1 - 37 := by
      split_ifs at hrow ⊢ <;> omega
    rw [Console.scrollIfFull, if_neg full, ← hk]
    exact shows

/-- A glyph on the last line, which stays on it or ends it. -/
theorem Shows.putGlyph
    (shows : Shows c done cur (done.length + 1 - ConsoleDefault.maxRow)) (chr : Byte) :
    if cur.length + 1 = ConsoleDefault.maxCol then
      Shows (putGlyph surface c chr) (done ++ [cur ++ [chr]]) []
        (done.length + 1 - ConsoleDefault.maxRow)
    else
      Shows (putGlyph surface c chr) done (cur ++ [chr])
        (done.length + 1 - ConsoleDefault.maxRow) := by
  have hback : ∀ row col, (Console.putGlyph surface c chr).screen.back row col =
      cell (done ++ [cur ++ [chr]]) (done.length + 1 - ConsoleDefault.maxRow + row) col := by
    intro row col
    show (if row = c.cursor.row ∧ col = c.cursor.col then some chr else c.screen.back row col) = _
    rw [cell_append_char, shows.back, shows.row, shows.col]
    have := shows.hidden_le
    congr 1
    rw [eq_iff_iff]
    omega
  have hmaxCol : c.cursor.maxCol = ConsoleDefault.maxCol := shows.sized.1
  have hmaxRow : c.cursor.maxRow = ConsoleDefault.maxRow := shows.sized.2
  have hrow := shows.row
  have hcol := shows.col
  have hle := shows.hidden_le
  have hpos : 0 < ConsoleDefault.maxRow := by decide
  split_ifs with wrap
  · have hnext := ConsoleCursor.next_of_ge shows.sized (by omega) (by omega)
    refine ⟨shows.sized.next, ?_, ?_, ?_, by decide, ?_⟩
    · rw [List.length_append]
      omega
    · show c.cursor.next.row = _
      rw [hnext, List.length_append]
      show c.cursor.row + 1 = done.length + 1 - _
      omega
    · show c.cursor.next.col = _
      rw [hnext]
      rfl
    · intro row col
      rw [cell_append_nil]
      exact hback row col
  · have hshort := shows.short
    have hnext := ConsoleCursor.next_of_lt shows.sized (by omega)
    refine ⟨shows.sized.next, hle, ?_, ?_, ?_, hback⟩
    · show c.cursor.next.row = _
      rw [hnext]
      exact hrow
    · show c.cursor.next.col = _
      rw [hnext, List.length_append]
      show c.cursor.col + 1 = cur.length + 1
      omega
    · rw [List.length_append]
      show cur.length + 1 < ConsoleDefault.maxCol
      omega

/-- A newline ends the last line. -/
theorem Shows.newLine
    (shows : Shows c done cur (done.length + 1 - ConsoleDefault.maxRow)) :
    Shows (c.moveCursor fun cursor => cursor.lf.cr) (done ++ [cur]) []
      (done.length + 1 - ConsoleDefault.maxRow) := by
  have hle := shows.hidden_le
  have hrow := shows.row
  have hmaxRow : c.cursor.maxRow = ConsoleDefault.maxRow := shows.sized.2
  have hpos : 0 < ConsoleDefault.maxRow := by decide
  have hlt := shows.sized.maxRow_lt
  refine ⟨shows.sized, ?_, ?_, rfl, by decide, ?_⟩
  · rw [List.length_append]
    omega
  · have hu16 : u16 (c.cursor.row + 1) = c.cursor.row + 1 := u16_of_lt (by omega)
    show u16 (c.cursor.row + 1) = _
    rw [hu16, List.length_append]
    show c.cursor.row + 1 = done.length + 1 - _
    omega
  · intro row col
    rw [cell_append_nil]
    exact shows.back row col

/-! ## A text -/

/-- A character of a text: it has a glyph or ends a line. -/
def Text (chr : Byte) : Prop := Printable chr ∨ chr = NEW_LINE

instance (chr : Byte) : Decidable (Text chr) := inferInstanceAs (Decidable (_ ∨ _))

/-- The console shows the lines of a text. -/
def ShowsText (c : Console Cells) (s : List Byte) : Prop :=
  ∃ done cur, linesOf ConsoleDefault.maxCol s = done ++ [cur] ∧
    Shows c done cur (hidden done cur)

theorem clear_showsText (c : Console Cells) : ShowsText (clear surface c) [] := by
  refine ⟨[], [], rfl, ConsoleCursor.sized_reset, Nat.zero_le _, rfl, rfl, by decide, ?_⟩
  intro row col
  rw [cell_append_nil, cell_of_ge (Nat.zero_le _)]
  rfl

theorem Text.ne_zero (text : Text chr) : chr ≠ 0 := by
  rintro rfl
  revert text
  decide

/-- One character more. -/
theorem ShowsText.printChar {s : List Byte} (shows : ShowsText c s) (text : Text chr) :
    ShowsText (printChar surface c chr) (s ++ [chr]) := by
  obtain ⟨done, cur, hlines, shows⟩ := shows
  have ready := shows.scrollIfFull
  have hlines' : linesOf ConsoleDefault.maxCol (s ++ [chr]) =
      done ++ linesFrom ConsoleDefault.maxCol cur [chr] := linesFrom_append [chr] hlines
  have hended : ∀ line : List Byte,
      hidden (done ++ [line]) [] = done.length + 1 - ConsoleDefault.maxRow := by
    intro line
    rw [hidden, if_pos rfl, List.length_append]
    rfl
  by_cases hnew : chr = NEW_LINE
  · have hnot : ¬ Printable chr := not_printable_of_control (.inl hnew)
    refine ⟨done ++ [cur], [], ?_, ?_⟩
    · rw [hlines', linesFrom, if_pos hnew, List.append_assoc]
      rfl
    · rw [Console.printChar, if_neg hnot, if_pos hnew, hended cur]
      exact ready.newLine
  · have hprint : Printable chr := text.resolve_right hnew
    have put := ready.putGlyph chr
    rw [Console.printChar, if_pos hprint]
    split_ifs at put with wrap
    · refine ⟨done ++ [cur ++ [chr]], [], ?_, ?_⟩
      · rw [hlines', linesFrom, if_neg hnew, if_pos wrap, List.append_assoc]
        rfl
      · rw [hended (cur ++ [chr])]
        exact put
    · refine ⟨done, cur ++ [chr], ?_, ?_⟩
      · rw [hlines', linesFrom, if_neg hnew, if_neg wrap]
        rfl
      · rw [hidden, if_neg (List.append_ne_nil_of_right_ne_nil _ (List.cons_ne_nil _ _))]
        exact put

theorem ShowsText.printChars {s : List Byte} (shows : ShowsText c s) {chars : List Byte}
    (text : ∀ chr ∈ chars, Text chr) : ShowsText (printChars surface c chars) (s ++ chars) := by
  induction chars generalizing c s with
  | nil =>
    rw [List.append_nil]
    exact shows
  | cons chr chars ih =>
    rw [List.append_cons]
    exact ih (shows.printChar (text chr List.mem_cons_self))
      fun chr mem => text chr (List.mem_cons_of_mem _ mem)

/-! ## The calls that print a text -/

/-- What a call is given to print. -/
def Call.text : Call → List Byte
  | .chr c => [c]
  | .str s => s

/-- A text has no null, so that a call prints all of it. -/
theorem Call.chars_eq_text {call : Call} (text : ∀ chr ∈ call.text, Text chr) :
    call.chars = call.text := by
  cases call with
  | chr c => rfl
  | str s =>
    rw [Call.chars, Call.text, List.takeWhile_eq_self_iff]
    intro chr mem
    simpa using (text chr mem).ne_zero

/-- One call more, which leaves on the screen what it drew. -/
theorem ShowsText.print {s : List Byte} (shows : ShowsText c s) {call : Call}
    (text : ∀ chr ∈ call.text, Text chr) : ShowsText (print surface c call) (s ++ call.text) := by
  obtain ⟨done, cur, hlines, shows'⟩ := shows.printChars text
  rw [Console.print, Call.chars_eq_text text]
  exact ⟨done, cur, hlines, shows'.sized, shows'.hidden_le, shows'.row, shows'.col, shows'.short,
    shows'.back⟩

theorem ShowsText.prints {s : List Byte} (shows : ShowsText c s)
    (drawn : c.screen.front = c.screen.back) {calls : List Call}
    (text : ∀ chr ∈ calls.flatMap Call.text, Text chr) :
    ShowsText (prints surface c calls) (s ++ calls.flatMap Call.text) ∧
      (prints surface c calls).screen.front = (prints surface c calls).screen.back := by
  induction calls generalizing c s with
  | nil =>
    rw [List.flatMap_nil, List.append_nil]
    exact ⟨shows, drawn⟩
  | cons call calls ih =>
    rw [List.flatMap_cons] at text ⊢
    rw [← List.append_assoc]
    exact ih (shows.print fun chr mem => text chr (List.mem_append_left _ mem)) rfl
      fun chr mem => text chr (List.mem_append_right _ mem)

/-- The lines of a text that are or were on the screen. -/
def shownLines (s : List Byte) : List (List Byte) := trimmed (linesOf ConsoleDefault.maxCol s)

/-- The number of them that went off the top. -/
def offTop (s : List Byte) : Nat := (shownLines s).length - ConsoleDefault.maxRow

/-- What `Shows` says of a text, in terms of the text alone. -/
theorem ShowsText.eq {s : List Byte} (shows : ShowsText c s) :
    (∀ row col, c.screen.back row col = cell ((shownLines s).drop (offTop s)) row col) ∧
      c.cursor.row = (linesOf ConsoleDefault.maxCol s).length - 1 - offTop s ∧
      c.cursor.col = ((linesOf ConsoleDefault.maxCol s).getLast?.getD []).length := by
  obtain ⟨done, cur, hlines, shows⟩ := shows
  have hshown : shownLines s = if cur = [] then done else done ++ [cur] := by
    rw [shownLines, trimmed, hlines, List.getLast?_concat, List.dropLast_concat]
    simp only [Option.some_inj]
  have hoff : offTop s = hidden done cur := by
    rw [offTop, hshown, hidden]
    split_ifs
    · rfl
    · rw [List.length_append]
      rfl
  refine ⟨?_, ?_, ?_⟩
  · intro row col
    rw [shows.back, cell_drop, hshown, hoff]
    split_ifs with hempty
    · rw [hempty, cell_append_nil]
    · rfl
  · rw [hlines, List.length_append, hoff]
    exact shows.row
  · rw [hlines, List.getLast?_concat]
    exact shows.col

/-- After a `clear`, calls of `print` that print a text `s` between them leave on the screen the
last lines of it, as many as there are rows, and the cursor after its last character. -/
theorem prints_show_last_lines (c : Console Cells) (s : List Byte) (text : ∀ chr ∈ s, Text chr)
    (calls : List Call) (parts : calls.flatMap Call.text = s) :
    (∀ row col, (prints surface (clear surface c) calls).screen.front row col =
      cell ((shownLines s).drop (offTop s)) row col) ∧
    (prints surface (clear surface c) calls).cursor.row =
      (linesOf ConsoleDefault.maxCol s).length - 1 - offTop s ∧
    (prints surface (clear surface c) calls).cursor.col =
      ((linesOf ConsoleDefault.maxCol s).getLast?.getD []).length := by
  subst parts
  obtain ⟨shows, drawn⟩ := (clear_showsText c).prints rfl text
  rw [drawn]
  exact shows.eq

/-- A console before anything was printed. -/
def unused : Console Cells where
  cursor := .reset
  screen := ⟨fun _ _ => none, fun _ _ => none⟩
  drawn := []

/-- A line in one call and its newline in another: the line is on the screen, and the cursor below
it. -/
theorem line_then_newline_shown :
    (∀ row col,
      (prints surface (clear surface unused) [.str [0x41], .chr NEW_LINE]).screen.front row col =
        cell [[0x41]] row col) ∧
      (prints surface (clear surface unused) [.str [0x41], .chr NEW_LINE]).cursor.row = 1 ∧
      (prints surface (clear surface unused) [.str [0x41], .chr NEW_LINE]).cursor.col = 0 :=
  prints_show_last_lines unused [0x41, NEW_LINE] (by decide) _ rfl

end Console

end PrintOS
