import Pebbles.Screen

/-!
# The screen shows the end of an endless sheet

A terminal without scrolling writes on a sheet that has no last row. The console shows
the rows of the sheet from `top` on: it moves down with the cursor and never up again,
and a backspace at its upper left corner goes to the end of that row.
-/

namespace Pebbles

open Words

namespace Console

/-! ## The rest of console.c -/

def setTermColor (color : Word) (c : Console) : Int × Console :=
  if isValidColor color = -1 then (ERR_INVAL, c) else (0, { c with consoleColor := color.setWidth 8 })

def getTermColor (c : Console) : Byte := c.consoleColor

def hideCursor (c : Console) : Console := c.setHardwareCursor (CONSOLE_HEIGHT + 1) (CONSOLE_WIDTH + 1)

def showCursor (c : Console) : Console := c.setHardwareCursor c.cursorRow c.cursorCol

def getChar (row col : Int) (c : Console) : Byte :=
  if row < 0 ∨ row ≥ CONSOLE_HEIGHT ∨ col < 0 ∨ col ≥ CONSOLE_WIDTH then 0#8
  else c.mem (2 * (row * CONSOLE_WIDTH + col))

def getColor (row col : Int) (c : Console) : Byte :=
  if row < 0 ∨ row ≥ CONSOLE_HEIGHT ∨ col < 0 ∨ col ≥ CONSOLE_WIDTH then 0#8
  else c.mem (2 * (row * CONSOLE_WIDTH + col) + 1)

def getCursor (c : Console) : Int × Int := (c.cursorRow, c.cursorCol)

inductive Op where
  | call (call : Call)
  | setTermColor (color : Word)
  | hideCursor
  | showCursor

def perform (c : Console) : Op → Console
  | .call call => c.exec call
  | .setTermColor color => (c.setTermColor color).2
  | .hideCursor => c.hideCursor
  | .showCursor => c.showCursor

/-! ## The sheet -/

def blank : Byte × Byte := (32#8, DEFAULT_COLOR)

structure Sheet where
  top : Int
  row : Int
  col : Int
  color : Byte
  cell : Int → Int → Byte × Byte

namespace Sheet

def write (ch color : Byte) (row col : Int) (p : Sheet) : Sheet :=
  { p with cell := fun i j => if i = row ∧ j = col then (ch, color) else p.cell i j }

/-- The window follows the cursor down. -/
def moveTo (row col : Int) (p : Sheet) : Sheet :=
  { p with row := row, col := col, top := max p.top (row - CONSOLE_HEIGHT + 1) }

def back (p : Sheet) : Sheet :=
  if p.col = 0 then { p with row := max p.top (p.row - 1), col := CONSOLE_WIDTH - 1 } else { p with col := p.col - 1 }

def print (ch : Byte) (p : Sheet) : Sheet := p.write ch p.color p.row p.col

def type (ch : Byte) (p : Sheet) : Sheet := { p.print ch with col := p.col + 1 }

def putbyte (p : Sheet) (ch : Byte) : Sheet :=
  if ch = 8#8 then p.back.print 32#8
  else if ch = 10#8 then p.moveTo (p.row + 1) 0
  else if ch = 13#8 then p.moveTo p.row 0
  else if p.col = CONSOLE_WIDTH then (p.moveTo (p.row + 1) 0).type ch
  else p.type ch

/-- A position of the screen. -/
def OnScreen (row col : Int) : Prop := InRows row ∧ InCols col

instance (row col : Int) : Decidable (OnScreen row col) :=
  inferInstanceAs (Decidable ((_ ∧ _) ∧ _ ∧ _))

def setCursor (row col : Int) (p : Sheet) : Sheet :=
  if OnScreen row col then { p with row := p.top + row, col := col } else p

def clear (p : Sheet) : Sheet := { p with cell := fun i j => if i < p.top then p.cell i j else blank }

def drawChar (row col : Int) (ch color : Byte) (p : Sheet) : Sheet :=
  if OnScreen row col ∧ ch ≠ 10#8 ∧ ch ≠ 13#8 then p.write ch color (p.top + row) col else p

def exec (p : Sheet) : Call → Sheet
  | .putbyte ch => p.putbyte ch
  | .putbytes none _ => p
  | .putbytes (some s) len => (List.range len.toNat).foldl (fun p i => p.putbyte (s i)) p
  | .setCursor row col => p.setCursor row col
  | .clearConsole => p.clear.setCursor 0 0
  | .drawChar row col ch color => p.drawChar row col (ch.setWidth 8) (color.setWidth 8)

def perform (p : Sheet) : Op → Sheet
  | .call call => p.exec call
  | .setTermColor color => { p with color := color.setWidth 8 }
  | .hideCursor | .showCursor => p

/-- The first rows are what the screen happens to show. -/
def boot (mem : Int → Byte) : Sheet where
  top := 0
  row := 0
  col := 0
  color := DEFAULT_COLOR
  cell i j := if i < CONSOLE_HEIGHT then (Console.boot mem).cell i j else blank

end Sheet

/-- The screen shows the rows of the sheet from `top` on, and below them the sheet is
blank. -/
structure Shows (p : Sheet) (c : Console) : Prop where
  color : c.consoleColor = p.color
  empty : c.emptyChar = blank
  row : c.cursorRow = p.row - p.top
  col : c.cursorCol = p.col
  inside : InRows c.cursorRow ∧ 0 ≤ c.cursorCol ∧ c.cursorCol ≤ CONSOLE_WIDTH
  cells : ∀ i j, InRows i → InCols j → c.cell i j = p.cell (p.top + i) j
  below : ∀ i j, p.top + CONSOLE_HEIGHT ≤ i → p.cell i j = blank

section
variable {p : Sheet} {c : Console} {ch color : Byte} {row col : Int}

theorem isValidColor_ne (color : Word) : isValidColor color ≠ -1 := by
  unfold isValidColor
  dsimp only
  split <;> decide

/-! ## The operations -/

theorem Shows.setLogicalCursor (h : Shows p c) {r : Int} (hrow : row = r - p.top) (hr : InRows row)
    (hc : 0 ≤ col ∧ col ≤ CONSOLE_WIDTH) : Shows { p with row := r, col := col } (c.setLogicalCursor row col) := by
  have hrow' : (c.setLogicalCursor row col).cursorRow = row := setLogicalCursor_row.trans (max_eq_right hr.1)
  have hcol' : (c.setLogicalCursor row col).cursorCol = col := setLogicalCursor_col.trans (max_eq_right hc.1)
  exact ⟨h.color, h.empty, hrow'.trans hrow, hcol', by rw [hrow', hcol']; exact ⟨hr, hc⟩, h.cells, h.below⟩

theorem Shows.printChar (h : Shows p c) (hch : ch ≠ 10#8 ∧ ch ≠ 13#8) (hr : InRows row) (hc : InCols col) :
    Shows (p.write ch color (p.top + row) col) (c.printChar ch row col color) where
  color := printChar_color.trans h.color
  empty := printChar_empty.trans h.empty
  row := printChar_row.trans h.row
  col := printChar_col.trans h.col
  inside := by
    rw [printChar_row, printChar_col]
    exact h.inside
  cells i j hi hj := by
    rw [printChar_cell hch hc hj, h.cells i j hi hj]
    simp only [Sheet.write, add_right_inj]
  below i j hi := by
    have hne : i ≠ p.top + row := by
      have := hr.2
      dsimp only [Sheet.write] at hi
      omega
    simp only [Sheet.write, hne, false_and, if_false]
    exact h.below i j hi

theorem Shows.scroll (h : Shows p c) : Shows { p with top := p.top + 1, row := p.row + 1 } (c.scrollScreen 1) where
  color := scrollScreen_color.trans h.color
  empty := scrollScreen_empty.trans h.empty
  row := by
    rw [scrollScreen_row, h.row]
    exact (add_sub_add_right_eq_sub ..).symm
  col := scrollScreen_col.trans h.col
  inside := by
    rw [scrollScreen_row, scrollScreen_col]
    exact h.inside
  cells i j hi hj := by
    rw [scrollScreen_cell one_pos (by decide) hi hj, add_right_comm, add_assoc]
    split_ifs with hlt
    · exact h.cells (i + 1) j ⟨by unfold InRows at hi; omega, hlt⟩ hj
    · -- the new last row comes from below the window
      rw [h.empty]
      exact (h.below _ j (by omega)).symm
  below i j hi := h.below i j (by dsimp only at hi; omega)

/-- The cursor moves in its row, or to the next one, which may scroll the screen. -/
theorem Shows.moveTo (h : Shows p c) {d : Int} (hd : d = 0 ∨ d = 1) :
    Shows (p.moveTo (p.row + d) 0) (c.setLogicalCursor (c.cursorRow + d) 0).scrollIfBelow := by
  obtain ⟨⟨hr₀, hr₁⟩, -⟩ := h.inside
  have hrow := h.row
  have hzero : (0 : Int) ≤ 0 ∧ 0 ≤ CONSOLE_WIDTH := by decide
  have hmax : max 0 (c.cursorRow + d) = c.cursorRow + d := by omega
  unfold scrollIfBelow Sheet.moveTo
  rw [setLogicalCursor_row, hmax]
  by_cases hlast : c.cursorRow + d = CONSOLE_HEIGHT
  · have htop : max p.top (p.row + d - CONSOLE_HEIGHT + 1) = p.top + 1 := by omega
    rw [if_pos hlast, htop]
    dsimp only
    rw [scrollScreen_row, scrollScreen_col, setLogicalCursor_row, setLogicalCursor_col, setLogicalCursor_scroll, hmax,
      max_self]
    exact h.scroll.setLogicalCursor (by dsimp only; omega) ⟨by omega, by omega⟩ hzero
  · have htop : max p.top (p.row + d - CONSOLE_HEIGHT + 1) = p.top := by omega
    rw [if_neg hlast, htop]
    exact h.setLogicalCursor (by omega) ⟨by omega, by omega⟩ hzero

theorem Shows.print (h : Shows p c) (hch : ch ≠ 10#8 ∧ ch ≠ 13#8) (hc : c.cursorCol < CONSOLE_WIDTH) :
    Shows (p.print ch) (c.printChar ch c.cursorRow c.cursorCol c.consoleColor) := by
  obtain ⟨hr, hc₀, -⟩ := h.inside
  have hrow : p.top + c.cursorRow = p.row := by
    rw [h.row]
    omega
  unfold Sheet.print
  rw [← hrow, ← h.color, ← h.col]
  exact h.printChar hch hr ⟨hc₀, hc⟩

theorem Shows.back (h : Shows p c) : Shows p.back c.stepBack ∧ c.stepBack.cursorCol < CONSOLE_WIDTH := by
  obtain ⟨⟨hr₀, hr₁⟩, hc₀, hc₁⟩ := h.inside
  have hrow := h.row
  unfold stepBack Sheet.back
  rw [← h.col]
  by_cases hz : c.cursorCol = 0
  · rw [if_pos hz, if_pos hz]
    have hneg : c.setLogicalCursor (c.cursorRow - 1) (CONSOLE_WIDTH - 1) =
        c.setLogicalCursor (max 0 (c.cursorRow - 1)) (CONSOLE_WIDTH - 1) := by
      unfold Console.setLogicalCursor
      split_ifs <;> simp <;> omega
    rw [hneg]
    refine ⟨h.setLogicalCursor (by omega) ⟨by omega, by omega⟩ (by decide), ?_⟩
    rw [setLogicalCursor_col]
    decide
  · rw [if_neg hz, if_neg hz, setLogicalCursor_col]
    exact ⟨h.setLogicalCursor h.row ⟨hr₀, hr₁⟩ (by omega), by omega⟩

theorem printChar_control (h : ch = 10#8 ∨ ch = 13#8) : c.printChar ch row col color = c := if_pos h

theorem Shows.type (h : Shows p c) (hch : Printable ch) (hc : c.cursorCol < CONSOLE_WIDTH) :
    Shows (p.type ch)
      ((c.printChar ch c.cursorRow c.cursorCol c.consoleColor).setLogicalCursor c.cursorRow (c.cursorCol + 1)) := by
  obtain ⟨hr, hc₀, -⟩ := h.inside
  unfold Sheet.type
  rw [← h.col]
  exact (h.print ⟨hch.1, hch.2.1⟩ hc).setLogicalCursor h.row hr (by omega)

theorem Shows.putbyte (h : Shows p c) (ch : Byte) : Shows (p.putbyte ch) (c.putbyte ch) := by
  obtain ⟨⟨hr₀, hr₁⟩, hc₀, hc₁⟩ := h.inside
  unfold Console.putbyte Sheet.putbyte
  by_cases h8 : ch = 8#8
  · rw [if_pos h8, if_pos h8]
    obtain ⟨hb, hc⟩ := h.back
    exact hb.print (by decide) hc
  rw [if_neg h8, if_neg h8]
  dsimp only
  by_cases h10 : ch = 10#8
  · have hm := h.moveTo (.inr rfl)
    rw [if_pos h10, printChar_control (.inl h10), if_neg (by simp [h10]), advance, if_pos h10]
    exact hm
  rw [if_neg h10]
  by_cases h13 : ch = 13#8
  · have hm := h.moveTo (.inl rfl)
    rw [add_zero, add_zero] at hm
    rw [if_pos h13, printChar_control (.inr h13), if_neg (by simp [h13]), advance, if_neg h10, if_pos h13]
    exact hm
  have hch : Printable ch := ⟨h10, h13, h8⟩
  rw [if_neg h13, if_pos (show ch ≠ 10#8 ∧ ch ≠ 13#8 ∧ ch ≠ 8#8 from hch), advance, if_neg h10, if_neg h13, ← h.col,
    printChar_row, printChar_col]
  by_cases hw : c.cursorCol = CONSOLE_WIDTH
  · rw [if_pos hw, if_pos hw]
    have hm := h.moveTo (.inr rfl)
    exact hm.type hch (hm.col.trans_lt (show (0 : Int) < CONSOLE_WIDTH by decide))
  · have hs : c.scrollIfBelow = c := if_neg hr₁.ne
    rw [if_neg hw, if_neg hw, hs]
    exact h.type hch (by omega)

theorem Shows.setCursor (h : Shows p c) (row col : Int) :
    Shows (p.setCursor row col) (c.setCursor row col).2 := by
  unfold Console.setCursor Sheet.setCursor
  by_cases hon : Sheet.OnScreen row col
  · obtain ⟨hr, hc⟩ := id hon
    have hs := h.setLogicalCursor (r := p.top + row) (by omega) hr ⟨hc.1, hc.2.le⟩
    rw [if_pos hon, if_neg (by unfold InRows InCols at *; omega)]
    dsimp only
    split
    · exact hs
    · exact ⟨hs.1, hs.2, hs.3, hs.4, hs.5, hs.6, hs.7⟩
  · rw [if_neg hon, if_pos (by unfold Sheet.OnScreen InRows InCols at hon; omega)]
    exact h

theorem Shows.clearConsole (h : Shows p c) : Shows (p.exec .clearConsole) c.clearConsole := by
  have hclear : Shows p.clear
      { c with mem := emptyFill c.emptyChar 0 (CONSOLE_HEIGHT * CONSOLE_WIDTH) c.mem } := by
    refine ⟨h.color, h.empty, h.row, h.col, h.inside, fun i j hi hj => ?_, fun i j hi => ?_⟩
    · have hsize : CONSOLE_HEIGHT * CONSOLE_WIDTH = (2000 : Nat) := rfl
      obtain ⟨hi₀, hi₁⟩ := hi
      obtain ⟨hj₀, hj₁⟩ := hj
      rw [height_eq, width_eq] at *
      unfold Console.cell
      dsimp only
      rw [hsize, emptyFill_apply _ rfl, emptyFill_apply _ rfl, width_eq, if_pos (by omega), if_pos (by omega),
        blankByte_even, blankByte_odd, h.empty]
      exact (if_neg (by unfold Sheet.clear; dsimp only; omega)).symm
    · have hlt : ¬ i < p.top := by
        have := height_eq
        unfold Sheet.clear at hi
        dsimp only at hi
        omega
      exact if_neg hlt
  exact hclear.setCursor 0 0

theorem Shows.drawChar (h : Shows p c) (row col : Int) (ch color : Word) :
    Shows (p.drawChar row col (ch.setWidth 8) (color.setWidth 8)) (c.drawChar row col ch color) := by
  unfold Console.drawChar Sheet.drawChar
  by_cases hon : Sheet.OnScreen row col
  · obtain ⟨hr, hc⟩ := id hon
    have hdraws : ¬ (row < 0 ∨ row ≥ CONSOLE_HEIGHT ∨ col < 0 ∨ col ≥ CONSOLE_WIDTH ∨ isValidColor color = -1) := by
      have := isValidColor_ne color
      unfold InRows InCols at *
      omega
    rw [if_neg hdraws]
    by_cases hch : ch.setWidth 8 ≠ 10#8 ∧ ch.setWidth 8 ≠ 13#8
    · rw [if_pos ⟨hon, hch⟩]
      exact h.printChar hch hr hc
    · rw [if_neg fun hh => hch hh.2, printChar_control (by tauto)]
      exact h
  · rw [if_neg fun hh => hon hh.1, if_pos (by unfold Sheet.OnScreen InRows InCols at hon; omega)]
    exact h

theorem Shows.putbytes (h : Shows p c) (s : Option (Nat → Byte)) (len : Int) :
    Shows (p.exec (.putbytes s len)) (c.putbytes s len) := by
  cases s with
  | none => exact h
  | some s =>
    have hfold : ∀ l : List Nat, Shows (l.foldl (fun p i => p.putbyte (s i)) p)
        (l.foldl (fun c i => c.putbyte (s i)) c) := by
      intro l
      induction l generalizing p c with
      | nil => exact h
      | cons i l ih => exact ih (h.putbyte (s i))
    unfold Console.putbytes Sheet.exec
    dsimp only
    split
    · rw [Int.toNat_of_nonpos (by assumption)]
      exact h
    · exact hfold _

theorem Shows.perform (h : Shows p c) (op : Op) : Shows (p.perform op) (c.perform op) := by
  cases op with
  | call call =>
    cases call with
    | putbyte ch => exact h.putbyte ch
    | putbytes s len => exact h.putbytes s len
    | setCursor row col => exact h.setCursor row col
    | clearConsole => exact h.clearConsole
    | drawChar row col ch color => exact h.drawChar row col ch color
  | setTermColor color =>
    have hset : (c.setTermColor color).2 = { c with consoleColor := color.setWidth 8 } := by
      rw [Console.setTermColor, if_neg (isValidColor_ne color)]
    change Shows _ (c.setTermColor color).2
    rw [hset]
    exact ⟨rfl, h.empty, h.row, h.col, h.inside, h.cells, h.below⟩
  | hideCursor => exact ⟨h.color, h.empty, h.row, h.col, h.inside, h.cells, h.below⟩
  | showCursor => exact ⟨h.color, h.empty, h.row, h.col, h.inside, h.cells, h.below⟩

theorem Shows.run (h : Shows p c) (ops : List Op) :
    Shows (ops.foldl Sheet.perform p) (ops.foldl Console.perform c) := by
  induction ops generalizing p c with
  | nil => exact h
  | cons op ops ih => exact ih (h.perform op)

theorem shows_boot (mem : Int → Byte) : Shows (Sheet.boot mem) (boot mem) := by
  have htop : (Sheet.boot mem).top = 0 := rfl
  have hcorner : InRows 0 ∧ (0 : Int) ≤ 0 ∧ 0 ≤ CONSOLE_WIDTH := ⟨by unfold InRows; decide, by decide, by decide⟩
  refine ⟨rfl, rfl, rfl, rfl, hcorner, fun i j hi _ => ?_, fun i j hi => ?_⟩
  · rw [htop, zero_add]
    exact (if_pos hi.2).symm
  · rw [htop, zero_add] at hi
    exact if_neg (not_lt.mpr hi)

end

/-- What can be read from the console after any calls is what the sheet holds in the
window. -/
theorem console_shows_sheet (mem : Int → Byte) (ops : List Op) :
    let c := ops.foldl perform (boot mem)
    let p := ops.foldl Sheet.perform (Sheet.boot mem)
    (∀ row col, InRows row → InCols col → (c.getChar row col, c.getColor row col) = p.cell (p.top + row) col) ∧
      c.getCursor = (p.row - p.top, p.col) ∧ c.getTermColor = p.color := by
  intro c p
  have h : Shows p c := (shows_boot mem).run ops
  refine ⟨fun row col hr hc => ?_, Prod.ext h.row h.col, h.color⟩
  have hin : ¬ (row < 0 ∨ row ≥ CONSOLE_HEIGHT ∨ col < 0 ∨ col ≥ CONSOLE_WIDTH) := by
    unfold InRows InCols at *
    omega
  rw [← h.cells row col hr hc, getChar, getColor, if_neg hin, if_neg hin]
  rfl

end Console

end Pebbles
