import Pebbles.Page

/-!
# The console

The functions of `console.c` and `console_util.c` on the logical cursor and the
video memory. The column may rest one past the edge: the next character goes to
the next row then.
-/

namespace Pebbles

open Words

def CONSOLE_WIDTH : Int := 80
def CONSOLE_HEIGHT : Int := 25

/-- `BGND_BLACK | FGND_WHITE`. -/
def DEFAULT_COLOR : Byte := 0x0f#8

/-- `mem` gives the bytes of memory by their distance from `CONSOLE_MEM_BASE`, `buf`
is the buffer of `scroll_screen`; `hardware` is the position that the device was
told. `cells` are the cells that `print_char` has written. -/
structure Console where
  cursorRow : Int
  cursorCol : Int
  consoleColor : Byte
  emptyChar : Byte × Byte
  mem : Int → Byte
  buf : Int → Byte
  hardware : BitVec 16
  cells : List (Int × Int)

namespace Console

/-! ## console_util.c -/

def setLogicalCursor (row col : Int) (c : Console) : Console :=
  { c with cursorRow := if row < 0 then 0 else row, cursorCol := if col < 0 then 0 else col }

def emptyFill (empty : Byte × Byte) (addr num : Int) (mem : Int → Byte) : Int → Byte :=
  (List.range num.toNat).foldl
    (fun mem (i : Nat) => Function.update (Function.update mem (addr + 2 * i) empty.1) (addr + 2 * i + 1) empty.2) mem

def setHardwareCursor (row col : Int) (c : Console) : Console := { c with hardware := BitVec.ofInt 16 (row * 80 + col) }

def isValidColor (color : Word) : Int :=
  let bgColor := color &&& 0xf#32
  let fgColor := color.sshiftRight 4 &&& 0xf#32
  if fgColor.toInt < 0 ∨ fgColor.toInt > 0xf ∨ bgColor.toInt < 0 ∨ bgColor.toInt > 0x8 then ERR_INVAL else 0

def printChar (ch : Byte) (row col : Int) (color : Byte) (c : Console) : Console :=
  if ch = 10#8 ∨ ch = 13#8 then c
  else { c with
    mem := Function.update (Function.update c.mem (2 * (row * CONSOLE_WIDTH + col)) ch)
      (2 * (row * CONSOLE_WIDTH + col) + 1) color
    cells := c.cells ++ [(row, col)] }

def CONSOLE_SIZE : Int := CONSOLE_HEIGHT * CONSOLE_WIDTH * 2

def scrollScreen (numRows : Int) (c : Console) : Console :=
  if numRows ≤ 0 then c
  else if numRows ≥ CONSOLE_HEIGHT then c
  else
    let offset := numRows * CONSOLE_WIDTH * 2
    let buf := fun i => if 0 ≤ i ∧ i < CONSOLE_SIZE - offset then c.mem (offset + i) else c.buf i
    let mem := fun a => if 0 ≤ a ∧ a < CONSOLE_SIZE - offset then buf a else c.mem a
    { c with buf := buf, mem := emptyFill c.emptyChar (CONSOLE_SIZE - offset) offset mem }

def isCursorHidden (c : Console) : Int :=
  if c.cursorRow ≥ CONSOLE_HEIGHT ∨ c.cursorCol ≥ CONSOLE_WIDTH then 0 else ERR_INVAL

/-! ## console.c -/

def setCursor (row col : Int) (c : Console) : Int × Console :=
  if row < 0 ∨ row ≥ CONSOLE_HEIGHT ∨ col < 0 ∨ col ≥ CONSOLE_WIDTH then (ERR_INVAL, c)
  else
    let c := c.setLogicalCursor row col
    if c.isCursorHidden = 0 then (0, c) else (0, c.setHardwareCursor row col)

def advance (ch : Byte) (c : Console) : Console :=
  if ch = 10#8 then c.setLogicalCursor (c.cursorRow + 1) 0
  else if ch = 13#8 then c.setLogicalCursor c.cursorRow 0
  else if c.cursorCol = CONSOLE_WIDTH then c.setLogicalCursor (c.cursorRow + 1) 0
  else c

def scrollIfBelow (c : Console) : Console :=
  if c.cursorRow = CONSOLE_HEIGHT then
    let c := c.scrollScreen 1
    c.setLogicalCursor (c.cursorRow - 1) c.cursorCol
  else c

def stepBack (c : Console) : Console :=
  if c.cursorCol = 0 then c.setLogicalCursor (c.cursorRow - 1) (CONSOLE_WIDTH - 1)
  else c.setLogicalCursor c.cursorRow (c.cursorCol - 1)

def putbyte (ch : Byte) (c : Console) : Console :=
  if ch = 8#8 then
    let c := c.stepBack
    c.printChar 32#8 c.cursorRow c.cursorCol c.consoleColor
  else
    let c := (c.advance ch).scrollIfBelow
    let c := c.printChar ch c.cursorRow c.cursorCol c.consoleColor
    if ch ≠ 10#8 ∧ ch ≠ 13#8 ∧ ch ≠ 8#8 then c.setLogicalCursor c.cursorRow (c.cursorCol + 1) else c

/-- `s` are the bytes at the pointer, `none` for the null pointer. -/
def putbytes (s : Option (Nat → Byte)) (len : Int) (c : Console) : Console :=
  match s with
  | none => c
  | some s => if len ≤ 0 then c else (List.range len.toNat).foldl (fun c i => c.putbyte (s i)) c

def clearConsole (c : Console) : Console :=
  (setCursor 0 0 { c with mem := emptyFill c.emptyChar 0 (CONSOLE_HEIGHT * CONSOLE_WIDTH) c.mem }).2

/-- The colour check compares with -1, which `is_valid_color` never returns. -/
def drawChar (row col : Int) (ch color : Word) (c : Console) : Console :=
  if row < 0 ∨ row ≥ CONSOLE_HEIGHT ∨ col < 0 ∨ col ≥ CONSOLE_WIDTH ∨ isValidColor color = -1 then c
  else c.printChar (ch.setWidth 8) row col (color.setWidth 8)

inductive Call where
  | putbyte (ch : Byte)
  | putbytes (s : Option (Nat → Byte)) (len : Int)
  | setCursor (row col : Int)
  | clearConsole
  | drawChar (row col : Int) (ch color : Word)

def exec (c : Console) : Call → Console
  | .putbyte ch => c.putbyte ch
  | .putbytes s len => c.putbytes s len
  | .setCursor row col => (c.setCursor row col).2
  | .clearConsole => c.clearConsole
  | .drawChar row col ch color => c.drawChar row col ch color

def boot (mem : Int → Byte) : Console where
  cursorRow := 0
  cursorCol := 0
  consoleColor := DEFAULT_COLOR
  emptyChar := (32#8, DEFAULT_COLOR)
  mem := mem
  buf _ := 0#8
  hardware := 0#16
  cells := []

/-! ## The cursor stays on the screen -/

structure OnScreen (c : Console) : Prop where
  row : 0 ≤ c.cursorRow ∧ c.cursorRow < CONSOLE_HEIGHT
  col : 0 ≤ c.cursorCol ∧ c.cursorCol ≤ CONSOLE_WIDTH
  cells : ∀ p ∈ c.cells, 0 ≤ p.1 ∧ p.1 < CONSOLE_HEIGHT ∧ 0 ≤ p.2 ∧ p.2 < CONSOLE_WIDTH

section
variable {c : Console} {ch color : Byte} {row col : Int}

theorem height_eq : CONSOLE_HEIGHT = 25 := rfl

theorem width_eq : CONSOLE_WIDTH = 80 := rfl

@[simp] theorem setLogicalCursor_row : (c.setLogicalCursor row col).cursorRow = max 0 row := by
  unfold setLogicalCursor
  dsimp only
  split <;> omega

@[simp] theorem setLogicalCursor_col : (c.setLogicalCursor row col).cursorCol = max 0 col := by
  unfold setLogicalCursor
  dsimp only
  split <;> omega

@[simp] theorem setLogicalCursor_cells : (c.setLogicalCursor row col).cells = c.cells := rfl

@[simp] theorem printChar_row : (c.printChar ch row col color).cursorRow = c.cursorRow := by
  unfold printChar
  split <;> rfl

@[simp] theorem printChar_col : (c.printChar ch row col color).cursorCol = c.cursorCol := by
  unfold printChar
  split <;> rfl

@[simp] theorem scrollScreen_row {n : Int} : (c.scrollScreen n).cursorRow = c.cursorRow := by
  unfold scrollScreen
  split_ifs <;> rfl

@[simp] theorem scrollScreen_col {n : Int} : (c.scrollScreen n).cursorCol = c.cursorCol := by
  unfold scrollScreen
  split_ifs <;> rfl

@[simp] theorem scrollScreen_cells {n : Int} : (c.scrollScreen n).cells = c.cells := by
  unfold scrollScreen
  split_ifs <;> rfl

theorem OnScreen.setLogicalCursor (h : OnScreen c) (hr : row < CONSOLE_HEIGHT) (hc : col ≤ CONSOLE_WIDTH) :
    OnScreen (c.setLogicalCursor row col) where
  row := by
    rw [setLogicalCursor_row, height_eq] at *
    omega
  col := by
    rw [setLogicalCursor_col, width_eq] at *
    omega
  cells := h.cells

theorem OnScreen.printChar (h : OnScreen c) (ch color : Byte) (hr : 0 ≤ row ∧ row < CONSOLE_HEIGHT)
    (hc : 0 ≤ col ∧ col < CONSOLE_WIDTH) :
    OnScreen (c.printChar ch row col color) where
  row := by
    rw [printChar_row]
    exact h.row
  col := by
    rw [printChar_col]
    exact h.col
  cells := by
    unfold Console.printChar
    split
    · exact h.cells
    · intro p hp
      rcases List.mem_append.mp hp with hp | hp
      · exact h.cells p hp
      · rw [List.mem_singleton.mp hp]
        exact ⟨hr.1, hr.2, hc⟩

theorem OnScreen.stepBack (h : OnScreen c) : OnScreen c.stepBack ∧ c.stepBack.cursorCol < CONSOLE_WIDTH := by
  have hr := h.row
  have hc := h.col
  unfold Console.stepBack
  split
  · refine ⟨h.setLogicalCursor (by omega) (by rw [width_eq]; omega), ?_⟩
    rw [setLogicalCursor_col, width_eq]
    omega
  · refine ⟨h.setLogicalCursor hr.2 (by omega), ?_⟩
    rw [setLogicalCursor_col, width_eq] at *
    omega

theorem OnScreen.advance (h : OnScreen c) (ch : Byte) :
    OnScreen (c.advance ch).scrollIfBelow ∧ (c.advance ch).scrollIfBelow.cursorCol < CONSOLE_WIDTH := by
  have hr := h.row
  have hc := h.col
  -- the cursor is on the screen or at the beginning of the row below it
  have hadv : (c.advance ch).cells = c.cells ∧ 0 ≤ (c.advance ch).cursorRow ∧
    (c.advance ch).cursorRow ≤ CONSOLE_HEIGHT ∧
      0 ≤ (c.advance ch).cursorCol ∧ (c.advance ch).cursorCol < CONSOLE_WIDTH := by
    rw [height_eq, width_eq] at *
    unfold Console.advance
    split_ifs <;> simp only [setLogicalCursor_row, setLogicalCursor_col, setLogicalCursor_cells, true_and,
    width_eq] at *
    all_goals omega
  obtain ⟨hcells, hrow⟩ := hadv
  generalize c.advance ch = d at *
  unfold scrollIfBelow
  rw [height_eq, width_eq] at *
  split_ifs with he
  · refine ⟨⟨?_, ?_, ?_⟩, ?_⟩
    · simp only [setLogicalCursor_row, scrollScreen_row, height_eq]
      omega
    · simp only [setLogicalCursor_col, scrollScreen_col, width_eq]
      omega
    · simp only [setLogicalCursor_cells, scrollScreen_cells, hcells]
      exact h.cells
    · simp only [setLogicalCursor_col, scrollScreen_col]
      omega
  · refine ⟨⟨?_, ?_, hcells ▸ h.cells⟩, hrow.2.2.2⟩
    · rw [height_eq]
      omega
    · rw [width_eq]
      omega

theorem OnScreen.putbyte (h : OnScreen c) (ch : Byte) : OnScreen (c.putbyte ch) := by
  unfold Console.putbyte
  split
  · obtain ⟨hb, hlt⟩ := h.stepBack
    exact hb.printChar _ _ hb.row ⟨hb.col.1, hlt⟩
  · obtain ⟨ha, hlt⟩ := h.advance ch
    have hp := ha.printChar ch (c.advance ch).scrollIfBelow.consoleColor ha.row ⟨ha.col.1, hlt⟩
    dsimp only
    split
    · refine hp.setLogicalCursor hp.row.2 ?_
      rw [printChar_col]
      omega
    · exact hp

theorem OnScreen.putbytes (h : OnScreen c) (s : Option (Nat → Byte)) (len : Int) : OnScreen (c.putbytes s len) := by
  unfold Console.putbytes
  cases s with
  | none => exact h
  | some s =>
    dsimp only
    split
    · exact h
    · refine List.foldlRecOn (motive := OnScreen) _ _ h ?_
      exact fun d hd i _ => hd.putbyte (s i)

theorem OnScreen.setCursor (h : OnScreen c) (row col : Int) : OnScreen (c.setCursor row col).2 := by
  unfold Console.setCursor
  split
  · exact h
  · have hs : OnScreen (c.setLogicalCursor row col) := h.setLogicalCursor (by omega) (by omega)
    dsimp only
    split
    · exact hs
    · exact ⟨hs.row, hs.col, hs.cells⟩

theorem OnScreen.clearConsole (h : OnScreen c) : OnScreen c.clearConsole := by
  unfold Console.clearConsole
  generalize emptyFill c.emptyChar 0 (CONSOLE_HEIGHT * CONSOLE_WIDTH) c.mem = mem
  have hm : OnScreen { c with mem := mem } := ⟨h.row, h.col, h.cells⟩
  exact hm.setCursor 0 0

theorem OnScreen.drawChar (h : OnScreen c) (row col : Int) (ch color : Word) :
    OnScreen (c.drawChar row col ch color) := by
  unfold Console.drawChar
  split
  · exact h
  · exact h.printChar _ _ (by omega) (by omega)

theorem OnScreen.exec (h : OnScreen c) (call : Call) : OnScreen (c.exec call) := by
  cases call with
  | putbyte ch => exact h.putbyte ch
  | putbytes s len => exact h.putbytes s len
  | setCursor row col => exact h.setCursor row col
  | clearConsole => exact h.clearConsole
  | drawChar row col ch color => exact h.drawChar row col ch color

end

theorem cursor_on_screen (mem : Int → Byte) (calls : List Call) : OnScreen (calls.foldl exec (boot mem)) := by
  refine List.foldlRecOn (motive := OnScreen) _ _ ?_ fun c hc call _ => hc.exec call
  exact ⟨(by decide : (0 : Int) ≤ 0 ∧ 0 < CONSOLE_HEIGHT), (by decide : (0 : Int) ≤ 0 ∧ 0 ≤ CONSOLE_WIDTH),
    List.forall_mem_nil _⟩

end Console

end Pebbles
