import Pebbles.Console

/-!
# The cells of the screen

What `scroll_screen` and `putbyte` do to the cells that are seen, and to the memory
after the screen, which is not. `empty_fill` counts characters, and `scroll_screen`
gives it a number of bytes.
-/

namespace Pebbles

open Words

namespace Console

def cell (c : Console) (row col : Int) : Byte × Byte :=
  (c.mem (2 * (row * CONSOLE_WIDTH + col)), c.mem (2 * (row * CONSOLE_WIDTH + col) + 1))

def InRows (row : Int) : Prop := 0 ≤ row ∧ row < CONSOLE_HEIGHT

def InCols (col : Int) : Prop := 0 ≤ col ∧ col < CONSOLE_WIDTH

/-- The cells moved up by `n` rows, the last rows are blank, and no byte was changed
outside the screen. -/
structure Scrolled (n : Int) (c d : Console) : Prop where
  shifted : ∀ row col, 0 ≤ row → row < CONSOLE_HEIGHT - n → InCols col → d.cell row col = c.cell (row + n) col
  blank : ∀ row col, CONSOLE_HEIGHT - n ≤ row → row < CONSOLE_HEIGHT → InCols col → d.cell row col = c.emptyChar
  outside : ∀ a, ¬ (0 ≤ a ∧ a < CONSOLE_SIZE) → d.mem a = c.mem a

def blankByte (empty : Byte × Byte) (a : Int) : Byte := if a % 2 = 0 then empty.1 else empty.2

def BlankAfter (n : Int) (c : Console) : Prop :=
  ∀ a, CONSOLE_SIZE ≤ a → a < CONSOLE_SIZE + n * CONSOLE_WIDTH * 2 → c.mem a = blankByte c.emptyChar a

section
variable {c d : Console} {n : Int}

/-! ## scroll_screen -/

theorem emptyFill_apply (empty : Byte × Byte) {addr : Int} (ha : addr % 2 = 0) (num : Nat) (mem : Int → Byte)
    (a : Int) :
    emptyFill empty addr num mem a = if addr ≤ a ∧ a < addr + 2 * num then blankByte empty a else mem a := by
  unfold emptyFill
  rw [Int.toNat_natCast]
  induction num with
  | zero =>
    rw [if_neg (by omega)]
    rfl
  | succ k ih =>
    rw [List.range_succ, List.foldl_append, List.foldl_cons, List.foldl_nil]
    unfold blankByte at ih ⊢
    by_cases h₁ : a = addr + 2 * k + 1
    · rw [h₁, Function.update_self, if_pos (by omega), if_neg (by omega)]
    · rw [Function.update_of_ne h₁]
      by_cases h₂ : a = addr + 2 * k
      · rw [h₂, Function.update_self, if_pos (by omega), if_pos (by omega)]
      · rw [Function.update_of_ne h₂, ih]
        exact if_congr (by omega) rfl rfl

theorem scrollScreen_mem (h₁ : 0 < n) (h₂ : n < CONSOLE_HEIGHT) (a : Int) :
    (c.scrollScreen n).mem a =
      if 0 ≤ a ∧ a < CONSOLE_SIZE - n * 160 then c.mem (n * 160 + a)
      else if CONSOLE_SIZE - n * 160 ≤ a ∧ a < CONSOLE_SIZE + n * 160 then blankByte c.emptyChar a
      else c.mem a := by
  have hs : CONSOLE_SIZE = 4000 := rfl
  rw [height_eq] at h₂
  unfold scrollScreen
  rw [if_neg (by omega), if_neg (by rw [height_eq]; omega)]
  dsimp only
  rw [width_eq, show n * 80 * 2 = ((n * 160).toNat : Int) by omega, emptyFill_apply _ (by omega)]
  by_cases ha : CONSOLE_SIZE - n * 160 ≤ a ∧ a < CONSOLE_SIZE + n * 160
  · rw [if_pos (by omega), if_neg (by omega), if_pos ha]
  · rw [if_neg (by omega), if_neg ha]
    by_cases hb : 0 ≤ a ∧ a < CONSOLE_SIZE - n * 160
    · rw [if_pos (by omega), if_pos (by omega), if_pos hb]
      congr 1
      omega
    · rw [if_neg (by omega), if_neg hb]

@[simp] theorem blankByte_even (empty : Byte × Byte) (p : Int) : blankByte empty (2 * p) = empty.1 :=
  if_pos (by omega)

@[simp] theorem blankByte_odd (empty : Byte × Byte) (p : Int) : blankByte empty (2 * p + 1) = empty.2 :=
  if_neg (by omega)

theorem scrollScreen_cell (h₁ : 0 < n) (h₂ : n < CONSOLE_HEIGHT) {row col : Int} (hr : InRows row) (hc : InCols col) :
    (c.scrollScreen n).cell row col = if row + n < CONSOLE_HEIGHT then c.cell (row + n) col else c.emptyChar := by
  have hs : CONSOLE_SIZE = 4000 := rfl
  obtain ⟨hr₀, hr₁⟩ := hr
  obtain ⟨hc₀, hc₁⟩ := hc
  unfold cell
  rw [scrollScreen_mem h₁ h₂, scrollScreen_mem h₁ h₂]
  rw [height_eq, width_eq] at *
  by_cases hlast : row + n < 25
  · rw [if_pos (by omega), if_pos (by omega), if_pos hlast, ← add_assoc,
      show n * 160 + 2 * (row * 80 + col) = 2 * ((row + n) * 80 + col) by omega]
  · rw [if_neg (by omega), if_pos (by omega), if_neg (by omega), if_pos (by omega), if_neg hlast, blankByte_even,
      blankByte_odd]

/-- The cells are always as they should be; the bytes after the screen are kept only
when they were blank. -/
theorem scroll_screen_scrolls_iff (c : Console) {n : Int} (h₁ : 0 < n) (h₂ : n < CONSOLE_HEIGHT) :
    Scrolled n c (c.scrollScreen n) ↔ BlankAfter n c := by
  have hs : CONSOLE_SIZE = 4000 := rfl
  constructor
  · intro h a ha₀ ha₁
    rw [← h.outside a (by omega), scrollScreen_mem h₁ h₂, if_neg (by omega), if_pos]
    rw [width_eq] at ha₁
    omega
  · intro h
    refine ⟨?_, ?_, ?_⟩
    · intro row col hr₀ hr₁ hc
      rw [scrollScreen_cell h₁ h₂ ⟨hr₀, by omega⟩ hc, if_pos (by omega)]
    · intro row col hr₀ hr₁ hc
      rw [scrollScreen_cell h₁ h₂ ⟨by omega, hr₁⟩ hc, if_neg (by omega)]
    · intro a ha
      rw [height_eq] at h₂
      rw [scrollScreen_mem h₁ (by rw [height_eq]; exact h₂), if_neg (by omega)]
      split_ifs with hin
      · exact (h a (by omega) (by rw [width_eq]; omega)).symm
      · rfl

theorem scroll_screen_scrolls_blank : Scrolled 1 (boot (blankByte (32#8, DEFAULT_COLOR)))
    ((boot (blankByte (32#8, DEFAULT_COLOR))).scrollScreen 1) :=
  (scroll_screen_scrolls_iff _ (by decide) (by decide)).mpr fun _ _ _ => rfl

/-- A memory of zeros has a space after the screen when one row was scrolled. -/
theorem scroll_screen_writes_after : (0 : Int) < 1 ∧ 1 < CONSOLE_HEIGHT ∧
    ¬ Scrolled 1 (boot fun _ => 0#8) ((boot fun _ => 0#8).scrollScreen 1) := by
  refine ⟨by decide, by decide, ?_⟩
  intro h
  have hout := h.outside 4000 (by decide)
  rw [scrollScreen_mem (by decide) (by decide)] at hout
  exact absurd hout (by decide)

/-! ## putbyte -/

def scrolls (ch : Byte) (c : Console) : Nat := if (c.advance ch).cursorRow = CONSOLE_HEIGHT then 1 else 0

def scrollCount : List Byte → Console → Nat
  | [], _ => 0
  | ch :: s, c => c.scrolls ch + scrollCount s (c.putbyte ch)

def putAll (s : List Byte) (c : Console) : Console := s.foldl (fun c ch => c.putbyte ch) c

def Printable (ch : Byte) : Prop := ch ≠ 10#8 ∧ ch ≠ 13#8 ∧ ch ≠ 8#8

def place (k row col : Int) : Int := (row + k) * CONSOLE_WIDTH + col

def Within (c : Console) (k n row col : Int) : Prop :=
  place 0 c.cursorRow c.cursorCol ≤ place k row col ∧ place k row col < place 0 c.cursorRow c.cursorCol + n

instance (c : Console) (k n row col : Int) : Decidable (c.Within k n row col) := inferInstanceAs (Decidable (_ ∧ _))

def scrolledCell (c : Console) (k row col : Int) : Byte × Byte :=
  if row + k < CONSOLE_HEIGHT then c.cell (row + k) col else c.emptyChar

/-- The screen `d` is the screen `c`, scrolled by `k` rows, with the cursor where it was
and `n` blank cells from there on. -/
structure Undone (n k : Nat) (c d : Console) : Prop where
  row : d.cursorRow = c.cursorRow - k
  col : d.cursorCol = c.cursorCol
  cells : ∀ row col, InRows row → InCols col →
    d.cell row col = if c.Within k n row col then (32#8, c.consoleColor) else c.scrolledCell k row col

structure Typed (c : Console) (n k m : Nat) (d : Console) : Prop where
  color : d.consoleColor = c.consoleColor
  empty : d.emptyChar = c.emptyChar
  row : InRows d.cursorRow
  col : 0 ≤ d.cursorCol ∧ d.cursorCol ≤ CONSOLE_WIDTH
  cursor : place k d.cursorRow d.cursorCol = place 0 c.cursorRow c.cursorCol + m
  edge : d.cursorCol = CONSOLE_WIDTH → m = n ∧ 0 < n
  blank : ∀ row col, InRows row → InCols col → c.Within k n row col → ¬ c.Within k m row col →
    d.cell row col = (32#8, c.consoleColor)
  kept : ∀ row col, InRows row → InCols col → ¬ c.Within k n row col → d.cell row col = c.scrolledCell k row col

end

section
variable {c d : Console} {ch color : Byte} {n k m : Nat}

@[simp] theorem printChar_color {row col : Int} : (c.printChar ch row col color).consoleColor = c.consoleColor := by
  unfold printChar
  split <;> rfl

@[simp] theorem printChar_empty {row col : Int} : (c.printChar ch row col color).emptyChar = c.emptyChar := by
  unfold printChar
  split <;> rfl

@[simp] theorem scrollScreen_color {n : Int} : (c.scrollScreen n).consoleColor = c.consoleColor := by
  unfold scrollScreen
  split_ifs <;> rfl

@[simp] theorem scrollScreen_empty {n : Int} : (c.scrollScreen n).emptyChar = c.emptyChar := by
  unfold scrollScreen
  split_ifs <;> rfl

@[simp] theorem setLogicalCursor_cell {row col i j : Int} : (c.setLogicalCursor row col).cell i j = c.cell i j := rfl

theorem printChar_cell (hch : ch ≠ 10#8 ∧ ch ≠ 13#8) {row col i j : Int} (hc : InCols col) (hj : InCols j) :
    (c.printChar ch row col color).cell i j = if i = row ∧ j = col then (ch, color) else c.cell i j := by
  obtain ⟨hc₀, hc₁⟩ := hc
  obtain ⟨hj₀, hj₁⟩ := hj
  rw [width_eq] at *
  unfold printChar cell
  rw [if_neg (by tauto), width_eq]
  dsimp only
  split_ifs with h
  · rw [h.1, h.2, Function.update_of_ne (by omega), Function.update_self, Function.update_self]
  · have hne : 2 * (i * 80 + j) ≠ 2 * (row * 80 + col) := by
      intro he
      exact h ⟨by omega, by omega⟩
    rw [Function.update_of_ne (by omega), Function.update_of_ne hne, Function.update_of_ne (by omega),
      Function.update_of_ne (by omega)]

theorem scrolledCell_succ {row col : Int} :
    (if row + 1 < CONSOLE_HEIGHT then c.scrolledCell k (row + 1) col else c.emptyChar) =
      c.scrolledCell (k + 1 : Nat) row col := by
  unfold scrolledCell
  rw [show row + 1 + (k : Int) = row + (k + 1 : Nat) by omega]
  split_ifs with h₁ h₂ h₃
  · rfl
  · rfl
  · exact absurd h₃ (by omega)
  · rfl

theorem Typed.start (hr : InRows c.cursorRow) (hc : InCols c.cursorCol) : Typed c 0 0 0 c where
  color := rfl
  empty := rfl
  row := hr
  col := ⟨hc.1, hc.2.le⟩
  cursor := by rw [Nat.cast_zero, add_zero]
  edge h := absurd h hc.2.ne
  blank row col _ _ h₁ h₂ := absurd h₁ h₂
  kept row col hi hj h := by
    unfold scrolledCell
    rw [Nat.cast_zero, add_zero, if_pos hi.2]

theorem Typed.setLogicalCursor (h : Typed c n k m d) {row col : Int} (hr : InRows row) (hc : InCols col)
    (hp : place k row col = place k d.cursorRow d.cursorCol) : Typed c n k m (d.setLogicalCursor row col) := by
  have hrow : (d.setLogicalCursor row col).cursorRow = row := setLogicalCursor_row.trans (max_eq_right hr.1)
  have hcol : (d.setLogicalCursor row col).cursorCol = col := setLogicalCursor_col.trans (max_eq_right hc.1)
  refine ⟨h.color, h.empty, by rwa [hrow], by rw [hcol]; exact ⟨hc.1, hc.2.le⟩, ?_, ?_, h.blank, h.kept⟩
  · rw [hrow, hcol, hp]
    exact h.cursor
  · rw [hcol]
    exact fun he => absurd he hc.2.ne

theorem Typed.scroll (h : Typed c n k n d) (hcol : d.cursorCol = CONSOLE_WIDTH) :
    Typed c n (k + 1) n ((d.scrollScreen 1).setLogicalCursor d.cursorRow 0) := by
  have hr := h.row
  have hc : InCols 0 := ⟨le_rfl, by decide⟩
  have hrow' : ((d.scrollScreen 1).setLogicalCursor d.cursorRow 0).cursorRow = d.cursorRow :=
    setLogicalCursor_row.trans (max_eq_right hr.1)
  have hcol' : ((d.scrollScreen 1).setLogicalCursor d.cursorRow 0).cursorCol = 0 := setLogicalCursor_col
  refine ⟨scrollScreen_color.trans h.color, scrollScreen_empty.trans h.empty, by rwa [hrow'], ?_, ?_, ?_,
    fun row col hi hj h₁ h₂ => absurd h₁ h₂, ?_⟩
  · rw [hcol']
    exact ⟨hc.1, hc.2.le⟩
  · rw [hrow', hcol', ← h.cursor, hcol]
    unfold place
    rw [width_eq]
    omega
  · rw [hcol']
    exact fun he => absurd he hc.2.ne
  · intro row col hi hj hout
    rw [setLogicalCursor_cell, scrollScreen_cell one_pos (by decide) hi hj, ← scrolledCell_succ, h.empty]
    refine if_ctx_congr Iff.rfl (fun hlt => ?_) fun _ => rfl
    refine h.kept (row + 1) col ⟨by unfold InRows at hi; omega, hlt⟩ hj fun hin => hout ?_
    unfold Within place at hin ⊢
    rwa [show row + (k + 1 : Nat) = row + 1 + (k : Int) by omega]

theorem setLogicalCursor_scroll {row col i j n : Int} :
    ((d.setLogicalCursor row col).scrollScreen n).setLogicalCursor i j = (d.scrollScreen n).setLogicalCursor i j := by
  unfold scrollScreen
  split_ifs <;> rfl

theorem Typed.settle (h : Typed c n k n d) (hch : Printable ch) :
    Typed c n (k + d.scrolls ch) n (d.advance ch).scrollIfBelow ∧
      (d.advance ch).scrollIfBelow.cursorCol < CONSOLE_WIDTH := by
  obtain ⟨hr₀, hr₁⟩ := h.row
  have hc₁ := h.col.2
  have hzero : InCols 0 := ⟨le_rfl, by decide⟩
  unfold scrolls scrollIfBelow
  have hadv : d.advance ch = if d.cursorCol = CONSOLE_WIDTH then d.setLogicalCursor (d.cursorRow + 1) 0 else d := by
    unfold advance
    rw [if_neg hch.1, if_neg hch.2.1]
  rw [hadv]
  by_cases hedge : d.cursorCol = CONSOLE_WIDTH
  · rw [if_pos hedge, setLogicalCursor_row, max_eq_right (by omega)]
    by_cases hlast : d.cursorRow + 1 = CONSOLE_HEIGHT
    · rw [if_pos hlast, if_pos hlast]
      dsimp only
      rw [scrollScreen_row, scrollScreen_col, setLogicalCursor_row, setLogicalCursor_col, setLogicalCursor_scroll,
        max_eq_right (by omega), max_self, add_sub_cancel_right]
      refine ⟨h.scroll hedge, ?_⟩
      rw [setLogicalCursor_col]
      exact hzero.2
    · rw [if_neg hlast, if_neg hlast]
      refine ⟨h.setLogicalCursor ⟨by omega, by omega⟩ hzero ?_, ?_⟩
      · unfold place
        rw [hedge, width_eq]
        omega
      · rw [setLogicalCursor_col]
        exact hzero.2
  · have hrow : d.cursorRow ≠ CONSOLE_HEIGHT := hr₁.ne
    rw [if_neg hedge, if_neg hrow, if_neg hrow]
    exact ⟨h, lt_of_le_of_ne hc₁ hedge⟩

theorem Typed.print (h : Typed c n k n d) (hch : Printable ch) (hc : d.cursorCol < CONSOLE_WIDTH) :
    Typed c (n + 1) k (n + 1)
      ((d.printChar ch d.cursorRow d.cursorCol d.consoleColor).setLogicalCursor d.cursorRow (d.cursorCol + 1)) := by
  have hr := h.row
  have hc₀ := h.col.1
  have hcur := h.cursor
  have hrow : ∀ e : Console, (e.setLogicalCursor d.cursorRow (d.cursorCol + 1)).cursorRow = d.cursorRow :=
    fun _ => setLogicalCursor_row.trans (max_eq_right hr.1)
  have hcol : ∀ e : Console, (e.setLogicalCursor d.cursorRow (d.cursorCol + 1)).cursorCol = d.cursorCol + 1 :=
    fun _ => setLogicalCursor_col.trans (max_eq_right (by omega))
  refine ⟨printChar_color.trans h.color, printChar_empty.trans h.empty, by rwa [hrow], by rw [hcol]; omega, ?_,
    fun _ => ⟨rfl, n.succ_pos⟩, fun row col hi hj h₁ h₂ => absurd h₁ h₂, ?_⟩
  · rw [hrow, hcol]
    unfold place at *
    omega
  · intro row col hi hj hout
    have hne : ¬ (row = d.cursorRow ∧ col = d.cursorCol) := by
      rintro ⟨rfl, rfl⟩
      apply hout
      unfold Within
      omega
    rw [setLogicalCursor_cell, printChar_cell ⟨hch.1, hch.2.1⟩ ⟨hc₀, hc⟩ hj, if_neg hne]
    refine h.kept row col hi hj fun hin => hout ?_
    unfold Within at *
    omega

theorem Typed.putbyte (h : Typed c n k n d) (hch : Printable ch) :
    Typed c (n + 1) (k + d.scrolls ch) (n + 1) (d.putbyte ch) := by
  obtain ⟨hs, hcol⟩ := h.settle hch
  have hp := hs.print hch hcol
  unfold Console.putbyte
  rw [if_neg hch.2.2]
  dsimp only
  unfold Printable at hch
  rw [if_pos hch, printChar_row, printChar_col]
  exact hp

theorem Typed.putAll {s : List Byte} (h : Typed c n k n d) (hs : ∀ ch ∈ s, Printable ch) :
    Typed c (n + s.length) (k + scrollCount s d) (n + s.length) (d.putAll s) := by
  induction s generalizing n k d with
  | nil => exact h
  | cons ch s ih =>
    obtain ⟨hch, hs⟩ := List.forall_mem_cons.mp hs
    have hrest := ih (h.putbyte hch) hs
    rw [List.length_cons, scrollCount, ← add_assoc k, ← Nat.succ_add_eq_add_succ]
    exact hrest

/-! ## Backspaces -/

theorem Typed.stepBack (h : Typed c n k (m + 1) d) (hk : k ≤ c.cursorRow) (hc : InCols c.cursorCol) :
    InRows d.stepBack.cursorRow ∧ InCols d.stepBack.cursorCol ∧
      place k d.stepBack.cursorRow d.stepBack.cursorCol = place 0 c.cursorRow c.cursorCol + m := by
  obtain ⟨hr₀, hr₁⟩ := h.row
  obtain ⟨hc₀, hc₁⟩ := h.col
  obtain ⟨hj₀, hj₁⟩ := hc
  have hcur := h.cursor
  unfold Console.stepBack InRows InCols place at *
  rw [height_eq, width_eq] at *
  split_ifs with hzero <;> rw [setLogicalCursor_row, setLogicalCursor_col] <;> omega

@[simp] theorem stepBack_color : c.stepBack.consoleColor = c.consoleColor := by
  unfold stepBack
  split <;> rfl

@[simp] theorem stepBack_empty : c.stepBack.emptyChar = c.emptyChar := by
  unfold stepBack
  split <;> rfl

@[simp] theorem stepBack_cell {row col : Int} : c.stepBack.cell row col = c.cell row col := by
  unfold stepBack
  split <;> rfl

theorem Typed.backspace (h : Typed c n k (m + 1) d) (hm : m + 1 ≤ n) (hk : k ≤ c.cursorRow)
    (hc : InCols c.cursorCol) : Typed c n k m (d.putbyte 8#8) := by
  obtain ⟨hr, hcol, hcur⟩ := h.stepBack hk hc
  have hspace : 32#8 ≠ 10#8 ∧ 32#8 ≠ 13#8 := by decide
  unfold Console.putbyte
  rw [if_pos rfl]
  refine ⟨by simp [h.color], by simp [h.empty], by rwa [printChar_row], ?_, ?_, ?_, ?_, ?_⟩
  · rw [printChar_col]
    exact ⟨hcol.1, hcol.2.le⟩
  · rw [printChar_row, printChar_col]
    exact hcur
  · rw [printChar_col]
    exact fun he => absurd he hcol.2.ne
  · intro row col hi hj hin hout
    rw [printChar_cell hspace hcol hj, stepBack_color, h.color, stepBack_cell]
    split_ifs with heq
    · rfl
    · -- the cell was blank before, for it is not the last one of the rest
      refine h.blank row col hi hj hin fun hrest => heq ?_
      unfold Within place InCols at *
      rw [width_eq] at *
      omega
  · intro row col hi hj hout
    have hne : ¬ (row = d.stepBack.cursorRow ∧ col = d.stepBack.cursorCol) := by
      rintro ⟨rfl, rfl⟩
      apply hout
      unfold Within
      omega
    rw [printChar_cell hspace hcol hj, if_neg hne, stepBack_cell]
    exact h.kept row col hi hj hout

theorem Typed.erase (h : Typed c n k m d) (hm : m ≤ n) (hk : k ≤ c.cursorRow) (hc : InCols c.cursorCol) :
    Typed c n k 0 (d.putAll (List.replicate m 8#8)) := by
  induction m generalizing d with
  | zero => exact h
  | succ m ih => exact ih (h.backspace hm hk hc) (by omega)

theorem Typed.undone (h : Typed c n k 0 d) (hc : InCols c.cursorCol) : Undone n k c d := by
  obtain ⟨hc₀, hc₁⟩ := hc
  obtain ⟨hd₀, hd₁⟩ := h.col
  have hedge : d.cursorCol ≠ CONSOLE_WIDTH := by
    intro he
    have hlast := h.edge he
    omega
  have hcur := h.cursor
  unfold place at hcur
  rw [width_eq] at *
  refine ⟨by omega, by omega, ?_⟩
  intro row col hi hj
  split_ifs with hin
  · refine h.blank row col hi hj hin fun hrest => ?_
    unfold Within at hrest
    omega
  · exact h.kept row col hi hj hin

theorem backspaces_undo (c : Console) (s : List Byte) (hr : InRows c.cursorRow) (hc : InCols c.cursorCol)
    (hs : ∀ ch ∈ s, Printable ch) (hk : scrollCount s c ≤ c.cursorRow) :
    Undone s.length (scrollCount s c) c (c.putAll (s ++ List.replicate s.length 8#8)) := by
  have htyped := (Typed.start hr hc).putAll hs
  rw [zero_add, zero_add] at htyped
  have herased := htyped.erase le_rfl hk hc
  unfold putAll at herased ⊢
  rw [List.foldl_append]
  exact herased.undone hc

def lastCell : Console := { boot fun _ => 0#8 with cursorRow := 24, cursorCol := 79 }

/-- The second character scrolls the screen. -/
theorem backspaces_undo_scrolled : scrollCount [97#8, 98#8] lastCell = 1 ∧
    Undone 2 1 lastCell (lastCell.putAll [97#8, 98#8, 8#8, 8#8]) := by
  have hcount : scrollCount [97#8, 98#8] lastCell = 1 := by decide +kernel
  have hundo := backspaces_undo lastCell [97#8, 98#8] (by unfold InRows; decide) (by unfold InCols; decide)
    (by unfold Printable; decide) (by rw [hcount]; decide)
  rw [hcount] at hundo
  exact ⟨hcount, hundo⟩

end

end Console

end Pebbles
