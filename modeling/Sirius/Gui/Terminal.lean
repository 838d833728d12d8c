import Sirius.Library.Runs
import Sirius.Library.Unsigned
import Mathlib.Logic.Function.Basic

/-!
# The terminal

One terminal component with its buffer of 0x8000 cells of 16 bits. The numbers of a component are
unsigned 32-bit numbers. The model records every place of the buffer that is written and every
value that is stored in `offset` and `scrolly.index`; the pixels that are drawn and the fields that
only the mouse handler uses are left out.

`window_putchar` tests the room of the buffer once, for one cell, and starts the buffer again
without resetting `scrolly.index`. A call can append more than one cell, and a backspace takes one
cell back for one column, while a tab is one cell for eight columns.
-/

namespace Sirius.Gui

open Library

/-- The number of cells of the buffer. -/
def cellCount : Nat := 0x8000

def newlineChar : BitVec 16 := 0x0a
def backspaceChar : BitVec 16 := 0x08
def tabChar : BitVec 16 := 0x09
def spaceChar : BitVec 16 := 0x20

/-- The vertical scrolling of a component. -/
structure Xscroll where
  x : Nat
  flag : Nat
  index : Nat
  addr : Nat

/-- A terminal component; `addr` is the buffer, `scrolly.addr` a place in it. -/
structure Xcomponent where
  width : BitVec 32
  height : BitVec 32
  fontX : BitVec 32
  fontY : BitVec 32
  cx : Nat
  cy : Nat
  clear : Nat
  scrolly : Xscroll
  offset : Nat
  addr : Nat → BitVec 16
  written : List Nat
  stored : List Nat

/-- A new component. -/
def xcomponent (width height fontX fontY : BitVec 32) : Xcomponent where
  width := width
  height := height
  fontX := fontX
  fontY := fontY
  cx := 0
  cy := 0
  clear := 0
  scrolly := ⟨0, 0, 0, 0⟩
  offset := 0
  addr := fun _ => 0
  written := []
  stored := []

namespace Xcomponent

variable (com : Xcomponent)

/-- The columns and lines of the geometry. -/
def limitx : Nat := sub32 com.width.toNat 4 / com.fontX.toNat
def limity : Nat := sub32 com.height.toNat 4 / com.fontY.toNat

/-- The cell at `offset` written. -/
def putCell (cell : BitVec 16) : Xcomponent :=
  { com with
    addr := Function.update com.addr com.offset cell
    written := com.offset :: com.written }

/-- New values of `offset` and `scrolly.index`. -/
def setOffset (v : Nat) : Xcomponent := { com with offset := v, stored := v :: com.stored }
def setIndex (v : Nat) : Xcomponent :=
  { com with scrolly := { com.scrolly with index := v }, stored := v :: com.stored }

/-- `com->offset++; com->scrolly.index++` -/
def advance : Xcomponent :=
  (com.setOffset (add32 com.offset 1)).setIndex (add32 com.scrolly.index 1)

/-- `com->offset--; com->scrolly.index--` -/
def retreat : Xcomponent :=
  (com.setOffset (sub32 com.offset 1)).setIndex (sub32 com.scrolly.index 1)

end Xcomponent

/-! ### Scrolling -/

/-- The cells behind the first `scrolly` lines: their number, with the newline before them, and
their place. -/
def skipLines (buffer : Nat → BitVec 16) : Nat → Nat → Nat → Nat × Nat
  | 0, _, c => (0, c)
  | i + 1, scrolly, c =>
      if buffer c &&& 0xff = newlineChar then
        if scrolly = 0 then (i + 1, c + 1) else skipLines buffer i (scrolly - 1) (c + 1)
      else skipLines buffer i scrolly (c + 1)

/-- The column and line after the cells from `c` on are drawn, all but one of `i`. -/
def replay (buffer : Nat → BitVec 16) : Nat → Nat → Nat × Nat → Nat × Nat
  | 0, _, pos => pos
  | 1, _, pos => pos
  | i + 2, c, (cx, cy) =>
      let ch := buffer c &&& 0xff
      let pos := if ch ≠ backspaceChar ∧ ch ≠ tabChar then
          if ch = newlineChar then (0, add32 cy 1) else (add32 cx 1, cy)
        else (cx, cy)
      replay buffer (i + 1) (c + 1) pos

/-- The text drawn again without its first lines; with `op = 1` as it was drawn the last time. A
count with the highest bit set is a negative `int`. -/
def windowPutcharScroll (com : Xcomponent) (op : Nat) : Xcomponent × Nat :=
  let (i, c) := if op = 0 ∧ com.offset < 2 ^ 31 then
      skipLines com.addr com.offset com.scrolly.x 0
    else (com.offset, 0)
  let (i, c) := if op = 1 then (com.scrolly.index, com.scrolly.addr) else (i, c)
  let com := if op = 1 then com
    else { com.setIndex i with scrolly := { (com.setIndex i).scrolly with addr := c } }
  let com := { com with cx := 0, cy := 0 }
  if (i = 0 ∨ 2 ^ 31 ≤ i) ∧ op = 0 then (com, 0)
  else
    let pos := if i < 2 ^ 31 then replay com.addr i c (0, 0) else (0, 0)
    let com := { com with cx := pos.1, cy := pos.2 }
    if op = 1 then (com, 0)
    else
      ({ com with cx := 0, cy := sub32 (com.height.toNat / com.fontY.toNat) 1 }, add32 com.scrolly.x 1)

/-! ### Characters -/

/-- A line that has reached the last column is ended. -/
def wrapLine (com : Xcomponent) : Xcomponent :=
  if com.cx ≥ com.limitx then
    ({ com with cx := 0, cy := add32 com.cy 1 }.putCell 0xff0a).advance
  else com

/-- The text is scrolled when the last line has been passed. -/
def scrollDown (com : Xcomponent) : Xcomponent :=
  if com.cy ≥ com.limity then
    let r := windowPutcharScroll com 0
    { r.1 with scrolly := { r.1.scrolly with x := r.2 } }
  else com

/-- One of the eight columns of a tab. -/
def tabColumn (com : Xcomponent) : Xcomponent :=
  scrollDown (wrapLine { com with cx := add32 com.cx 1 })

/-- The buffer is full, or its content is to be dropped. -/
def Xcomponent.Restarts (com : Xcomponent) : Prop :=
  com.offset * 2 % 2 ^ 32 ≥ 0x10000 ∨ com.clear = 1

instance (com : Xcomponent) : Decidable com.Restarts := inferInstanceAs (Decidable (_ ∨ _))

/-- The buffer begun again from its start. -/
def Xcomponent.restart (com : Xcomponent) : Xcomponent :=
  { com with clear := 0, cx := 0, cy := 0, scrolly := { com.scrolly with x := 0 } }.setOffset 0

/-- The text drawn again after it was scrolled by the mouse. -/
def redraw (com : Xcomponent) : Xcomponent :=
  if com.scrolly.flag ≠ 0 then
    (windowPutcharScroll { com with scrolly := { com.scrolly with flag := 0 } } 1).1
  else com

/-- The effect of the character on the text. -/
def putCharacter (c : BitVec 16) (color : BitVec 8) (com : Xcomponent) : Xcomponent :=
  let attr : BitVec 16 := color.setWidth 16 <<< 8
  if c = backspaceChar ∧ com.cx > 0 then
    ({ com with cx := com.cx - 1 }.retreat).putCell (spaceChar ||| attr)
  else if c = newlineChar then
    ({ com with cx := 0, cy := add32 com.cy 1 }.putCell (newlineChar ||| attr)).advance
  else if c = tabChar then
    tabColumn^[8] (com.putCell (c ||| attr)).advance
  else if c.toNat ≥ spaceChar.toNat then
    ({ com with cx := add32 com.cx 1 }.putCell (c ||| attr)).advance
  else com.advance

def windowPutchar (c : BitVec 16) (color : BitVec 8) (com : Xcomponent) : Xcomponent :=
  let started := if com.Restarts then com.restart else com
  if com.Restarts ∧ c = newlineChar then started
  else
    let com := putCharacter c color (redraw started)
    scrollDown (if c ≠ newlineChar then wrapLine com else com)

/-! ### Bounds -/

/-- The places written so far and the values that `offset` and `scrolly.index` ever had lie within
the buffer. -/
structure Xcomponent.Within (com : Xcomponent) : Prop where
  offset : com.offset ≤ cellCount
  index : com.scrolly.index ≤ cellCount
  written : ∀ k ∈ com.written, k < cellCount
  stored : ∀ v ∈ com.stored, v ≤ cellCount

/-- A component as every call leaves it: nothing to be drawn again, the column within the line. -/
structure Xcomponent.Settled (com : Xcomponent) : Prop where
  clear : com.clear = 0
  flag : com.scrolly.flag = 0
  column : com.cx < com.limitx

/-- The component as the call finds it, a full buffer begun again. -/
def Xcomponent.started (com : Xcomponent) : Xcomponent :=
  if com.Restarts then com.restart else com

/-- The cells that a character appends with the line ends behind it, for a tab the most it can
append. -/
def Xcomponent.cellsFor (com : Xcomponent) (c : BitVec 16) : Nat :=
  if c = tabChar then 1 + (com.cx + 8) / com.limitx
  else if c.toNat ≥ spaceChar.toNat ∧ com.cx + 1 ≥ com.limitx then 2
  else 1

/-- The call has room: a backspace has a cell to take back, any other character has room for its
cells before the end of the buffer and in `scrolly.index`. -/
def Xcomponent.Fits (com : Xcomponent) (c : BitVec 16) : Prop :=
  (com.Restarts ∧ c = newlineChar) ∨
    if c = backspaceChar ∧ com.started.cx > 0 then
      0 < com.started.offset ∧ 0 < com.started.scrolly.index
    else
      com.started.offset + com.started.cellsFor c ≤ cellCount ∧
        com.started.scrolly.index + com.started.cellsFor c ≤ cellCount

variable {com com' : Xcomponent} {c : BitVec 16} {color : BitVec 8} {cell : BitVec 16}

namespace Xcomponent

/-- The column and the line do not matter for the bounds. -/
theorem Within.moved (h : com.Within) (cx cy : Nat) :
    ({ com with cx := cx, cy := cy } : Xcomponent).Within :=
  ⟨h.offset, h.index, h.written, h.stored⟩

theorem Within.putCell (h : com.Within) (hroom : com.offset < cellCount) (cell : BitVec 16) :
    (com.putCell cell).Within where
  offset := h.offset
  index := h.index
  written k hk := by
    rcases List.mem_cons.mp hk with rfl | hk
    · exact hroom
    · exact h.written k hk
  stored := h.stored

theorem limitx_lt (com : Xcomponent) : com.limitx < 2 ^ 32 :=
  Nat.lt_of_le_of_lt (Nat.div_le_self ..) (sub32_lt com.width.isLt 4)

theorem advance_eq (hoffset : com.offset < cellCount) (hindex : com.scrolly.index < cellCount) :
    com.advance =
      (com.setOffset (com.offset + 1)).setIndex (com.scrolly.index + 1) := by
  unfold cellCount at hoffset hindex
  rw [advance, add32_of_lt (by omega), add32_of_lt (by omega)]

theorem Within.advance (h : com.Within) (hoffset : com.offset < cellCount)
    (hindex : com.scrolly.index < cellCount) : com.advance.Within := by
  rw [advance_eq hoffset hindex]
  refine ⟨hoffset, hindex, h.written, fun v hv => ?_⟩
  rcases List.mem_cons.mp hv with rfl | hv
  · exact hindex
  · rcases List.mem_cons.mp hv with rfl | hv
    · exact hoffset
    · exact h.stored v hv

theorem Within.retreat (h : com.Within) (hoffset : 0 < com.offset)
    (hindex : 0 < com.scrolly.index) (cell : BitVec 16) : (com.retreat.putCell cell).Within := by
  have hbound := h.offset
  have hbelow := h.index
  rw [Xcomponent.retreat, sub32_of_le hoffset, sub32_of_le hindex]
  refine ⟨?_, ?_, fun k hk => ?_, fun v hv => ?_⟩
  · exact Nat.le_trans (Nat.sub_le ..) hbound
  · exact Nat.le_trans (Nat.sub_le ..) hbelow
  · rcases List.mem_cons.mp hk with rfl | hk
    · exact Nat.lt_of_lt_of_le (Nat.sub_lt hoffset Nat.one_pos) hbound
    · exact h.written k hk
  · rcases List.mem_cons.mp hv with rfl | hv
    · exact Nat.le_trans (Nat.sub_le ..) hbelow
    · rcases List.mem_cons.mp hv with rfl | hv
      · exact Nat.le_trans (Nat.sub_le ..) hbound
      · exact h.stored v hv

theorem Within.started (h : com.Within) : com.started.Within := by
  unfold Xcomponent.started
  split
  · refine ⟨Nat.zero_le _, h.index, h.written, fun v hv => ?_⟩
    rcases List.mem_cons.mp hv with rfl | hv
    · exact Nat.zero_le _
    · exact h.stored v hv
  · exact h

end Xcomponent

/-! ### Scrolling keeps the bounds -/

/-- What scrolling does apart from drawing: the index is that of a line of the text. -/
structure Scrolled (com com' : Xcomponent) : Prop where
  limitx : com'.limitx = com.limitx
  clear : com'.clear = com.clear
  flag : com'.scrolly.flag = com.scrolly.flag
  offset : com'.offset = com.offset
  written : com'.written = com.written
  index : com'.scrolly.index = com.scrolly.index ∨ com'.scrolly.index ≤ com.offset
  column : com'.cx = com.cx ∨ com'.cx = 0
  stored : com'.stored = com.stored ∨ ∃ v, v ≤ com.offset ∧ com'.stored = v :: com.stored

theorem skip_lines_le (buffer : Nat → BitVec 16) (i scrolly c : Nat) :
    (skipLines buffer i scrolly c).1 ≤ i := by
  induction i generalizing scrolly c with
  | zero => exact Nat.le_refl 0
  | succ i ih =>
      unfold skipLines
      split
      · split
        · exact Nat.le_refl _
        · exact Nat.le_succ_of_le (ih ..)
      · exact Nat.le_succ_of_le (ih ..)

theorem scroll_down_scrolled (com : Xcomponent) : Scrolled com (scrollDown com) := by
  unfold scrollDown
  split
  · unfold windowPutcharScroll
    have hskip : (if 0 = 0 ∧ com.offset < 2 ^ 31 then
        skipLines com.addr com.offset com.scrolly.x 0 else (com.offset, 0)).1 ≤ com.offset := by
      split
      · exact skip_lines_le ..
      · exact Nat.le_refl _
    generalize (if 0 = 0 ∧ com.offset < 2 ^ 31 then
      skipLines com.addr com.offset com.scrolly.x 0 else (com.offset, 0)) = r at hskip ⊢
    obtain ⟨i, place⟩ := r
    dsimp only at hskip ⊢
    simp only [zero_ne_one, if_false]
    split
    · exact ⟨rfl, rfl, rfl, rfl, rfl, Or.inr hskip, Or.inr rfl, Or.inr ⟨i, hskip, rfl⟩⟩
    · exact ⟨rfl, rfl, rfl, rfl, rfl, Or.inr hskip, Or.inr rfl, Or.inr ⟨i, hskip, rfl⟩⟩
  · exact ⟨rfl, rfl, rfl, rfl, rfl, Or.inl rfl, Or.inl rfl, Or.inl rfl⟩

theorem Scrolled.within (h : Scrolled com com') (hcom : com.Within) : com'.Within where
  offset := h.offset ▸ hcom.offset
  index := by
    rcases h.index with hindex | hindex
    · exact hindex ▸ hcom.index
    · exact Nat.le_trans hindex hcom.offset
  written := h.written ▸ hcom.written
  stored v hv := by
    rcases h.stored with hstored | ⟨i, hi, hstored⟩
    · exact hcom.stored v (hstored ▸ hv)
    · rw [hstored] at hv
      rcases List.mem_cons.mp hv with rfl | hv
      · exact Nat.le_trans hi hcom.offset
      · exact hcom.stored v hv

theorem Scrolled.settled (h : Scrolled com com') (hcom : com.Settled) : com'.Settled where
  clear := h.clear.trans hcom.clear
  flag := h.flag.trans hcom.flag
  column := by
    rw [h.limitx]
    rcases h.column with hcolumn | hcolumn
    · exact hcolumn ▸ hcom.column
    · exact hcolumn ▸ Nat.zero_lt_of_lt hcom.column

/-! ### Line ends -/

theorem wrap_line_inside (h : com.cx < com.limitx) : wrapLine com = com :=
  if_neg (Nat.not_le.mpr h)

/-- The end of a line is one more cell. -/
theorem wrap_line_end (h : com.cx ≥ com.limitx) (hoffset : com.offset < cellCount)
    (hindex : com.scrolly.index < cellCount) :
    wrapLine com =
      { com with
        cx := 0
        cy := add32 com.cy 1
        offset := com.offset + 1
        scrolly := { com.scrolly with index := com.scrolly.index + 1 }
        addr := Function.update com.addr com.offset 0xff0a
        written := com.offset :: com.written
        stored := (com.scrolly.index + 1) :: (com.offset + 1) :: com.stored } := by
  unfold cellCount at hoffset hindex
  have hnext : add32 com.offset 1 = com.offset + 1 := add32_of_lt (by omega)
  have habove : add32 com.scrolly.index 1 = com.scrolly.index + 1 := add32_of_lt (by omega)
  rw [wrapLine, if_pos h]
  simp only [Xcomponent.advance, Xcomponent.putCell, Xcomponent.setOffset, Xcomponent.setIndex,
    hnext, habove]

theorem wrap_line_within (h : com.Within)
    (hroom : com.cx ≥ com.limitx → com.offset < cellCount ∧ com.scrolly.index < cellCount) :
    (wrapLine com).Within := by
  by_cases hend : com.cx ≥ com.limitx
  · obtain ⟨hoffset, hindex⟩ := hroom hend
    have hput := Xcomponent.Within.advance (Xcomponent.Within.putCell h hoffset 0xff0a) hoffset hindex
    rw [@Xcomponent.advance_eq (com.putCell 0xff0a) hoffset hindex] at hput
    rw [wrap_line_end hend hoffset hindex]
    exact ⟨hput.offset, hput.index, hput.written, hput.stored⟩
  · rw [wrap_line_inside (Nat.not_le.mp hend)]
    exact h

theorem wrap_line_settled (hclear : com.clear = 0) (hflag : com.scrolly.flag = 0)
    (hlimit : 0 < com.limitx) : (wrapLine com).Settled := by
  unfold wrapLine
  split
  · exact ⟨hclear, hflag, hlimit⟩
  · exact ⟨hclear, hflag, Nat.not_le.mp ‹_›⟩

/-- Room for the line ends of `n` more columns. -/
def Xcomponent.RoomFor (com : Xcomponent) (n : Nat) : Prop :=
  com.offset + (com.cx + n) / com.limitx ≤ cellCount ∧
    com.scrolly.index + (com.cx + n) / com.limitx ≤ cellCount

/-- Scrolling starts a new line, so it takes no room away. -/
theorem Scrolled.room (h : Scrolled com com') {n : Nat} (hroom : com.RoomFor n) :
    com'.RoomFor n := by
  have hcx : com'.cx ≤ com.cx := by
    rcases h.column with hcolumn | hcolumn
    · exact hcolumn.le
    · exact hcolumn ▸ Nat.zero_le _
  have hdiv : (com'.cx + n) / com.limitx ≤ (com.cx + n) / com.limitx :=
    Nat.div_le_div_right (Nat.add_le_add_right hcx n)
  obtain ⟨hoffset, hindex⟩ := hroom
  unfold Xcomponent.RoomFor
  rw [h.limitx, h.offset]
  refine ⟨by omega, ?_⟩
  rcases h.index with hi | hi
  · omega
  · omega

/-- One column, with the line end behind it, uses the room for it. -/
theorem column_room (hs : com.Settled) (hw : com.Within) {n : Nat} (hroom : com.RoomFor (n + 1)) :
    (wrapLine { com with cx := com.cx + 1 }).Within ∧
      (wrapLine { com with cx := com.cx + 1 }).RoomFor n := by
  obtain ⟨hoffset, hindex⟩ := hroom
  have hlimit : 0 < com.limitx := Nat.zero_lt_of_lt hs.column
  have hnext := hw.moved (com.cx + 1) com.cy
  by_cases hend : com.cx + 1 = com.limitx
  · -- the column was the last one of its line
    have hdiv : (com.cx + (n + 1)) / com.limitx = n / com.limitx + 1 := by
      rw [show com.cx + (n + 1) = n + com.limitx by omega, Nat.add_div_right _ hlimit]
    rw [hdiv] at hoffset hindex
    have hcell : com.offset < cellCount := by
      have := Nat.zero_le (n / com.limitx)
      omega
    have hbelow : com.scrolly.index < cellCount := by
      have := Nat.zero_le (n / com.limitx)
      omega
    refine ⟨wrap_line_within hnext fun _ => ⟨hcell, hbelow⟩, ?_⟩
    rw [@wrap_line_end { com with cx := com.cx + 1 } hend.ge hcell hbelow]
    show com.offset + 1 + (0 + n) / com.limitx ≤ _ ∧
      com.scrolly.index + 1 + (0 + n) / com.limitx ≤ _
    rw [Nat.zero_add]
    omega
  · have hcolumn := hs.column
    rw [@wrap_line_inside { com with cx := com.cx + 1 }
      (show com.cx + 1 < com.limitx by omega)]
    refine ⟨hnext, ?_⟩
    show com.offset + (com.cx + 1 + n) / com.limitx ≤ _ ∧
      com.scrolly.index + (com.cx + 1 + n) / com.limitx ≤ _
    rw [Nat.add_assoc, Nat.add_comm 1 n]
    exact ⟨hoffset, hindex⟩

theorem tab_column_keeps (hs : com.Settled) (hw : com.Within) {n : Nat}
    (hroom : com.RoomFor (n + 1)) :
    (tabColumn com).Settled ∧ (tabColumn com).Within ∧ (tabColumn com).RoomFor n := by
  have hlt := com.limitx_lt
  have hcolumn := hs.column
  obtain ⟨hwithin, hleft⟩ := column_room hs hw hroom
  unfold tabColumn
  rw [add32_of_lt (by omega)]
  have hscrolled := scroll_down_scrolled (wrapLine { com with cx := com.cx + 1 })
  refine ⟨hscrolled.settled ?_, hscrolled.within hwithin, hscrolled.room hleft⟩
  exact wrap_line_settled hs.clear hs.flag (Nat.zero_lt_of_lt hcolumn)

theorem tab_columns_keep (n : Nat) (hs : com.Settled) (hw : com.Within) (hroom : com.RoomFor n) :
    (tabColumn^[n] com).Settled ∧ (tabColumn^[n] com).Within := by
  induction n generalizing com with
  | zero => exact ⟨hs, hw⟩
  | succ n ih =>
      obtain ⟨hs', hw', hroom'⟩ := tab_column_keeps hs hw hroom
      exact ih hs' hw' hroom'

/-! ### One call -/

theorem started_settled (hs : com.Settled) : com.started.Settled := by
  unfold Xcomponent.started
  split
  · exact ⟨rfl, hs.flag, Nat.zero_lt_of_lt hs.column⟩
  · exact hs

theorem started_offset (hw : com.Within) : com.started.offset < cellCount := by
  have hbound := hw.offset
  unfold Xcomponent.started
  split
  · exact Nat.zero_lt_succ _
  · have hfull : ¬ (com.offset * 2 % 2 ^ 32 ≥ 0x10000) := fun h => ‹¬ com.Restarts› (Or.inl h)
    unfold cellCount at hbound ⊢
    omega

/-- A call on a component with nothing to be drawn again. -/
theorem window_putchar_eq (hs : com.Settled) (hc : ¬ (com.Restarts ∧ c = newlineChar)) :
    windowPutchar c color com = scrollDown (if c ≠ newlineChar then
      wrapLine (putCharacter c color com.started) else putCharacter c color com.started) := by
  have hredraw : redraw com.started = com.started :=
    if_neg (not_not.mpr (started_settled hs).flag)
  unfold windowPutchar
  rw [if_neg hc, show (if com.Restarts then com.restart else com) = com.started from rfl, hredraw]

/-- The end of a call keeps what the character left within bounds. -/
theorem finish_keeps (hclear : com.clear = 0) (hflag : com.scrolly.flag = 0)
    (hlimit : 0 < com.limitx) (hw : com.Within) (hnewline : c = newlineChar → com.cx = 0)
    (hroom : com.cx ≥ com.limitx → com.offset < cellCount ∧ com.scrolly.index < cellCount) :
    (scrollDown (if c ≠ newlineChar then wrapLine com else com)).Settled ∧
      (scrollDown (if c ≠ newlineChar then wrapLine com else com)).Within := by
  by_cases hc : c = newlineChar
  · rw [if_neg (not_not.mpr hc)]
    have hscrolled := scroll_down_scrolled com
    exact ⟨hscrolled.settled ⟨hclear, hflag, by rw [hnewline hc]; exact hlimit⟩,
      hscrolled.within hw⟩
  · rw [if_pos hc]
    have hscrolled := scroll_down_scrolled (wrapLine com)
    exact ⟨hscrolled.settled (wrap_line_settled hclear hflag hlimit),
      hscrolled.within (wrap_line_within hw hroom)⟩

/-- A call that fits keeps the bounds. -/
theorem window_putchar_keeps (hs : com.Settled) (hw : com.Within) (hfits : com.Fits c)
    (color : BitVec 8) :
    (windowPutchar c color com).Settled ∧ (windowPutchar c color com).Within := by
  have hs' := started_settled hs
  have hw' := hw.started
  have hoffset := started_offset hw
  have hcolumn := hs'.column
  have hlimit : 0 < com.started.limitx := Nat.zero_lt_of_lt hcolumn
  have hlt := com.started.limitx_lt
  by_cases hnewline : com.Restarts ∧ c = newlineChar
  · rw [windowPutchar, if_pos hnewline]
    exact ⟨hs', hw'⟩
  rw [window_putchar_eq hs hnewline]
  have hfits := hfits.resolve_left hnewline
  generalize com.started = s at *
  unfold putCharacter
  by_cases hback : c = backspaceChar ∧ s.cx > 0
  · -- one column and one cell back
    rw [if_pos hback] at hfits ⊢
    refine finish_keeps hs'.clear hs'.flag hlimit
      ((hw'.moved (s.cx - 1) s.cy).retreat hfits.1 hfits.2 _) ?_ ?_
    · intro hc
      rw [hback.1] at hc
      exact absurd hc (by decide)
    · intro hend
      have hend : s.cx - 1 ≥ s.limitx := hend
      omega
  rw [if_neg hback] at hfits ⊢
  obtain ⟨hroom, hindex⟩ := hfits
  by_cases hc : c = newlineChar
  · have hcells : s.cellsFor c = 1 := by
      rw [hc]
      rfl
    rw [hcells] at hindex
    rw [if_pos hc]
    have hput := (hw'.moved 0 (add32 s.cy 1)).putCell hoffset
      (newlineChar ||| color.setWidth 16 <<< 8)
    refine finish_keeps hs'.clear hs'.flag hlimit (hput.advance hoffset hindex) (fun _ => rfl)
      fun hend => ?_
    exact absurd hlimit (Nat.not_lt.mpr hend)
  rw [if_neg hc]
  by_cases htab : c = tabChar
  · have hcells : s.cellsFor c = 1 + (s.cx + 8) / s.limitx := if_pos htab
    rw [hcells] at hroom hindex
    have hbelow : s.scrolly.index < cellCount := by
      have := Nat.zero_le ((s.cx + 8) / s.limitx)
      omega
    rw [if_pos htab]
    have hput := (hw'.putCell hoffset (c ||| color.setWidth 16 <<< 8)).advance hoffset hbelow
    have hadvance := @Xcomponent.advance_eq (s.putCell (c ||| color.setWidth 16 <<< 8)) hoffset hbelow
    generalize hnext : (s.putCell (c ||| color.setWidth 16 <<< 8)).advance = next at hput ⊢
    have hsettled : next.Settled := by
      rw [← hnext, hadvance]
      exact ⟨hs'.clear, hs'.flag, hcolumn⟩
    have hleft : next.RoomFor 8 := by
      rw [← hnext, hadvance]
      show s.offset + 1 + (s.cx + 8) / s.limitx ≤ _ ∧
        s.scrolly.index + 1 + (s.cx + 8) / s.limitx ≤ _
      omega
    obtain ⟨hlast, hwithin⟩ := tab_columns_keep 8 hsettled hput hleft
    refine finish_keeps hlast.clear hlast.flag (Nat.zero_lt_of_lt hlast.column) hwithin
      (fun h => absurd h hc) fun hend => ?_
    exact absurd hlast.column (Nat.not_lt.mpr hend)
  rw [if_neg htab]
  by_cases hspace : c.toNat ≥ spaceChar.toNat
  · rw [if_pos hspace, add32_of_lt (by omega)]
    have hcells : s.cellsFor c = if s.cx + 1 ≥ s.limitx then 2 else 1 := by
      rw [Xcomponent.cellsFor, if_neg htab]
      simp only [hspace, true_and]
    rw [hcells] at hroom hindex
    have hbelow : s.scrolly.index < cellCount := by
      split at hindex <;> omega
    have hput := (hw'.moved (s.cx + 1) s.cy).putCell hoffset (c ||| color.setWidth 16 <<< 8)
    have hnext := hput.advance hoffset hbelow
    have hadvance := @Xcomponent.advance_eq
      ({ s with cx := s.cx + 1 }.putCell (c ||| color.setWidth 16 <<< 8)) hoffset hbelow
    rw [hadvance] at hnext ⊢
    refine finish_keeps hs'.clear hs'.flag hlimit hnext (fun h => absurd h hc) fun hend => ?_
    have hend : s.cx + 1 ≥ s.limitx := hend
    rw [if_pos hend] at hroom hindex
    exact ⟨show s.offset + 1 < _ by omega, show s.scrolly.index + 1 < _ by omega⟩
  · rw [if_neg hspace]
    have hcells : s.cellsFor c = 1 := by
      rw [Xcomponent.cellsFor, if_neg htab, if_neg fun h => hspace h.1]
    rw [hcells] at hindex
    have hnext := hw'.advance hoffset hindex
    rw [Xcomponent.advance_eq hoffset hindex] at hnext ⊢
    refine finish_keeps hs'.clear hs'.flag hlimit hnext (fun h => absurd h hc) fun hend => ?_
    exact absurd hcolumn (Nat.not_lt.mpr hend)

/-! ### A call that does not fit -/

theorem Scrolled.stored_before (h : Scrolled com com') (hw : com'.Within) {v : Nat}
    (hv : v ∈ com.stored) : v ≤ cellCount := by
  refine hw.stored v ?_
  rcases h.stored with hstored | ⟨i, -, hstored⟩
  · exact hstored ▸ hv
  · exact hstored ▸ List.mem_cons_of_mem i hv

/-- A value stored before the end of a call is within bounds when the call is. -/
theorem finish_stored
    (hw : (scrollDown (if c ≠ newlineChar then wrapLine com else com)).Within) {v : Nat}
    (hv : v ∈ com.stored) : v ≤ cellCount := by
  refine (scroll_down_scrolled _).stored_before hw ?_
  split
  · unfold wrapLine
    split
    · exact List.mem_cons_of_mem _ (List.mem_cons_of_mem _ hv)
    · exact hv
  · exact hv

/-- So are the values that the end of a line stores. -/
theorem finish_wrap (hc : c ≠ newlineChar) (hend : com.cx ≥ com.limitx)
    (hw : (scrollDown (if c ≠ newlineChar then wrapLine com else com)).Within) :
    add32 com.offset 1 ≤ cellCount ∧ add32 com.scrolly.index 1 ≤ cellCount := by
  rw [if_pos hc] at hw
  have hscrolled := scroll_down_scrolled (wrapLine com)
  have hwrap : (wrapLine com).stored =
      add32 com.scrolly.index 1 :: add32 com.offset 1 :: com.stored := by
    rw [wrapLine, if_pos hend]
    rfl
  refine ⟨hscrolled.stored_before hw ?_, hscrolled.stored_before hw ?_⟩
  · rw [hwrap]
    exact List.mem_cons_of_mem _ List.mem_cons_self
  · rw [hwrap]
    exact List.mem_cons_self

theorem add32_within {a : Nat} (ha : a ≤ cellCount) (h : add32 a 1 ≤ cellCount) :
    a + 1 ≤ cellCount := by
  rw [add32_of_lt (by unfold cellCount at ha; omega)] at h
  exact h

theorem sub32_within {a : Nat} (h : sub32 a 1 ≤ cellCount) : 0 < a := by
  by_contra hzero
  rw [sub32_of_lt (by omega)] at h
  unfold cellCount at h
  omega

/-- A call within bounds fits, if it is no tab. -/
theorem window_putchar_fits (hs : com.Settled) (hw : com.Within) (htab : c ≠ tabChar)
    (hafter : (windowPutchar c color com).Within) : com.Fits c := by
  have hs' := started_settled hs
  have hw' := hw.started
  have hoffset := started_offset hw
  have hlt := com.started.limitx_lt
  have hcolumn := hs'.column
  by_cases hnewline : com.Restarts ∧ c = newlineChar
  · exact Or.inl hnewline
  refine Or.inr ?_
  rw [window_putchar_eq hs hnewline] at hafter
  generalize com.started = s at *
  have hindex := hw'.index
  unfold putCharacter at hafter
  by_cases hback : c = backspaceChar ∧ s.cx > 0
  · rw [if_pos hback] at hafter ⊢
    refine ⟨sub32_within (finish_stored hafter ?_), sub32_within (finish_stored hafter ?_)⟩
    · exact List.mem_cons_of_mem _ List.mem_cons_self
    · exact List.mem_cons_self
  rw [if_neg hback] at hafter ⊢
  by_cases hc : c = newlineChar
  · have hcells : s.cellsFor c = 1 := by
      rw [hc]
      rfl
    rw [hcells]
    rw [if_pos hc] at hafter
    exact ⟨hoffset, add32_within hindex (finish_stored hafter List.mem_cons_self)⟩
  rw [if_neg hc, if_neg htab] at hafter
  by_cases hspace : c.toNat ≥ spaceChar.toNat
  · rw [if_pos hspace, add32_of_lt (show s.cx + 1 < 2 ^ 32 by omega)] at hafter
    have hbelow : s.scrolly.index < cellCount :=
      add32_within hindex (finish_stored hafter List.mem_cons_self)
    have hcells : s.cellsFor c = if s.cx + 1 ≥ s.limitx then 2 else 1 := by
      rw [Xcomponent.cellsFor, if_neg htab]
      simp only [hspace, true_and]
    rw [hcells]
    split
    · have hadvance := @Xcomponent.advance_eq
        ({ s with cx := s.cx + 1 }.putCell (c ||| color.setWidth 16 <<< 8)) hoffset hbelow
      rw [hadvance] at hafter
      obtain ⟨hlast, habove⟩ := finish_wrap hc ‹_› hafter
      exact ⟨add32_within hoffset hlast, add32_within hbelow habove⟩
    · exact ⟨hoffset, hbelow⟩
  · rw [if_neg hspace] at hafter
    have hcells : s.cellsFor c = 1 := by
      rw [Xcomponent.cellsFor, if_neg htab, if_neg fun h => hspace h.1]
    rw [hcells]
    exact ⟨hoffset, add32_within hindex (finish_stored hafter List.mem_cons_self)⟩

/-! ### Sequences of calls -/

/-- A call with the character and its color. -/
abbrev PutStep (com : Xcomponent) (call : BitVec 16 × BitVec 8) (com' : Xcomponent) : Prop :=
  com' = windowPutchar call.1 call.2 com

/-- On a new component with a column, all calls that fit keep every index and value within the
buffer, and a character other than a tab that does not fit breaks the bounds. -/
theorem terminal_bounds {width height fontX fontY : BitVec 32}
    (hcolumns : 0 < (xcomponent width height fontX fontY).limitx)
    (hrun : Run PutStep (fun com call => com.Fits call.1) (xcomponent width height fontX fontY)
      com) :
    com.Within ∧ ∀ c color, (com.Fits c → (windowPutchar c color com).Within) ∧
      (c ≠ tabChar → ¬ com.Fits c → ¬ (windowPutchar c color com).Within) := by
  have hinv : com.Settled ∧ com.Within := by
    refine hrun.invariant (fun com => com.Settled ∧ com.Within) ?_ ?_
    · exact ⟨⟨rfl, rfl, hcolumns⟩, Nat.zero_le _, Nat.zero_le _, by simp [xcomponent],
        by simp [xcomponent]⟩
    · rintro com ⟨c, color⟩ com' ⟨hs, hw⟩ hfits rfl
      exact window_putchar_keeps hs hw hfits color
  obtain ⟨hs, hw⟩ := hinv
  refine ⟨hw, fun c color => ⟨fun hfits => (window_putchar_keeps hs hw hfits color).2, ?_⟩⟩
  exact fun htab hnot hafter => hnot (window_putchar_fits hs hw htab hafter)

instance (com : Xcomponent) (c : BitVec 16) : Decidable (com.Fits c) :=
  inferInstanceAs (Decidable (_ ∨ _))

/-- The letter `a` on a terminal of 12 by 6 cells. -/
theorem terminal_bounds_letter :
    0 < (xcomponent 100 100 8 16).limitx ∧
      (windowPutchar 0x61 7 (xcomponent 100 100 8 16)).Within := by
  refine ⟨by decide, ?_⟩
  have hrun : Run PutStep (fun com call => com.Fits call.1) (xcomponent 100 100 8 16)
      (windowPutchar 0x61 7 (xcomponent 100 100 8 16)) :=
    Run.refl.snoc (0x61, 7) (by decide) rfl
  exact (terminal_bounds (by decide) hrun).1

/-- Two backspaces behind a tab write before the buffer. -/
theorem tab_backspaces_underflow :
    ¬ ([(tabChar, 7), (backspaceChar, 7), (backspaceChar, 7)].foldl
        (fun com (call : BitVec 16 × BitVec 8) => windowPutchar call.1 call.2 com)
        (xcomponent 100 100 8 16)).Within := by
  intro hwithin
  have h := hwithin.written 0xffffffff (by decide +kernel)
  exact absurd h (by decide)

end Sirius.Gui
