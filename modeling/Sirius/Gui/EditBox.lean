import Sirius.Library.Editor
import Sirius.Library.Moves
import Sirius.Library.Unsigned

/-!
# The edit box

The keyboard handler of an edit box on its text area of `len` bytes. Addresses are relative to the
area, and the accesses to it are recorded. The pixels that are drawn are left out; what the
redrawing reads of the text is not. The reference is `Library.Editor` with the capacity `len`.

The fullness test looks at `offset` only: a character typed into a full text with the cursor
before its end is written behind the area, and a backspace at the end of a full text is ignored.
-/

namespace Sirius.Gui

open Library

def escKey : Nat := 0x1b
def controlKey : Nat := 0x5b
def rightKey : Nat := 0x43
def leftKey : Nat := 0x44
def backspaceKey : Nat := 0x08

/-- The object of an edit box, with the storage from its `addr` on. -/
structure Handle where
  x : Nat
  y : Nat
  width : Nat
  height : Nat
  flag : Nat
  cx : Nat
  cy : Nat
  offset : Nat
  len : Nat
  bytes : Nat
  addr : Traced

/-- The client area of the window that holds the edit box. -/
structure WindowArea where
  areaX : Nat
  areaY : Nat
  areaWidth : Nat
  areaHeight : Nat

/-- A new edit box. The coordinates are 32-bit numbers; the text area is cleared. -/
def editbox (x y width height : Nat) (w : WindowArea) : Handle where
  x := add32 w.areaX x
  y := add32 w.areaY y
  width := if width ≥ w.areaWidth then sub32 w.areaWidth x else width
  height := if height ≥ w.areaHeight then sub32 w.areaHeight y else height
  flag := 0
  cx := 0
  cy := 0
  offset := 0
  len := 0x2000
  bytes := 0
  addr := ⟨fun _ => 0, []⟩

/-! ### Redrawing -/

/-- The variables of the redrawing loops. -/
structure Refresh where
  s : Nat
  count : Nat
  c : Byte
  fill : Bool
  cx : Nat
  cy : Nat
  addr : Traced

/-- One character cell of the line `y`: behind a newline the rest of the line is blank. -/
def refreshCell (obj : Handle) (y : Nat) (r : Refresh) (x : Nat) : Refresh :=
  if r.fill then r
  else
    let r := if r.count < obj.bytes then
        { r with
          c := r.addr.bytes r.s
          s := r.s + 1
          addr := { r.addr with touched := r.s :: r.addr.touched } }
      else { r with c := 0x20 }
    let r := if r.c = 0x0a then { r with c := 0x20, fill := true } else r
    let r := if r.count = obj.offset then { r with cx := x, cy := y } else r
    { r with count := r.count + 1 }

/-- The values of a loop variable that starts at 4 and grows by `size` below `limit - size`. -/
def cellPlaces (limit size : Nat) : List Nat :=
  (List.range ((sub32 limit size - 4 + (size - 1)) / size)).map (4 + size * ·)

/-- One line of character cells. -/
def refreshLine (obj : Handle) (r : Refresh) (y : Nat) : Refresh :=
  (cellPlaces obj.width 8).foldl (refreshCell obj y) { r with fill := false }

/-- All lines. -/
def refreshLines (obj : Handle) : Refresh :=
  (cellPlaces obj.height 16).foldl (refreshLine obj)
    { s := 0, count := 0, c := 0, fill := false, cx := obj.cx, cy := obj.cy, addr := obj.addr }

def editboxRefresh (obj : Handle) : Handle :=
  if obj.flag = 1 then { obj with flag := 0 }
  else
    { obj with
      cx := (refreshLines obj).cx
      cy := (refreshLines obj).cy
      addr := (refreshLines obj).addr }

/-! ### Keys -/

/-- The next character of the standard input, 0 when there is none. -/
def getkey : List Nat → Nat × List Nat
  | [] => (0, [])
  | c :: keys => (c, keys)

/-- `memmove` of the C library, with `s1` and `s2` as positions in the storage. -/
def memmove (s1 s2 n : Nat) (m : Traced) : Traced :=
  if s1 > s2 ∧ s1 < s2 + n then Traced.moveDown s1 s2 n m else Traced.moveUp s1 s2 n m

/-- The effect of a character on the text, with the cursor before `len`. -/
def editKey (c : Nat) (obj : Handle) : Handle :=
  let s := obj.offset
  let obj := { obj with flag := 0 }
  if c = backspaceKey then
    if obj.bytes > 0 ∧ obj.offset > 0 then
      { obj with
        addr := memmove (s - 1) s (sub32 obj.bytes obj.offset) obj.addr
        offset := obj.offset - 1
        bytes := obj.bytes - 1 }
    else { obj with flag := 1 }
  else
    let addr := if obj.offset ≠ obj.bytes then
        memmove (s + 1) s (sub32 obj.bytes obj.offset) obj.addr
      else obj.addr
    { obj with
      addr := addr.store s (BitVec.ofNat 8 (c % 0x100))
      offset := add32 obj.offset 1
      bytes := add32 obj.bytes 1
      flag := 2 }

/-- The handler of one keyboard event; it also returns the characters it leaves in the input. -/
def mEdit (keys : List Nat) (obj : Handle) : Handle × List Nat :=
  let (c, keys) := getkey keys
  if c = escKey then
    let (c, keys) := getkey keys
    if c = controlKey then
      let (c, keys) := getkey keys
      let obj := if c = rightKey then
          if obj.offset < obj.bytes then { obj with offset := add32 obj.offset 1 } else obj
        else if c = leftKey then
          if obj.offset > 0 then { obj with offset := obj.offset - 1 } else obj
        else obj
      (editboxRefresh obj, keys)
    else (obj, keys)
  else
    let obj := if c ≠ 0 ∧ obj.offset < obj.len then editboxRefresh (editKey c obj) else obj
    let obj := if obj.flag % 2 = 0 then
        let obj := editboxRefresh obj
        { obj with flag := obj.flag ||| 1 }
      else obj
    (obj, keys)

/-- A key: a character other than 0, escape and backspace, the backspace, or an arrow. -/
inductive Key where
  | char (c : Byte) (typed : c ≠ 0 ∧ c.toNat ≠ escKey ∧ c.toNat ≠ backspaceKey)
  | backspace
  | left
  | right

/-- The characters a key puts into the standard input. -/
def Key.codes : Key → List Nat
  | .char c _ => [c.toNat]
  | .backspace => [backspaceKey]
  | .left => [escKey, controlKey, leftKey]
  | .right => [escKey, controlKey, rightKey]

/-- The handler for one key. -/
def Handle.press (obj : Handle) (key : Key) : Handle := (mEdit key.codes obj).1

/-- The key on the abstract editor. -/
def pressEditor (capacity : Nat) (e : Editor Byte) : Key → Editor Byte
  | .char c _ => e.insert capacity c
  | .backspace => e.backspace
  | .left => e.left
  | .right => e.right

/-- The box holds the text and cursor of `e`, within bounds, and nothing outside the text area
was accessed. -/
structure Handle.Shows (obj : Handle) (e : Editor Byte) : Prop where
  order : obj.offset ≤ obj.bytes
  room : obj.bytes ≤ obj.len
  inside : ∀ i ∈ obj.addr.touched, i < obj.len
  text : slice obj.addr.bytes 0 obj.bytes = e.text
  cursor : obj.offset = e.cursor

/-- Where the fullness test is the right one: a character meets room or the end of the text, a
backspace does not meet the cursor behind the last byte of the area. -/
def Handle.Handles (obj : Handle) : Key → Prop
  | .char _ _ => obj.bytes < obj.len ∨ obj.offset = obj.len
  | .backspace => obj.offset < obj.len
  | _ => True

variable {obj obj' obj'' : Handle} {e : Editor Byte} {c s1 s2 n : Nat} {m : Traced}

/-! ### The text is kept -/

/-- `obj'` has the text and the cursor of `obj`; only the text was read in between. -/
structure Handle.Same (obj obj' : Handle) : Prop where
  offset : obj'.offset = obj.offset
  bytes : obj'.bytes = obj.bytes
  len : obj'.len = obj.len
  area : obj'.addr.bytes = obj.addr.bytes
  touched : ∀ i ∈ obj'.addr.touched, i ∈ obj.addr.touched ∨ i < obj.bytes

namespace Handle.Same

theorem refl (obj : Handle) : obj.Same obj := ⟨rfl, rfl, rfl, rfl, fun _ => Or.inl⟩

theorem trans (h : obj.Same obj') (h' : obj'.Same obj'') : obj.Same obj'' where
  offset := h'.offset.trans h.offset
  bytes := h'.bytes.trans h.bytes
  len := h'.len.trans h.len
  area := h'.area.trans h.area
  touched i hi := by
    rcases h'.touched i hi with hi | hi
    · exact h.touched i hi
    · exact Or.inr (h.bytes ▸ hi)

theorem shows (h : obj.Same obj') (hs : obj.Shows e) : obj'.Shows e where
  order := by rw [h.offset, h.bytes]; exact hs.order
  room := by rw [h.bytes, h.len]; exact hs.room
  inside i hi := by
    rw [h.len]
    rcases h.touched i hi with hi | hi
    · exact hs.inside i hi
    · exact Nat.lt_of_lt_of_le hi hs.room
  text := by rw [h.area, h.bytes]; exact hs.text
  cursor := h.offset.trans hs.cursor

end Handle.Same

/-- The reads of the redrawing: the `count`-th character is read from place `s`, below `bytes`. -/
structure Refresh.Reads (obj : Handle) (r : Refresh) : Prop where
  area : r.addr.bytes = obj.addr.bytes
  place : r.s ≤ r.count
  touched : ∀ i ∈ r.addr.touched, i ∈ obj.addr.touched ∨ i < obj.bytes

theorem refresh_cell_reads {r : Refresh} (h : r.Reads obj) (y x : Nat) :
    (refreshCell obj y r x).Reads obj := by
  unfold refreshCell
  by_cases hfill : r.fill = true
  · rw [if_pos hfill]
    exact h
  · rw [if_neg hfill]
    have hplace := h.place
    by_cases hcount : r.count < obj.bytes
    · simp only [if_pos hcount]
      refine ⟨?_, ?_, ?_⟩
      · split <;> split <;> exact h.area
      · split <;> split <;> exact Nat.succ_le_succ h.place
      · intro i hi
        have hi : i ∈ r.s :: r.addr.touched := by
          revert hi
          split <;> split <;> exact id
        rcases List.mem_cons.mp hi with rfl | hi
        · exact Or.inr (by omega)
        · exact h.touched i hi
    · simp only [if_neg hcount]
      refine ⟨?_, ?_, ?_⟩
      · split <;> split <;> exact h.area
      · split <;> split <;> exact Nat.le_succ_of_le h.place
      · intro i hi
        refine h.touched i ?_
        revert hi
        split <;> split <;> exact id

theorem refresh_line_reads {r : Refresh} (h : r.Reads obj) (y : Nat) :
    (refreshLine obj r y).Reads obj := by
  unfold refreshLine
  generalize cellPlaces obj.width 8 = xs
  have hstart : Refresh.Reads obj { r with fill := false } := ⟨h.area, h.place, h.touched⟩
  generalize ({ r with fill := false } : Refresh) = r' at hstart
  induction xs generalizing r' with
  | nil => exact hstart
  | cons x xs ih => exact ih _ (refresh_cell_reads hstart y x)

theorem refresh_lines_reads (obj : Handle) : (refreshLines obj).Reads obj := by
  unfold refreshLines
  generalize cellPlaces obj.height 16 = ys
  have hstart : Refresh.Reads obj ⟨0, 0, 0, false, obj.cx, obj.cy, obj.addr⟩ :=
    ⟨rfl, Nat.le_refl 0, fun _ => Or.inl⟩
  generalize (⟨0, 0, 0, false, obj.cx, obj.cy, obj.addr⟩ : Refresh) = r at hstart
  induction ys generalizing r with
  | nil => exact hstart
  | cons y ys ih => exact ih _ (refresh_line_reads hstart y)

theorem refresh_same (obj : Handle) : obj.Same (editboxRefresh obj) := by
  have h := refresh_lines_reads obj
  unfold editboxRefresh
  split
  · exact ⟨rfl, rfl, rfl, rfl, fun _ => Or.inl⟩
  · exact ⟨rfl, rfl, rfl, h.area, h.touched⟩

/-! ### One key -/

theorem memmove_bytes (s1 s2 n : Nat) (m : Traced) :
    (memmove s1 s2 n m).bytes = copyBytes m.bytes s1 m.bytes s2 n := by
  unfold memmove
  split
  · exact Traced.move_down_bytes (by omega)
  · exact Traced.move_up_bytes (by omega)

theorem mem_memmove {i : Nat} : i ∈ (memmove s1 s2 n m).touched ↔
    i ∈ m.touched ∨ (s1 ≤ i ∧ i < s1 + n) ∨ (s2 ≤ i ∧ i < s2 + n) := by
  unfold memmove
  split
  · exact Traced.mem_move_down
  · exact Traced.mem_move_up

/-- The handler on a character: the text is edited when the cursor is before `len`. -/
theorem m_edit_same (hc : c ≠ 0) (hesc : c ≠ escKey) :
    (if obj.offset < obj.len then editKey c obj else obj).Same (mEdit [c] obj).1 := by
  simp only [mEdit, getkey, if_neg hesc, ne_eq, hc, not_false_iff, true_and]
  have hedit : (if obj.offset < obj.len then editKey c obj else obj).Same
      (if obj.offset < obj.len then editboxRefresh (editKey c obj) else obj) := by
    split
    · exact refresh_same _
    · exact .refl _
  refine hedit.trans ?_
  generalize (if obj.offset < obj.len then editboxRefresh (editKey c obj) else obj) = obj'
  split
  · have h := refresh_same obj'
    exact ⟨h.offset, h.bytes, h.len, h.area, h.touched⟩
  · exact .refl _

theorem press_right_same :
    (if obj.offset < obj.bytes then { obj with offset := add32 obj.offset 1 }
      else obj).Same (obj.press .right) :=
  refresh_same _

theorem press_left_same :
    (if obj.offset > 0 then { obj with offset := obj.offset - 1 } else obj).Same
      (obj.press .left) :=
  refresh_same _

/-- A backspace with a character before the cursor. -/
theorem edit_backspace_shows (h : obj.Shows e) (hpos : 0 < obj.offset) :
    (editKey backspaceKey obj).Shows e.backspace := by
  have horder := h.order
  have hroom := h.room
  have hsub : sub32 obj.bytes obj.offset = obj.bytes - obj.offset := sub32_of_le horder
  have hedit : editKey backspaceKey obj = { obj with
      flag := 0
      addr := memmove (obj.offset - 1) obj.offset (obj.bytes - obj.offset) obj.addr
      offset := obj.offset - 1
      bytes := obj.bytes - 1 } := by
    rw [editKey, if_pos rfl, if_pos ⟨Nat.lt_of_lt_of_le hpos horder, hpos⟩]
    simp only [hsub]
  rw [hedit]
  refine ⟨by dsimp only; omega, by dsimp only; omega, fun i hi => ?_, ?_, ?_⟩
  · dsimp only at hi ⊢
    rcases mem_memmove.mp hi with hi | hi | hi
    · exact h.inside i hi
    · omega
    · omega
  · dsimp only
    rw [Editor.backspace_text (by rw [← h.cursor]; omega), ← h.cursor, ← h.text, memmove_bytes]
    refine slice_erase (by omega) (fun i hi => ?_) fun i hlow hhigh => ?_
    · exact copy_bytes_outside (by omega)
    · obtain ⟨k, rfl⟩ := Nat.exists_eq_add_of_le hlow
      rw [copy_bytes_inside (by omega)]
      congr 1
      omega
  · exact congrArg (· - 1) h.cursor

/-- A character with room in the area. -/
theorem edit_char_shows (h : obj.Shows e) (hroom : obj.bytes < obj.len) (hlen : obj.len < 2 ^ 32)
    {c : Byte} (hc : c.toNat ≠ backspaceKey) :
    (editKey c.toNat obj).Shows (e.insert obj.len c) := by
  have horder := h.order
  have hsub : sub32 obj.bytes obj.offset = obj.bytes - obj.offset := sub32_of_le horder
  have hbyte : BitVec.ofNat 8 (c.toNat % 0x100) = c := by
    rw [show (0x100 : Nat) = 2 ^ 8 from rfl, Nat.mod_eq_of_lt c.isLt, BitVec.ofNat_toNat,
      BitVec.setWidth_eq]
  -- an empty move at the end of the text is no different from none
  have hmove : (if obj.offset ≠ obj.bytes then
        memmove (obj.offset + 1) obj.offset (obj.bytes - obj.offset) obj.addr else obj.addr) =
      memmove (obj.offset + 1) obj.offset (obj.bytes - obj.offset) obj.addr := by
    by_cases he : obj.offset = obj.bytes
    · rw [if_neg (not_not.mpr he), he, Nat.sub_self, memmove, if_neg (by omega)]
      rfl
    · rw [if_pos he]
  have hedit : editKey c.toNat obj = { obj with
      flag := 2
      addr := (memmove (obj.offset + 1) obj.offset (obj.bytes - obj.offset) obj.addr).store
        obj.offset c
      offset := obj.offset + 1
      bytes := obj.bytes + 1 } := by
    rw [editKey, if_neg hc]
    simp only [hsub, hbyte, hmove, add32_of_lt (show obj.offset + 1 < 2 ^ 32 by omega),
      add32_of_lt (show obj.bytes + 1 < 2 ^ 32 by omega)]
  have htext : e.text.length = obj.bytes := by rw [← h.text, slice_length]
  rw [hedit]
  refine ⟨by dsimp only; omega, by dsimp only; omega, fun i hi => ?_, ?_, ?_⟩
  · dsimp only at hi ⊢
    rcases List.mem_cons.mp hi with rfl | hi
    · omega
    · rcases mem_memmove.mp hi with hi | hi | hi
      · exact h.inside i hi
      · omega
      · omega
  · rw [Editor.insert_text (by rw [htext]; exact hroom), ← h.cursor, ← h.text]
    dsimp only [Traced.store]
    refine slice_insert horder (fun i hi => ?_) ?_ fun i hlow hhigh => ?_
    · rw [Function.update_of_ne (by omega), memmove_bytes, copy_bytes_outside (by omega)]
    · exact Function.update_self ..
    · obtain ⟨k, rfl⟩ := Nat.exists_eq_add_of_le hlow
      rw [Function.update_of_ne (by omega), memmove_bytes,
        show obj.offset + k + 1 = obj.offset + 1 + k by omega, copy_bytes_inside (by omega)]
  · rw [Editor.insert_cursor (by rw [htext]; exact hroom)]
    exact congrArg (· + 1) h.cursor

/-- The handler does what the abstract editor does. -/
theorem press_shows (h : obj.Shows e) (hlen : obj.len < 2 ^ 32) {key : Key}
    (hkey : obj.Handles key) : (obj.press key).Shows (pressEditor obj.len e key) := by
  have horder := h.order
  have hroom := h.room
  have htext : e.text.length = obj.bytes := by rw [← h.text, slice_length]
  cases key with
  | char c typed =>
      obtain ⟨hzero, hesc, hback⟩ := typed
      have hzero : c.toNat ≠ 0 := fun hc => hzero (BitVec.eq_of_toNat_eq hc)
      refine (m_edit_same hzero hesc).shows ?_
      by_cases hlt : obj.offset < obj.len
      · rw [if_pos hlt]
        have hbytes : obj.bytes < obj.len := hkey.resolve_right (by omega)
        exact edit_char_shows h hbytes hlen hback
      · -- the area is full and the cursor stands at its end
        rw [if_neg hlt, pressEditor, Editor.insert_full (by omega)]
        exact h
  | backspace =>
      refine (m_edit_same (by decide) (by decide)).shows ?_
      rw [if_pos (show obj.offset < obj.len from hkey)]
      by_cases hpos : 0 < obj.offset
      · exact edit_backspace_shows h hpos
      · have hzero : e.cursor = 0 := by rw [← h.cursor]; omega
        rw [editKey, if_pos rfl, if_neg (by dsimp only; omega)]
        refine ⟨h.order, h.room, h.inside, ?_, ?_⟩
        · exact h.text.trans (Editor.backspace_start hzero).symm
        · rw [pressEditor, Editor.backspace_cursor, hzero]
          exact h.cursor.trans hzero
  | left =>
      refine press_left_same.shows ?_
      by_cases hpos : obj.offset > 0
      · rw [if_pos hpos]
        exact ⟨by dsimp only; omega, hroom, h.inside, h.text, congrArg (· - 1) h.cursor⟩
      · rw [if_neg hpos]
        refine ⟨horder, hroom, h.inside, h.text, ?_⟩
        rw [pressEditor, Editor.left_cursor, ← h.cursor]
        omega
  | right =>
      refine press_right_same.shows ?_
      by_cases hlt : obj.offset < obj.bytes
      · rw [if_pos hlt, add32_of_lt (show obj.offset + 1 < 2 ^ 32 by omega)]
        refine ⟨?_, hroom, h.inside, h.text, ?_⟩
        · dsimp only
          omega
        · rw [pressEditor, Editor.right_cursor, ← h.cursor]
          dsimp only
          omega
      · rw [if_neg hlt]
        refine ⟨horder, hroom, h.inside, h.text, ?_⟩
        rw [pressEditor, Editor.right_cursor, ← h.cursor]
        omega

/-- A key that meets the wrong fullness test breaks the bounds or the text. -/
theorem press_breaks (h : obj.Shows e) (hlen : obj.len + 1 < 2 ^ 32) (hpos : 0 < obj.len)
    {key : Key} (hkey : ¬ obj.Handles key) :
    ¬ (obj.press key).Shows (pressEditor obj.len e key) := by
  intro hshows
  have horder := h.order
  have hroom := h.room
  cases key with
  | char c typed =>
      obtain ⟨hzero, hesc, hback⟩ := typed
      have hzero : c.toNat ≠ 0 := fun hc => hzero (BitVec.eq_of_toNat_eq hc)
      have hfull : ¬ (obj.bytes < obj.len ∨ obj.offset = obj.len) := hkey
      have hsame := @m_edit_same obj _ hzero hesc
      have hbytes := hsame.bytes
      have hlast := hshows.room
      rw [Handle.press, Key.codes, hbytes, hsame.len, if_pos (by omega), editKey, if_neg hback]
        at hlast
      dsimp only at hlast
      rw [add32_of_lt (by omega)] at hlast
      omega
  | backspace =>
      have hend : ¬ obj.offset < obj.len := hkey
      have hsame := @m_edit_same obj backspaceKey (by decide) (by decide)
      rw [if_neg hend] at hsame
      have hcursor := hshows.cursor
      rw [Handle.press, Key.codes, hsame.offset, pressEditor, Editor.backspace_cursor,
        ← h.cursor] at hcursor
      omega
  | left => exact hkey trivial
  | right => exact hkey trivial

theorem edit_key_len (c : Nat) (obj : Handle) : (editKey c obj).len = obj.len := by
  unfold editKey
  dsimp only
  split <;> split <;> rfl

theorem press_len (obj : Handle) (key : Key) : (obj.press key).len = obj.len := by
  cases key with
  | char c typed =>
      obtain ⟨hzero, hesc, -⟩ := typed
      rw [Handle.press, Key.codes,
        (m_edit_same (fun hc => hzero (BitVec.eq_of_toNat_eq hc)) hesc).len]
      split
      · exact edit_key_len _ obj
      · rfl
  | backspace =>
      rw [Handle.press, Key.codes, (m_edit_same (by decide) (by decide)).len]
      split
      · exact edit_key_len _ obj
      · rfl
  | left =>
      rw [press_left_same.len]
      split <;> rfl
  | right =>
      rw [press_right_same.len]
      split <;> rfl

/-! ### Key sequences -/

/-- The box after a sequence of keys. -/
def Handle.pressAll (obj : Handle) (keys : List Key) : Handle := keys.foldl Handle.press obj

/-- The abstract editor after a sequence of keys. -/
def editorAfter (capacity : Nat) (e : Editor Byte) (keys : List Key) : Editor Byte :=
  keys.foldl (pressEditor capacity) e

theorem press_all_snoc (obj : Handle) (typed : List Key) (key : Key) :
    obj.pressAll (typed ++ [key]) = (obj.pressAll typed).press key :=
  List.foldl_concat ..

theorem editor_after_snoc (n : Nat) (e : Editor Byte) (typed : List Key) (key : Key) :
    editorAfter n e (typed ++ [key]) = pressEditor n (editorAfter n e typed) key :=
  List.foldl_concat ..

theorem press_all_len (obj : Handle) (typed : List Key) : (obj.pressAll typed).len = obj.len := by
  induction typed using List.reverseRecOn with
  | nil => rfl
  | append_singleton typed key ih => rw [press_all_snoc, press_len, ih]

/-- For every sequence of keys, a new edit box agrees with the abstract editor all along, within
bounds, exactly when its fullness test is right at every key. -/
theorem edit_box_iff (x y width height : Nat) (w : WindowArea) (keys : List Key) :
    (∀ typed, typed <+: keys → ((editbox x y width height w).pressAll typed).Shows
        (editorAfter 0x2000 .empty typed)) ↔
      ∀ typed key, typed ++ [key] <+: keys →
        ((editbox x y width height w).pressAll typed).Handles key := by
  set obj := editbox x y width height w
  have hlen : ∀ typed, (obj.pressAll typed).len = 0x2000 := press_all_len obj
  constructor
  · intro hall typed key hprefix
    by_contra hkey
    have hbefore := hall typed ((List.prefix_append ..).trans hprefix)
    have hafter := hall (typed ++ [key]) hprefix
    rw [press_all_snoc, editor_after_snoc, ← hlen typed] at hafter
    rw [← hlen typed] at hbefore
    exact press_breaks hbefore (by rw [hlen]; decide) (by rw [hlen]; decide) hkey hafter
  · intro hkeys typed
    induction typed using List.reverseRecOn with
    | nil => exact fun _ => ⟨Nat.le_refl 0, Nat.zero_le _, fun i hi => absurd hi (by simp [
        Handle.pressAll, obj, editbox]), rfl, rfl⟩
    | append_singleton typed key ih =>
        intro hprefix
        have hbefore := ih ((List.prefix_append ..).trans hprefix)
        have hnext := press_shows hbefore (by rw [hlen]; decide) (hkeys typed key hprefix)
        rw [hlen] at hnext
        rw [press_all_snoc, editor_after_snoc]
        exact hnext

/-- A new edit box and one character that is typed again and again. -/
def fullBox : Handle := editbox 0 0 100 100 ⟨0, 0, 200, 200⟩
def letterKey : Key := .char 0x61 (by decide)

theorem editor_typed (n : Nat) (hn : n ≤ 0x2000) :
    (editorAfter 0x2000 .empty (List.replicate n letterKey)).text.length = n ∧
      (editorAfter 0x2000 .empty (List.replicate n letterKey)).cursor = n := by
  induction n with
  | zero => exact ⟨rfl, rfl⟩
  | succ n ih =>
      obtain ⟨htext, hcursor⟩ := ih (by omega)
      have hnext : editorAfter 0x2000 .empty (List.replicate (n + 1) letterKey) =
          (editorAfter 0x2000 .empty (List.replicate n letterKey)).insert 0x2000 0x61 := by
        rw [List.replicate_succ']
        exact List.foldl_concat ..
      rw [hnext, Editor.insert_text (by omega), Editor.insert_cursor (by omega), hcursor,
        List.length_insertIdx_of_le_length (by omega), htext]
      exact ⟨rfl, rfl⟩

/-- A full text with the cursor before its last character takes one more character, which pushes
the last one behind the area. -/
theorem full_text_overrun :
    ¬ ∀ typed, typed <+: List.replicate 0x2000 letterKey ++ [.left] ++ [letterKey] →
      (fullBox.pressAll typed).Shows (editorAfter 0x2000 .empty typed) := by
  intro hall
  generalize hkeys : List.replicate 0x2000 letterKey ++ [Key.left] = keys at hall
  have hbefore := hall keys (List.prefix_append ..)
  have hafter := hall (keys ++ [letterKey]) (List.prefix_refl _)
  obtain ⟨htext, hcursor⟩ := editor_typed 0x2000 (Nat.le_refl _)
  have heditor : editorAfter 0x2000 .empty keys =
      (editorAfter 0x2000 .empty (List.replicate 0x2000 letterKey)).left := by
    rw [← hkeys, editor_after_snoc]
    rfl
  have hbytes : (fullBox.pressAll keys).bytes = 0x2000 := by
    have h := congrArg List.length hbefore.text
    rw [slice_length, heditor, Editor.left_text, htext] at h
    exact h
  have hoffset : (fullBox.pressAll keys).offset = 0x1fff := by
    rw [hbefore.cursor, heditor, Editor.left_cursor, hcursor]
  have hlen : (fullBox.pressAll keys).len = 0x2000 := press_all_len fullBox keys
  have hkey : ¬ (fullBox.pressAll keys).Handles letterKey := by
    rintro (hroom | hend)
    · rw [hbytes, hlen] at hroom
      exact absurd hroom (by decide)
    · rw [hoffset, hlen] at hend
      exact absurd hend (by decide)
  rw [press_all_snoc, editor_after_snoc, ← hlen] at hafter
  rw [← hlen] at hbefore
  exact press_breaks hbefore (by rw [hlen]; decide) (by rw [hlen]; decide) hkey hafter

end Sirius.Gui
