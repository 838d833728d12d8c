import Sirius.Library.Bytes

/-!
# A text with a cursor

The abstract editor: a text and a cursor within it. A character is inserted at the cursor unless
the text has reached its capacity, a backspace deletes the character before the cursor, and the
cursor moves within the text. The last section says how the text of an editor is read off a
storage.
-/

namespace Sirius.Library

/-- A text with a cursor between two of its characters or at one of its ends. -/
structure Editor (α : Type*) where
  text : List α
  cursor : Nat
  cursor_le : cursor ≤ text.length

namespace Editor

variable {α : Type*}

/-- The empty text. -/
def empty : Editor α := ⟨[], 0, Nat.le_refl 0⟩

/-- A character at the cursor, unless the text is full. -/
def insert (capacity : Nat) (c : α) (e : Editor α) : Editor α :=
  if e.text.length < capacity then
    { text := e.text.insertIdx e.cursor c
      cursor := e.cursor + 1
      cursor_le := by
        rw [List.length_insertIdx_of_le_length e.cursor_le]
        exact Nat.succ_le_succ e.cursor_le }
  else e

/-- The character before the cursor deleted. -/
def backspace (e : Editor α) : Editor α where
  text := if e.cursor = 0 then e.text else e.text.eraseIdx (e.cursor - 1)
  cursor := e.cursor - 1
  cursor_le := by
    have hle := e.cursor_le
    split
    · omega
    · rw [List.length_eraseIdx_of_lt (by omega)]
      omega

/-- The cursor one character to the left. -/
def left (e : Editor α) : Editor α where
  text := e.text
  cursor := e.cursor - 1
  cursor_le := Nat.le_trans (Nat.sub_le ..) e.cursor_le

/-- The cursor one character to the right. -/
def right (e : Editor α) : Editor α where
  text := e.text
  cursor := min (e.cursor + 1) e.text.length
  cursor_le := Nat.min_le_right ..

variable {e : Editor α} {capacity : Nat} {c : α}

@[simp] theorem backspace_cursor : e.backspace.cursor = e.cursor - 1 := rfl

@[simp] theorem left_text : e.left.text = e.text := rfl

@[simp] theorem left_cursor : e.left.cursor = e.cursor - 1 := rfl

@[simp] theorem right_text : e.right.text = e.text := rfl

@[simp] theorem right_cursor : e.right.cursor = min (e.cursor + 1) e.text.length := rfl

theorem insert_text (h : e.text.length < capacity) :
    (e.insert capacity c).text = e.text.insertIdx e.cursor c := by
  rw [insert, if_pos h]

theorem insert_cursor (h : e.text.length < capacity) :
    (e.insert capacity c).cursor = e.cursor + 1 := by
  rw [insert, if_pos h]

theorem insert_full (h : ¬ e.text.length < capacity) : e.insert capacity c = e := if_neg h

theorem backspace_text (h : e.cursor ≠ 0) :
    e.backspace.text = e.text.eraseIdx (e.cursor - 1) := if_neg h

theorem backspace_start (h : e.cursor = 0) : e.backspace.text = e.text := if_pos h

end Editor

/-! ### Texts in a storage -/

variable {m m' : Bytes} {n k : Nat} {c : Byte}

theorem slice_getElem? {start i : Nat} :
    (slice m start n)[i]? = if i < n then some (m (start + i)) else none := by
  rw [slice, List.getElem?_map]
  split
  · rw [List.getElem?_range ‹_›, Option.map_some]
  · rw [List.getElem?_eq_none (by simpa using ‹¬ i < n›), Option.map_none]

/-- A character inserted at `k`: the characters behind it are one place on. -/
theorem slice_insert (hk : k ≤ n) (hlow : ∀ i < k, m' i = m i) (hself : m' k = c)
    (hhigh : ∀ i, k ≤ i → i < n → m' (i + 1) = m i) :
    slice m' 0 (n + 1) = (slice m 0 n).insertIdx k c := by
  apply List.ext_getElem?
  intro i
  rw [List.getElem?_insertIdx, slice_getElem?, Nat.zero_add, slice_length]
  by_cases hi : i < k
  · rw [if_pos hi, if_pos (by omega), slice_getElem?, if_pos (by omega), hlow i hi, Nat.zero_add]
  · rw [if_neg hi]
    by_cases he : i = k
    · subst he
      rw [if_pos rfl, if_pos hk, if_pos (by omega), hself]
    · rw [if_neg he, slice_getElem?, Nat.zero_add]
      obtain ⟨j, rfl⟩ : ∃ j, i = j + 1 := ⟨i - 1, by omega⟩
      by_cases hj : j < n
      · rw [if_pos (by omega), if_pos (by omega), hhigh j (by omega) hj, Nat.add_sub_cancel]
      · rw [if_neg (by omega), if_neg (by omega)]

/-- A character deleted at `k`: the characters behind it are one place back. -/
theorem slice_erase (hk : k < n) (hlow : ∀ i < k, m' i = m i)
    (hhigh : ∀ i, k ≤ i → i + 1 < n → m' i = m (i + 1)) :
    slice m' 0 (n - 1) = (slice m 0 n).eraseIdx k := by
  apply List.ext_getElem?
  intro i
  rw [List.getElem?_eraseIdx, slice_getElem?, Nat.zero_add]
  by_cases hi : i < k
  · rw [if_pos hi, if_pos (by omega), slice_getElem?, if_pos (by omega), hlow i hi, Nat.zero_add]
  · rw [if_neg hi, slice_getElem?, Nat.zero_add]
    by_cases hn : i + 1 < n
    · rw [if_pos (by omega), if_pos hn, hhigh i (by omega) hn]
    · rw [if_neg (by omega), if_neg hn]

end Sirius.Library
