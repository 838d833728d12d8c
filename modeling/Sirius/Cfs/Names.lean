import Mathlib.Data.List.GetD
import Sirius.Library.Strings

/-!
# File names

The string functions that the user library and the host tool apply to file names. A C string is
the list of the bytes before its terminating null byte; in a directory entry a name is padded with
spaces to 96 bytes.
-/

namespace Sirius.Cfs

open Library

/-- `'/'` -/
def slash : Byte := 0x2f#8

/-- `' '` -/
def space : Byte := 0x20#8

/-- The string at `a`, in a buffer that ends after `n` more bytes. -/
def cString (m : Bytes) : (n a : Nat) → List Byte
  | 0, _ => []
  | n + 1, a => if m a = 0#8 then [] else m a :: cString m n (a + 1)

/-- The memory of a string, with the null byte that ends it. -/
def stringBytes (s : List Byte) : Bytes := fun i => s.getD i 0#8

/-- `strcpy(m + a, s)` -/
def strcpy (m : Bytes) (a : Nat) (s : List Byte) : Bytes :=
  copyBytes m a (stringBytes s) 0 (s.length + 1)

/-- The loop of `get_file_name`: `r` starts behind the last slash before `s`. -/
def fileNameLoop : (s r : List Byte) → List Byte
  | [], r => r
  | c :: s, r => fileNameLoop s (if c = slash then s else r)

/-- `get_file_name`, the same text in the user library and the host tool. -/
def getFileName (path : List Byte) : List Byte := fileNameLoop path path

/-- The loop that pads the 96 bytes of a name at `e`: null bytes become spaces. -/
def padNulls (m : Bytes) (e : Nat) : Bytes :=
  fun i => if e ≤ i ∧ i < e + 96 ∧ m i = 0#8 then space else m i

/-- `assert_fn`: the spaces at the end of the first `n` bytes become null bytes. -/
def assertFn (fn : Bytes) : (n : Nat) → Bytes
  | 0 => fn
  | n + 1 => if fn n = space then assertFn (Function.update fn n 0#8) n else fn

/-- A name that the padding does not change: it fits, and it does not end with a space. -/
structure TrimmedName (name : List Byte) : Prop where
  nonempty : name ≠ []
  length : name.length ≤ 96
  noNull : 0#8 ∉ name
  noSpace : name.getLast? ≠ some space

variable {m : Bytes} {e i a n : Nat} {s t : List Byte}

theorem pad_nulls_outside (h : i < e ∨ e + 96 ≤ i) : padNulls m e i = m i := by
  simp only [padNulls, ite_eq_right_iff]
  omega

/-- The padded name in a cleared field: the string, then spaces. -/
theorem pad_nulls_copied (hclear : ∀ k < 96, m (e + k) = 0#8) (hs : 0#8 ∉ s) (hi : i < 96) :
    padNulls (strcpy m e s) e (e + i) = s.getD i space := by
  have hbyte : strcpy m e s (e + i) = s.getD i 0#8 := by
    by_cases hin : i < s.length + 1
    · rw [strcpy, copy_bytes_start hin, stringBytes]
    · rw [strcpy, copy_bytes_outside (by omega), hclear i hi, List.getD_eq_getElem?_getD,
        List.getElem?_eq_none (by omega)]
      rfl
  rw [padNulls, hbyte]
  by_cases hin : i < s.length
  · have hne : s[i] ≠ 0#8 := fun heq => hs (heq ▸ List.getElem_mem hin)
    simp [hin, hne]
  · simp [Nat.le_of_not_lt hin, hi]

/-- The padded name in a new entry. -/
theorem pad_nulls_strcpy (hs : 0#8 ∉ s) (hi : i < 96) :
    padNulls (strcpy (fun _ => 0#8) 0 s) 0 i = s.getD i space := by
  have hbyte := pad_nulls_copied (m := fun _ => 0#8) (e := 0) (fun _ _ => rfl) hs hi
  rwa [Nat.zero_add] at hbyte

/-- A name without a slash is its own last component. -/
theorem get_file_name_eq (hs : slash ∉ s) : getFileName s = s := by
  have hloop : ∀ t r : List Byte, slash ∉ t → fileNameLoop t r = r := by
    intro t
    induction t with
    | nil => exact fun r _ => rfl
    | cons c t ih =>
        intro r ht
        rw [List.mem_cons, not_or] at ht
        rw [fileNameLoop, if_neg (Ne.symm ht.1)]
        exact ih r ht.2
  exact hloop s s hs

theorem strcpy_outside (h : i < a ∨ a + s.length < i) : strcpy m a s i = m i :=
  copy_bytes_outside (by omega)

/-- A string that was copied. -/
theorem strcpy_holds (m : Bytes) (a : Nat) (t : List Byte) : HoldsString (strcpy m a t) a t := by
  intro i hi
  rw [strcpy, copy_bytes_start (by omega)]
  rfl

/-- A string without a null byte is read back. -/
theorem c_string_eq (h : HoldsString m a t) (ht : 0#8 ∉ t) (hn : t.length < n) :
    cString m n a = t := by
  induction t generalizing n a with
  | nil =>
      obtain ⟨n, rfl⟩ : ∃ k, n = k + 1 := ⟨n - 1, by rw [List.length_nil] at hn; omega⟩
      rw [cString, if_pos (HoldsString.nil_iff.mp h)]
  | cons c t ih =>
      rw [List.length_cons] at hn
      obtain ⟨n, rfl⟩ : ∃ k, n = k + 1 := ⟨n - 1, by omega⟩
      obtain ⟨hc, hrest⟩ := HoldsString.cons_iff.mp h
      rw [List.mem_cons, not_or] at ht
      rw [cString, hc, if_neg (Ne.symm ht.1), ih hrest ht.2 (by omega)]

/-- The bytes of a string are not null. -/
theorem null_not_mem_c_string (m : Bytes) (n : Nat) : ∀ a, 0#8 ∉ cString m n a := by
  induction n with
  | zero => exact fun _ => List.not_mem_nil
  | succ n ih =>
      intro a
      rw [cString]
      split
      case isTrue => exact List.not_mem_nil
      case isFalse hne =>
        rw [List.mem_cons, not_or]
        exact ⟨Ne.symm hne, ih (a + 1)⟩

/-- A null byte ends the string. -/
theorem c_string_length {k : Nat} (hzero : m (a + k) = 0#8) : (cString m n a).length ≤ k := by
  induction n generalizing a k with
  | zero => exact Nat.zero_le k
  | succ n ih =>
      rw [cString]
      split
      case isTrue => exact Nat.zero_le k
      case isFalse hne =>
        cases k with
        | zero => exact absurd hzero hne
        | succ k =>
            rw [← Nat.add_assoc, Nat.add_right_comm] at hzero
            exact Nat.succ_le_succ (ih hzero)

/-- `assert_fn` clears the spaces behind which there are only spaces. The induction is on the bytes,
from the last one. -/
theorem assert_fn_apply (n : Nat) : ∀ fn : Bytes,
    assertFn fn n i = if i < n ∧ ∀ j, i ≤ j → j < n → fn j = space then 0#8 else fn i := by
  induction n with
  | zero => exact fun fn => (if_neg fun h => absurd h.1 (Nat.not_lt_zero i)).symm
  | succ n ih =>
      intro fn
      rw [assertFn]
      split
      case isTrue hspace =>
        rw [ih]
        by_cases hi : i < n
        · rw [Function.update_of_ne (by omega)]
          refine if_congr ?_ rfl rfl
          rw [and_iff_right hi, and_iff_right (show i < n + 1 by omega)]
          refine forall₂_congr fun j hij => ?_
          by_cases hj : j < n
          · rw [Function.update_of_ne (by omega)]
            simp only [hj, show j < n + 1 by omega]
          · by_cases hlast : j = n
            · simp [hlast, hspace]
            · exact ⟨fun _ h => absurd h (by omega), fun _ h => absurd h hj⟩
        · rw [if_neg fun h => hi h.1]
          by_cases hlast : i = n
          · rw [hlast, Function.update_self, if_pos]
            exact ⟨by omega, fun j hj hjn => (show j = n by omega) ▸ hspace⟩
          · rw [Function.update_of_ne hlast, if_neg fun h => hlast (by omega)]
      case isFalse hspace =>
        exact (if_neg fun h => hspace (h.2 n (by omega) (by omega))).symm

theorem assert_fn_behind (n : Nat) (fn : Bytes) (hi : n ≤ i) : assertFn fn n i = fn i := by
  rw [assert_fn_apply, if_neg fun h => absurd h.1 (by omega)]

/-- Padding a name again undoes `assert_fn`. -/
theorem pad_nulls_assert_fn {fn : Bytes} (hfn : ∀ k < 96, fn k ≠ 0#8) (hi : i < 96) :
    padNulls (assertFn fn 96) 0 i = fn i := by
  have hbyte : assertFn fn 96 i = 0#8 ∧ fn i = space ∨ assertFn fn 96 i = fn i := by
    rw [assert_fn_apply]
    split
    case isTrue h => exact .inl ⟨rfl, h.2 i le_rfl hi⟩
    case isFalse => exact .inr rfl
  rw [padNulls]
  obtain ⟨hnull, hspace⟩ | hsame := hbyte
  · rw [if_pos ⟨Nat.zero_le i, by omega, hnull⟩, hspace]
  · rw [hsame, if_neg fun h => hfn i hi h.2.2]

/-! ### Names that the padding does not change -/

namespace TrimmedName

/-- The last character is none of the padding. -/
theorem last_ne_space (h : TrimmedName s) : s.getD (s.length - 1) space ≠ space := by
  have hpos : 0 < s.length := List.length_pos_iff.mpr h.nonempty
  have hlast : s[s.length - 1]? = some (s.getD (s.length - 1) space) := by
    rw [List.getD_eq_getElem?_getD, List.getElem?_eq_getElem (by omega)]
    rfl
  intro hspace
  rw [hspace, ← List.getLast?_eq_getElem?] at hlast
  exact h.noSpace hlast

/-- A padded name of one length does not end inside another one. -/
theorem length_le (h : TrimmedName s) (hsame : ∀ k < 96, s.getD k space = t.getD k space) :
    s.length ≤ t.length := by
  by_contra hlt
  have hpos : 0 < s.length := List.length_pos_iff.mpr h.nonempty
  have hlength := h.length
  have hlast := hsame (s.length - 1) (by omega)
  have hpad : t.getD (s.length - 1) space = space := by
    rw [List.getD_eq_getElem?_getD, List.getElem?_eq_none (by omega)]
    rfl
  exact h.last_ne_space (hlast.trans hpad)

/-- Names that are equal when padded are equal. -/
theorem eq_of_padded (h : TrimmedName s) (h' : TrimmedName t)
    (hsame : ∀ k < 96, s.getD k space = t.getD k space) : s = t := by
  have hle := h.length_le hsame
  have hge := h'.length_le fun k hk => (hsame k hk).symm
  have hlength := h.length
  refine List.ext_getElem (by omega) fun k hk hk' => ?_
  have hbyte := hsame k (by omega)
  rwa [List.getD_eq_getElem _ _ hk, List.getD_eq_getElem _ _ hk'] at hbyte

/-- `assert_fn` gives the name back, as a string that a null byte ends. -/
theorem assert_fn_holds (h : TrimmedName s) {fn : Bytes} (hfn : ∀ k < 96, fn k = s.getD k space)
    (hend : fn 96 = 0#8) : HoldsString (assertFn fn 96) 0 s := by
  have hpos : 0 < s.length := List.length_pos_iff.mpr h.nonempty
  have hlength := h.length
  intro i hi
  rw [Nat.zero_add, assert_fn_apply]
  by_cases hin : i < s.length
  · rw [if_neg, hfn i (by omega), List.getD_eq_getElem _ _ hin, List.getD_eq_getElem _ _ hin]
    intro hspaces
    have hlast := hspaces.2 (s.length - 1) (by omega) (by omega)
    rw [hfn _ (by omega)] at hlast
    exact h.last_ne_space hlast
  · rw [List.getD_eq_default _ _ (by omega)]
    by_cases hfull : i < 96
    · rw [if_pos]
      refine ⟨hfull, fun j hij hj => ?_⟩
      rw [hfn j hj, List.getD_eq_default _ _ (by omega)]
    · obtain rfl : i = 96 := by omega
      rw [if_neg fun hlt => absurd hlt.1 (by omega)]
      exact hend

end TrimmedName

end Sirius.Cfs
