import Mathlib.Tactic
import Sirius.Library.Strings

/-!
# Texts stored byte by byte

`storeText m a text` is the memory behind the stores of the bytes of a text from an address on, one
after the other.
-/

namespace Sirius.Library

/-- The memory with the text at the address `a`. -/
def storeText (m : Bytes) (a : Nat) : List Byte → Bytes
  | [] => m
  | c :: text => storeText (Function.update m a c) (a + 1) text

variable {m : Bytes} {a i : Nat} {text s t : List Byte} {c : Byte}

theorem store_text_outside (h : i < a ∨ a + text.length ≤ i) : storeText m a text i = m i := by
  induction text generalizing m a with
  | nil => rfl
  | cons c text ih =>
      rw [List.length_cons] at h
      rw [storeText, ih (by omega), Function.update_of_ne (by omega)]

theorem store_text_inside (h : i < text.length) :
    storeText m a text (a + i) = text.getD i 0#8 := by
  induction text generalizing m a i with
  | nil => cases h
  | cons c text ih =>
      rw [storeText]
      cases i with
      | zero =>
          rw [store_text_outside (.inl (by omega)), Nat.add_zero, Function.update_self]
          rfl
      | succ i =>
          have hrest := ih (m := Function.update m a c) (a := a + 1) (Nat.lt_of_succ_lt_succ h)
          rwa [Nat.add_assoc, Nat.add_comm 1 i] at hrest

/-- A store in front of the text. -/
theorem store_text_update (h : i < a) (m : Bytes) (text : List Byte) :
    Function.update (storeText m a text) i c = storeText (Function.update m i c) a text := by
  induction text generalizing m a with
  | nil => rfl
  | cons d text ih =>
      rw [storeText, storeText, ih (by omega), Function.update_comm (by omega)]

/-- A text with a null byte behind it. -/
theorem store_text_holds (m : Bytes) (a : Nat) (text : List Byte) :
    HoldsString (Function.update (storeText m a text) (a + text.length) 0#8) a text := by
  refine .of_bytes (fun i hi => ?_) (Function.update_self ..)
  rw [Function.update_of_ne (by omega), store_text_inside hi, List.getD_eq_getElem _ _ hi]

/-- A text in front of a null byte. -/
theorem store_text_before_null (h : m (a + text.length) = 0#8) :
    HoldsString (storeText m a text) a text := by
  have hend : storeText m a text (a + text.length) = 0#8 := by
    rw [store_text_outside (.inr (Nat.le_refl _)), h]
  have hholds := store_text_holds m a text
  rwa [← hend, Function.update_eq_self] at hholds

end Sirius.Library
