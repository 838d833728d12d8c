import Mathlib.Tactic
import Sirius.Library.Bytes

/-!
# Decimal numerals

The decimal numeral of a number as a text of bytes. A number is known from its numeral, and a list
of numbers from its numerals with a separator that is no digit between them.
-/

namespace Sirius.Library

/-- The digits of the number, from the first one on. -/
def decimalText (n : Nat) : List Byte := (Nat.toDigits 10 n).map fun c => BitVec.ofNat 8 c.toNat

/-- The numerals of some numbers, with a separator between them. -/
def separatedText (sep : Byte) (numbers : List Nat) : List Byte :=
  [sep].intercalate (numbers.map decimalText)

variable {n m : Nat} {c sep : Byte} {numbers numbers' : List Nat}

theorem decimal_digit_range {d : Char} (h : d ∈ Nat.toDigits 10 n) :
    0x30 ≤ d.toNat ∧ d.toNat ≤ 0x39 := by
  have hdigit := Nat.isDigit_of_mem_toDigits (by decide) (by decide) h
  rw [Char.isDigit, Bool.and_eq_true, decide_eq_true_iff, decide_eq_true_iff] at hdigit
  exact ⟨hdigit.1, hdigit.2⟩

/-- A numeral consists of digits. -/
theorem decimal_text_digit (h : c ∈ decimalText n) : 0x30 ≤ c.toNat ∧ c.toNat ≤ 0x39 := by
  obtain ⟨d, hd, rfl⟩ := List.mem_map.mp h
  have hrange := decimal_digit_range hd
  rw [BitVec.toNat_ofNat]
  omega

theorem decimal_text_ne_nil (n : Nat) : decimalText n ≠ [] := by
  rw [decimalText, ne_eq, List.map_eq_nil_iff]
  exact Nat.toDigits_ne_nil

theorem decimal_text_of_lt (h : n < 10) : decimalText n = [BitVec.ofNat 8 n + 0x30#8] := by
  rw [decimalText, Nat.toDigits_of_lt_base h]
  interval_cases n <;> rfl

/-- The last digit of a longer numeral. -/
theorem decimal_text_of_le (h : 10 ≤ n) :
    decimalText n = decimalText (n / 10) ++ [BitVec.ofNat 8 (n % 10) + 0x30#8] := by
  have hlast := Nat.mod_lt n (show 0 < 10 by decide)
  rw [← decimal_text_of_lt hlast, decimalText, Nat.toDigits_of_base_le (by decide) h,
    List.map_append, decimalText, decimalText, Nat.toDigits_of_lt_base hlast]

/-- A number is known from its numeral. -/
theorem decimal_text_injective : Function.Injective decimalText := by
  intro n m h
  have hback : ∀ k, (decimalText k).map (fun b => Char.ofNat b.toNat) = Nat.toDigits 10 k := by
    intro k
    rw [decimalText, List.map_map]
    refine (List.map_congr_left fun d hd => ?_).trans (List.map_id _)
    have hrange := decimal_digit_range hd
    have hbyte : (BitVec.ofNat 8 d.toNat).toNat = d.toNat := by
      rw [BitVec.toNat_ofNat]
      omega
    rw [Function.comp_apply, hbyte, Char.ofNat_toNat, id]
  have hdigits : Nat.toDigits 10 n = Nat.toDigits 10 m := by rw [← hback n, ← hback m, h]
  rw [← @Nat.ofDigitChars_ten_toDigits n, hdigits, Nat.ofDigitChars_ten_toDigits]

/-! ### Numerals with separators -/

/-- A byte that can stand between numerals. -/
def IsSeparator (sep : Byte) : Prop := sep.toNat < 0x30 ∨ 0x39 < sep.toNat

theorem IsSeparator.not_mem (hsep : IsSeparator sep) (n : Nat) : sep ∉ decimalText n := by
  intro hmem
  have hdigit := decimal_text_digit hmem
  unfold IsSeparator at hsep
  omega

/-- The numbers are known from the text. -/
theorem separated_text_injective (hsep : IsSeparator sep) (hne : numbers ≠ [])
    (hne' : numbers' ≠ []) (h : separatedText sep numbers = separatedText sep numbers') :
    numbers = numbers' := by
  have hsplit : ∀ l : List Nat, l ≠ [] → (separatedText sep l).splitOn sep = l.map decimalText := by
    intro l hl
    refine List.splitOn_intercalate sep (fun text htext => ?_) ?_
    · obtain ⟨n, -, rfl⟩ := List.mem_map.mp htext
      exact hsep.not_mem n
    · exact fun hnil => hl (List.map_eq_nil_iff.mp hnil)
  refine List.map_injective_iff.mpr decimal_text_injective ?_
  rw [← hsplit numbers hne, ← hsplit numbers' hne', h]

/-- The text consists of digits and separators. -/
theorem mem_separated_text (h : c ∈ separatedText sep numbers) :
    c = sep ∨ (0x30 ≤ c.toNat ∧ c.toNat ≤ 0x39) := by
  unfold separatedText at h
  induction numbers with
  | nil => cases h
  | cons n numbers ih =>
      cases numbers with
      | nil =>
          rw [List.map_singleton, List.intercalate_singleton] at h
          exact .inr (decimal_text_digit h)
      | cons next numbers =>
          rw [List.map_cons, List.map_cons, List.intercalate_cons_cons, List.mem_append,
            List.mem_append, List.mem_singleton] at h
          rcases h with (hfirst | rfl) | hrest
          · exact .inr (decimal_text_digit hfirst)
          · exact .inl rfl
          · exact ih hrest

end Sirius.Library
