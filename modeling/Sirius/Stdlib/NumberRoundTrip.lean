import Sirius.Stdio.NumeralBuffers
import Sirius.Stdlib.Strtol

/-!
# Numbers written and read back

The numerals that `itoa`, `ltoa`, `utoa` and `i2hex` store are texts that `strtol` and `strtoul`
read. `numerals_read_back` is the round trip of both directions: what is read is the number that
was written, cut off only where `strtol` has no room for it.
-/

namespace Sirius.Stdlib

open Sirius.Library Sirius.Stdio

variable {m : Bytes} {a base : Nat} {v : Int} {digits : List Byte}

/-! ### Numerals are number texts -/

theorem char_value_digit : ∀ d : Fin 16, charValue (digitByte d).toNat = some d.val ∧
    digitValue (digitByte d) = d.val := by
  decide +kernel

theorem isDigit_of_digit {c : Byte} (hbase : base ≤ 16) (h : AreDigits base digits)
    (hc : c ∈ digits) : IsDigit base c ∧ digitNumber c = digitValue c := by
  obtain ⟨d, hd, rfl⟩ := h c hc
  obtain ⟨hvalue, hnumber⟩ := char_value_digit ⟨d, by omega⟩
  refine ⟨⟨d, hvalue, by omega⟩, ?_⟩
  rw [digitNumber, hvalue, hnumber]
  rfl

/-- Both readings of a list of digits agree. -/
theorem digits_number_eq (hbase : base ≤ 16) (h : AreDigits base digits) :
    digitsNumber base digits = readDigits base digits := by
  suffices hfold : ∀ n : Nat, digits.foldl (fun v c => v * (base : Int) + digitNumber c) (n : Int) =
      ((digits.foldl (fun n c => n * base + digitValue c) n : Nat) : Int) from hfold 0
  induction digits with
  | nil => exact fun n => rfl
  | cons c digits ih =>
      intro n
      have hhead := (isDigit_of_digit hbase h List.mem_cons_self).2
      have hnext : (n : Int) * base + digitNumber c = ((n * base + digitValue c : Nat) : Int) := by
        rw [hhead]
        push_cast
        ring
      rw [List.foldl_cons, List.foldl_cons, hnext]
      exact ih (fun c hc => h c (List.mem_cons_of_mem _ hc)) _

/-- A numeral with its sign is a text that both functions accept. -/
theorem canonical_number_text {n : Nat} {read : Byte → Int} (hread : ReadsAscii read)
    (hlow : 2 ≤ base) (hbase : base ≤ 16) (h : Canonical base n digits) (v : Int) :
    NumberText read base [] (if v < 0 then [0x2d#8] else []) digits [] where
  all_blank := fun c hc => absurd hc List.not_mem_nil
  one_sign := by
    split
    · exact .inr (.inl rfl)
    · exact .inl rfl
  all_digits := fun c hc => (isDigit_of_digit hbase h.digits hc).1
  some_digit := h.nonempty
  stops := fun d hd => by
    rw [List.headD_nil, hread 0#8 rfl, show ((0#8 : Byte).toNat : Int) = 0 from rfl,
      char_value_x.2.2] at hd
    cases hd
  no_prefix := fun _ => ⟨by decide, by decide⟩
  base_low := by omega
  base_high := by omega

/-- `strtol` reads a stored numeral, cut off at its limits. -/
theorem strtol_numeral (hlow : 2 ≤ base) (hbase : base ≤ 16) (h : HoldsNumeral m a base v) :
    ∃ e, m e = 0#8 ∧ Returns (fun n => strtol n m a base) (max (min v longMax) longMin, e) := by
  obtain ⟨digits, hcanonical, hholds⟩ := h
  have htext := canonical_number_text reads_unsigned hlow hbase hcanonical v
  have htext' : HoldsString m a ([] ++ ((if v < 0 then [0x2d#8] else []) ++ (digits ++ []))) := by
    rwa [List.append_nil, List.nil_append]
  have hcall := strtol_reads htext htext'
  have hvalue : digitsNumber base digits = v.natAbs := by
    rw [digits_number_eq hbase hcanonical.digits, hcanonical.value]
  refine ⟨_, hholds.terminated, ?_⟩
  rw [hvalue, List.nil_append] at hcall
  have hclamp : (if (if v < 0 then [0x2d#8] else []) = [0x2d#8] then max (-(v.natAbs : Int)) longMin
      else min (v.natAbs : Int) longMax) = max (min v longMax) longMin := by
    unfold longMax longMin
    by_cases hneg : v < 0
    · rw [if_pos hneg, if_pos rfl]
      omega
    · rw [if_neg hneg, if_neg (by simp)]
      omega
  rwa [hclamp] at hcall

/-- `strtoul` reads a stored numeral up to its limit. -/
theorem strtoul_numeral {n : Nat} (hlow : 2 ≤ base) (hbase : base ≤ 16) (hn : n < 2 ^ 32)
    (h : HoldsNumeral m a base n) :
    ∃ e, m e = 0#8 ∧ Returns (fun fuel => strtoul fuel m a base) ((n : Int), e) := by
  obtain ⟨digits, hcanonical, hholds⟩ := h
  have hvalue : digitsNumber base digits = n := by
    rw [digits_number_eq hbase hcanonical.digits, hcanonical.value, Int.natAbs_natCast]
  have hnot : ¬ (n : Int) < 0 := by omega
  have htext := canonical_number_text reads_signed hlow hbase hcanonical n
  rw [if_neg hnot] at htext hholds
  have hsmall : digitsNumber base digits ≤ ulongMax := by
    unfold ulongMax
    omega
  have htext' : HoldsString m a ([] ++ ([] ++ (digits ++ []))) := by
    rwa [List.append_nil, List.nil_append]
  have hcall := strtoul_reads htext hsmall htext'
  rw [hvalue] at hcall
  exact ⟨_, hholds.terminated, hcall⟩

/-! ### The round trip -/

/-- `strtol` reads back what `itoa` stored, and what `ltoa` stored up to its limits; `strtoul` reads
back what `utoa` stored in decimal and in hexadecimal, up to `ULONG_MAX`. -/
theorem numerals_read_back (m : Bytes) (a : Nat) :
    (∀ val : BitVec 32, ∃ e,
      Returns (fun n => strtol n (User.itoaAt val m a) a 10) (val.toInt, e)) ∧
    (∀ val : BitVec 64, val ≠ BitVec.intMin 64 → ∃ m' e,
      Returns (fun n => User.ltoaAt val m a 10 n) m' ∧
      Returns (fun n => strtol n m' a 10) (max (min val.toInt longMax) longMin, e)) ∧
    (∀ val : BitVec 64, val.toNat < 2 ^ 32 → ∀ radix, radix = 10 ∨ radix = 16 → ∃ m' e,
      Returns (fun n => User.utoaAt val m a radix n) m' ∧
      Returns (fun n => strtoul n m' a radix) ((val.toNat : Int), e)) := by
  refine ⟨fun val => ?_, fun val hval => ?_, fun val hval radix hradix => ?_⟩
  · obtain ⟨e, -, hcall⟩ := strtol_numeral (by omega) (by omega) (itoa_at_numeral val m a)
    have hlow := BitVec.le_toInt val
    have hhigh := BitVec.toInt_lt (x := val)
    have hclamp : max (min val.toInt longMax) longMin = val.toInt := by
      unfold longMax longMin
      omega
    rw [hclamp] at hcall
    exact ⟨e, hcall⟩
  · obtain ⟨m', hstored, hholds⟩ := (ltoa_at_numeral_iff val m a).mpr hval
    obtain ⟨e, -, hcall⟩ := strtol_numeral (by omega) (by omega) hholds
    exact ⟨m', e, hstored, hcall⟩
  · obtain ⟨hten, hsixteen⟩ := utoa_at_numeral val m a
    rcases hradix with rfl | rfl
    · obtain ⟨m', hstored, hholds⟩ := hten
      obtain ⟨e, -, hcall⟩ := strtoul_numeral (by omega) (by omega) hval hholds
      exact ⟨m', e, hstored, hcall⟩
    · obtain ⟨m', hstored, hholds⟩ := hsixteen
      obtain ⟨e, -, hcall⟩ := strtoul_numeral (by omega) (by omega) hval hholds
      exact ⟨m', e, hstored, hcall⟩

theorem numerals_read_back_samples :
    (∃ m' e, Returns (fun n => User.ltoaAt (-5000000000#64) (fun _ => 0#8) 0x100 10 n) m' ∧
      Returns (fun n => strtol n m' 0x100 10) (max (min (-5000000000) longMax) longMin, e)) ∧
    ∃ m' e, Returns (fun n => User.utoaAt 4294967295#64 (fun _ => 0#8) 0x100 16 n) m' ∧
      Returns (fun n => strtoul n m' 0x100 16) (4294967295, e) :=
  ⟨(numerals_read_back (fun _ => 0#8) 0x100).2.1 (-5000000000#64) (by decide),
    (numerals_read_back (fun _ => 0#8) 0x100).2.2 4294967295#64 (by decide) 16 (.inr rfl)⟩

end Sirius.Stdlib
