import Mathlib.Tactic
import Mathlib.Data.Nat.Digits.Lemmas
import Sirius.Library.Decimal

/-!
# Numerals in a base

The digits of a base up to 16, with letters in upper case. `Canonical` says that a text is the
numeral of a number: it consists of digits, it has no leading zero, and reading it back gives the
number. There is exactly one such text, `numeral`.
-/

namespace Sirius.Library

/-- The digit of a number below 16. -/
def digitByte (d : Nat) : Byte := BitVec.ofNat 8 (if d < 10 then 0x30 + d else 0x37 + d)

/-- The number of a digit. -/
def digitValue (c : Byte) : Nat := if c.toNat < 0x41 then c.toNat - 0x30 else c.toNat - 0x37

/-- The number that the digits say, read from the first one on. -/
def readDigits (base : Nat) (text : List Byte) : Nat :=
  text.foldl (fun n c => n * base + digitValue c) 0

/-- All bytes of the text are digits of the base. -/
def AreDigits (base : Nat) (text : List Byte) : Prop := ∀ c ∈ text, ∃ d < base, c = digitByte d

/-- The text is the numeral of the number. -/
structure Canonical (base n : Nat) (text : List Byte) : Prop where
  digits : AreDigits base text
  nonempty : text ≠ []
  leading : ∀ rest, text = 0x30#8 :: rest → rest = []
  value : readDigits base text = n

/-- The numeral of the number. -/
def numeral (base n : Nat) : List Byte :=
  if n = 0 then [0x30#8] else (Nat.digits base n).reverse.map digitByte

variable {base n m d : Nat} {text s t : List Byte} {c : Byte}

theorem digit_value_byte (hd : d < 16) : digitValue (digitByte d) = d := by
  interval_cases d <;> rfl

theorem digit_byte_zero_iff (hd : d < 16) : digitByte d = 0x30#8 ↔ d = 0 := by
  interval_cases d <;> decide

theorem AreDigits.not_null (hbase : base ≤ 16) (h : AreDigits base text) : 0#8 ∉ text := by
  intro hmem
  obtain ⟨d, hd, hzero⟩ := h _ hmem
  have hd : d < 16 := hd.trans_le hbase
  interval_cases d <;> exact absurd hzero (by decide)

theorem read_digits_snoc :
    readDigits base (s ++ [c]) = readDigits base s * base + digitValue c := by
  rw [readDigits, List.foldl_append]
  rfl

theorem read_digits_zero (base : Nat) : readDigits base [0x30#8] = 0 := by
  rw [readDigits, List.foldl_cons, List.foldl_nil, Nat.zero_mul]
  rfl

/-- The digits are those of the number in Mathlib's order, the last one first. -/
theorem read_digits_eq (base : Nat) (text : List Byte) :
    readDigits base text = Nat.ofDigits base (text.map digitValue).reverse := by
  induction text using List.reverseRecOn with
  | nil => rfl
  | append_singleton text c ih =>
      rw [read_digits_snoc, ih, List.map_append, List.map_singleton, List.reverse_append,
        List.reverse_singleton, List.singleton_append, Nat.ofDigits_cons, Nat.mul_comm,
        Nat.add_comm]

/-! ### The numeral -/

theorem AreDigits.map_value (hbase : base ≤ 16) (h : AreDigits base text) :
    (text.map digitValue).map digitByte = text := by
  rw [List.map_map]
  refine (List.map_congr_left fun c hc => ?_).trans (List.map_id _)
  obtain ⟨d, hd, rfl⟩ := h c hc
  rw [Function.comp_apply, digit_value_byte (hd.trans_le hbase), id]

theorem AreDigits.value_lt (hbase : base ≤ 16) (h : AreDigits base text) :
    ∀ v ∈ text.map digitValue, v < base := by
  intro v hv
  obtain ⟨c, hc, rfl⟩ := List.mem_map.mp hv
  obtain ⟨d, hd, rfl⟩ := h c hc
  rwa [digit_value_byte (hd.trans_le hbase)]

/-- Every number has a numeral. -/
theorem numeral_canonical (hlow : 1 < base) (hbase : base ≤ 16) (n : Nat) :
    Canonical base n (numeral base n) := by
  rw [numeral]
  split
  · next hzero =>
      refine ⟨fun c hc => ⟨0, by omega, ?_⟩, List.cons_ne_nil _ _, fun rest h => ?_, ?_⟩
      · rw [List.mem_singleton.mp hc]
        rfl
      · exact (List.cons.inj h).2.symm
      · rw [hzero, read_digits_zero]
  · next hzero =>
      have hlt : ∀ d ∈ Nat.digits base n, d < base := fun d hd => Nat.digits_lt_base hlow hd
      refine ⟨fun c hc => ?_, ?_, fun rest h => ?_, ?_⟩
      · obtain ⟨d, hd, rfl⟩ := List.mem_map.mp hc
        exact ⟨d, hlt d (List.mem_reverse.mp hd), rfl⟩
      · rw [ne_eq, List.map_eq_nil_iff, List.reverse_eq_nil_iff]
        exact Nat.digits_ne_nil_iff_ne_zero.mpr hzero
      · -- the first digit is the last one in Mathlib's order, which is not zero
        obtain ⟨d, ds, hreverse, hd, -⟩ := List.map_eq_cons_iff.mp h
        have hlast := Nat.getLast_digit_ne_zero base hzero
        have hdigits : Nat.digits base n = ds.reverse ++ [d] := by
          rw [← List.reverse_reverse (Nat.digits base n), hreverse, List.reverse_cons]
        simp only [hdigits, List.getLast_append_singleton] at hlast
        have hmem : d ∈ Nat.digits base n := by simp [hdigits]
        exact absurd ((digit_byte_zero_iff ((hlt d hmem).trans_le hbase)).mp hd) hlast
      · have hvalues : ((Nat.digits base n).reverse.map digitByte).map digitValue =
            (Nat.digits base n).reverse := by
          rw [List.map_map]
          refine (List.map_congr_left fun d hd => ?_).trans (List.map_id _)
          exact digit_value_byte ((hlt d (List.mem_reverse.mp hd)).trans_le hbase)
        rw [read_digits_eq, hvalues, List.reverse_reverse, Nat.ofDigits_digits]

/-- A number has one numeral. -/
theorem Canonical.eq_numeral (hlow : 1 < base) (hbase : base ≤ 16) (h : Canonical base n text) :
    text = numeral base n := by
  obtain ⟨c, rest, rfl⟩ := List.exists_cons_of_ne_nil h.nonempty
  have hvalue := h.value
  by_cases hc : c = 0x30#8
  · subst hc
    obtain rfl := h.leading rest rfl
    rw [read_digits_zero] at hvalue
    rw [numeral, if_pos hvalue.symm]
  · -- the digits are those of the number, because the first one is not zero
    obtain ⟨d, hd, hcd⟩ := h.digits c List.mem_cons_self
    have hdlt := hd.trans_le hbase
    have hd₀ : digitValue c ≠ 0 := by
      rw [hcd, digit_value_byte hdlt]
      exact fun hzero => hc (hcd.trans ((digit_byte_zero_iff hdlt).mpr hzero))
    have hdigits : Nat.digits base n = ((c :: rest).map digitValue).reverse := by
      rw [read_digits_eq] at hvalue
      rw [← hvalue]
      refine Nat.digits_ofDigits base hlow _ (fun v hv => ?_) fun hne => ?_
      · exact h.digits.value_lt hbase v (List.mem_reverse.mp hv)
      · rw [List.getLast_reverse]
        exact hd₀
    have hzero : n ≠ 0 := by
      rintro rfl
      rw [Nat.digits_zero] at hdigits
      exact List.cons_ne_nil _ _ (List.reverse_eq_nil_iff.mp hdigits.symm)
    rw [numeral, if_neg hzero, hdigits, List.reverse_reverse, h.digits.map_value hbase]

/-- A larger number has no shorter numeral. -/
theorem numeral_length_mono (hlow : 1 < base) (h : m ≤ n) :
    (numeral base m).length ≤ (numeral base n).length := by
  have hlength : ∀ k, k ≠ 0 → (numeral base k).length = (Nat.digits base k).length := fun k hk => by
    rw [numeral, if_neg hk, List.length_map, List.length_reverse]
  by_cases hn : n = 0
  · subst hn
    rw [Nat.le_zero.mp h]
  · have hn' : n < base ^ (Nat.digits base n).length :=
      (Nat.digits_length_le_iff hlow n).mp (Nat.le_refl _)
    rw [hlength n hn]
    by_cases hm : m = 0
    · rw [hm, numeral, if_pos rfl]
      exact List.length_pos_iff.mpr (Nat.digits_ne_nil_iff_ne_zero.mpr hn)
    · rw [hlength m hm]
      exact (Nat.digits_length_le_iff hlow m).mpr (h.trans_lt hn')

/-! ### Making numerals -/

/-- A numeral of one digit. -/
theorem Canonical.single (hd : d < base) (hbase : base ≤ 16) : Canonical base d [digitByte d] := by
  refine ⟨fun c hc => ⟨d, hd, List.mem_singleton.mp hc⟩, List.cons_ne_nil _ _, fun rest h => ?_, ?_⟩
  · exact (List.cons.inj h).2.symm
  · rw [readDigits, List.foldl_cons, List.foldl_nil, digit_value_byte (hd.trans_le hbase),
      Nat.zero_mul, Nat.zero_add]

theorem AreDigits.append (hs : AreDigits base s) (ht : AreDigits base t) :
    AreDigits base (s ++ t) := fun c hc => (List.mem_append.mp hc).elim (hs c) (ht c)

theorem AreDigits.single (hd : d < base) : AreDigits base [digitByte d] := fun _ hc =>
  ⟨d, hd, List.mem_singleton.mp hc⟩

/-- Another digit behind a numeral. -/
theorem Canonical.snoc (h : Canonical base n text) (hn : 0 < n) (hd : d < base)
    (hbase : base ≤ 16) : Canonical base (n * base + d) (text ++ [digitByte d]) := by
  refine ⟨h.digits.append (.single hd), by simp, fun rest hrest => ?_, ?_⟩
  · obtain ⟨c, cs, rfl⟩ := List.exists_cons_of_ne_nil h.nonempty
    obtain ⟨rfl, -⟩ := List.cons.inj hrest
    obtain rfl := h.leading cs rfl
    have hvalue := h.value
    rw [read_digits_zero] at hvalue
    exact absurd hvalue hn.ne
  · rw [read_digits_snoc, h.value, digit_value_byte (hd.trans_le hbase)]

/-- Zeros in front do not count. -/
theorem read_digits_drop_zeros (base : Nat) (text : List Byte) :
    readDigits base (text.dropWhile (· = 0x30#8)) = readDigits base text := by
  induction text with
  | nil => rfl
  | cons c text ih =>
      by_cases hc : c = 0x30#8
      · subst hc
        rw [List.dropWhile_cons_of_pos (by decide), ih, readDigits, readDigits, List.foldl_cons,
          Nat.zero_mul]
        rfl
      · rw [List.dropWhile_cons_of_neg (by simpa using hc)]

theorem drop_zeros_head (text rest : List Byte) :
    text.dropWhile (· = 0x30#8) ≠ 0x30#8 :: rest := by
  induction text with
  | nil => exact nofun
  | cons c text ih =>
      by_cases hc : c = 0x30#8
      · subst hc
        rwa [List.dropWhile_cons_of_pos (by decide)]
      · rw [List.dropWhile_cons_of_neg (by simpa using hc)]
        exact fun h => hc (List.cons.inj h).1

/-- Digits with zeros in front. -/
theorem Canonical.of_padded (hdigits : AreDigits base text) (hvalue : readDigits base text = n)
    (hn : n ≠ 0) : Canonical base n (text.dropWhile (· = 0x30#8)) := by
  have hread := read_digits_drop_zeros base text
  rw [hvalue] at hread
  refine ⟨fun c hc => hdigits c (List.dropWhile_sublist _ |>.mem hc), fun hnil => ?_,
    fun rest h => absurd h (drop_zeros_head text rest), hread⟩
  rw [hnil] at hread
  exact hn hread.symm

/-- The decimal numeral of a number. -/
theorem decimal_text_canonical (n : Nat) : Canonical 10 n (decimalText n) := by
  induction n using Nat.strong_induction_on with
  | _ n ih =>
      have hdigit : ∀ d < 10, BitVec.ofNat 8 d + 0x30#8 = digitByte d := fun d hd => by
        interval_cases d <;> rfl
      rcases Nat.lt_or_ge n 10 with hlt | hge
      · rw [decimal_text_of_lt hlt, hdigit n hlt]
        exact .single hlt (by decide)
      · have hlast : n % 10 < 10 := Nat.mod_lt n (by decide)
        have hsnoc := (ih (n / 10) (by omega)).snoc (by omega) hlast (by decide)
        rw [decimal_text_of_le hge, hdigit _ hlast]
        rwa [Nat.mul_comm, Nat.div_add_mod] at hsnoc

end Sirius.Library
