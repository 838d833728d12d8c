import Sirius.Library.Runs
import Sirius.Library.StoredText

/-!
# strtol and strtoul of the user library

The character classes of `ctype/ctype.c` and the number readers of `stdlib/strtol.c` and
`stdlib/strtoul.c`. `long` has 64 bits, but `LONG_MAX` and `ULONG_MAX` of `limits.h` are the 32-bit
limits. `strtol` reads its characters as `unsigned char`, `strtoul` as the signed `char`. Loops are
cut off after `fuel` rounds.
-/

namespace Sirius.Stdlib

open Sirius.Library

/-! ### Character classes -/

/-- `_ctype`: `_U` is 1, `_L` 2, `_D` 4, `_C` 8, `_P` 0x10, `_S` 0x20, `_X` 0x40 and `_SP` 0x80. -/
def ctypeTable : List Nat :=
  List.replicate 9 0x08 ++ List.replicate 5 0x28 ++ List.replicate 18 0x08 ++ [0xa0] ++
  List.replicate 15 0x10 ++ List.replicate 10 0x04 ++ List.replicate 7 0x10 ++
  List.replicate 6 0x41 ++ List.replicate 20 0x01 ++ List.replicate 6 0x10 ++
  List.replicate 6 0x42 ++ List.replicate 20 0x02 ++ List.replicate 4 0x10 ++ [0x08] ++
  List.replicate 32 0 ++ [0xa0] ++ List.replicate 31 0x10 ++ List.replicate 23 0x01 ++ [0x10] ++
  List.replicate 7 0x01 ++ List.replicate 24 0x02 ++ [0x10] ++ List.replicate 8 0x02

/-- `__ismask(x)`, with its cast to `unsigned char`. -/
def ismask (x : Int) : Nat := ctypeTable.getD (x % 256).toNat 0

def isalpha (c : Int) : Bool := ismask c &&& 0x03 != 0

def isdigit (c : Int) : Bool := ismask c &&& 0x04 != 0

def isspace (c : Int) : Bool := ismask c &&& 0x20 != 0

def isupper (c : Int) : Bool := ismask c &&& 0x01 != 0

/-- The value of a character as a digit; `none` where the loops break. -/
def charValue (c : Int) : Option Int :=
  if isdigit c then some (c - 0x30)
  else if isalpha c then some (c - if isupper c then 0x41 - 10 else 0x61 - 10)
  else none

/-! ### The part before the digits -/

/-- `do { c = *s++; } while (isspace(c));` -/
def skipSpaces (read : Byte → Int) (m : Bytes) : (fuel s : Nat) → Option (Int × Nat)
  | 0, _ => none
  | n + 1, s => if isspace (read (m s)) then skipSpaces read m n (s + 1) else some (read (m s), s + 1)

/-- The variables in front of the digits loop. -/
structure NumberStart where
  neg : Bool
  c : Int
  s : Nat
  base : Int

/-- White space, sign, and the prefix `0x` where the base allows it. -/
def numberStart (read : Byte → Int) (fuel : Nat) (m : Bytes) (nptr : Nat) (base : Int) :
    Option NumberStart :=
  (skipSpaces read m fuel nptr).map fun (c, s) =>
    let neg : Bool := c = 0x2d
    let (c, s) := if c = 0x2d ∨ c = 0x2b then ((m s).toInt, s + 1) else (c, s)
    let (c, s, base) :=
      if (base = 0 ∨ base = 16) ∧ c = 0x30 ∧ (m s = 0x78#8 ∨ m s = 0x58#8) then
        ((m (s + 1)).toInt, s + 2, 16)
      else (c, s, base)
    let base := if base = 0 then if c = 0x30 then 8 else 10 else base
    ⟨neg, c, s, base⟩

/-! ### strtol -/

/-- `LONG_MAX` and `LONG_MIN` of `limits.h`. -/
def longMax : Int := 2147483647

def longMin : Int := -2147483648

/-- `cutoff` and `cutlim` as `strtol` computes them. -/
def cutoffs (neg : Bool) (base : Int) : Int × Int :=
  let cutoff := if neg then longMin else longMax
  let cutlim := cutoff.tmod base
  let cutoff := cutoff.tdiv base
  if neg then
    let (cutlim, cutoff) := if cutlim > 0 then (cutlim - base, cutoff + 1) else (cutlim, cutoff)
    (cutoff, -cutlim)
  else (cutoff, cutlim)

/-- The digits loop of `strtol`: `acc`, `any` and `s` where it breaks. -/
def strtolLoop (m : Bytes) (neg : Bool) (base cutoff cutlim : Int) :
    (fuel : Nat) → (c : Int) → (s : Nat) → (acc any : Int) → Option (Int × Int × Nat)
  | 0, _, _, _, _ => none
  | n + 1, c, s, acc, any => match charValue c with
    | none => some (acc, any, s)
    | some d =>
      if d ≥ base then some (acc, any, s)
      else if any < 0 then strtolLoop m neg base cutoff cutlim n (m s).toNat (s + 1) acc any
      else if neg then
        if acc < cutoff ∨ acc = cutoff ∧ d > cutlim then
          strtolLoop m neg base cutoff cutlim n (m s).toNat (s + 1) longMin (-1)
        else strtolLoop m neg base cutoff cutlim n (m s).toNat (s + 1) (acc * base - d) 1
      else if acc > cutoff ∨ acc = cutoff ∧ d > cutlim then
        strtolLoop m neg base cutoff cutlim n (m s).toNat (s + 1) longMax (-1)
      else strtolLoop m neg base cutoff cutlim n (m s).toNat (s + 1) (acc * base + d) 1

/-- `strtol(nptr, &end, base)`: the value and the end pointer. -/
def strtol (fuel : Nat) (m : Bytes) (nptr : Nat) (base : Int) : Option (Int × Nat) :=
  match numberStart (fun c => c.toNat) fuel m nptr base with
  | none => none
  | some start =>
    let (cutoff, cutlim) := cutoffs start.neg start.base
    (strtolLoop m start.neg start.base cutoff cutlim fuel start.c start.s 0 0).map
      fun r => (r.1, if r.2.1 = 0 then nptr else r.2.2 - 1)

/-! ### strtoul -/

/-- `ULONG_MAX` of `limits.h`. -/
def ulongMax : Int := 4294967295

/-- The digits loop of `strtoul`, with its `acc` of 64 bits. -/
def strtoulLoop (m : Bytes) (base cutoff cutlim : Int) :
    (fuel : Nat) → (c : Int) → (s : Nat) → (acc any : Int) → Option (Int × Int × Nat)
  | 0, _, _, _, _ => none
  | n + 1, c, s, acc, any => match charValue c with
    | none => some (acc, any, s)
    | some d =>
      if d ≥ base then some (acc, any, s)
      else if (any < 0 ∨ acc > cutoff ∨ acc = cutoff) ∧ d > cutlim then
        strtoulLoop m base cutoff cutlim n (m s).toInt (s + 1) acc (-1)
      else strtoulLoop m base cutoff cutlim n (m s).toInt (s + 1) ((acc * base + d) % 2 ^ 64) 1

/-- `strtoul(nptr, &end, base)`: the value as `long long` and the end pointer. -/
def strtoul (fuel : Nat) (m : Bytes) (nptr : Nat) (base : Int) : Option (Int × Nat) :=
  match numberStart BitVec.toInt fuel m nptr base with
  | none => none
  | some start =>
    (strtoulLoop m start.base (ulongMax / start.base) (ulongMax % start.base) fuel start.c start.s
      0 0).map fun r =>
        (if r.2.1 < 0 then ulongMax else if start.neg then Int.bmod (-r.1) (2 ^ 64)
          else Int.bmod r.1 (2 ^ 64), if r.2.1 = 0 then nptr else r.2.2 - 1)

/-! ### Numbers as text -/

/-- The character is a digit of the base. -/
def IsDigit (base : Int) (c : Byte) : Prop := ∃ d, charValue c.toNat = some d ∧ d < base

/-- The character, as it is read, ends the digits. -/
def Stops (read : Byte → Int) (base : Int) (c : Byte) : Prop :=
  ∀ d, charValue (read c) = some d → base ≤ d

/-- The value of a digit. -/
def digitNumber (c : Byte) : Int := (charValue c.toNat).getD 0

/-- The number that a list of digits stands for. -/
def digitsNumber (base : Int) (digits : List Byte) : Int :=
  digits.foldl (fun v c => v * base + digitNumber c) 0

/-- White space, a sign and at least one digit, with something behind them that is no digit. -/
structure NumberText (read : Byte → Int) (base : Int) (blanks sign digits rest : List Byte) :
    Prop where
  all_blank : ∀ c ∈ blanks, isspace (read c) = true
  one_sign : sign = [] ∨ sign = [0x2d#8] ∨ sign = [0x2b#8]
  all_digits : ∀ c ∈ digits, IsDigit base c
  some_digit : digits ≠ []
  stops : Stops read base (rest.headD 0#8)
  no_prefix : base = 16 → rest.headD 0#8 ≠ 0x78#8 ∧ rest.headD 0#8 ≠ 0x58#8
  base_low : 2 ≤ base
  base_high : base ≤ 36

variable {read : Byte → Int} {m : Bytes} {a s nptr : Nat} {base : Int} {c : Byte}
  {blanks sign digits rest text : List Byte}

/-! ### Digits -/

/-- Characters that are digits of some base are letters and digits of ASCII. -/
theorem char_value_small : ∀ c : Fin 256, ∀ d ∈ charValue c.val, d < 36 →
    c.val < 128 ∧ 0 ≤ d ∧ isspace c.val = false ∧ c.val ≠ 0x2d ∧ c.val ≠ 0x2b ∧ c.val ≠ 0 := by
  decide +kernel

/-- The letter `x` is no hexadecimal digit. -/
theorem char_value_x : charValue 0x78 = some 33 ∧ charValue 0x58 = some 33 ∧ charValue 0 = none := by
  decide +kernel

theorem IsDigit.value (h : IsDigit base c) : charValue c.toNat = some (digitNumber c) ∧
    digitNumber c < base := by
  obtain ⟨d, hd, hlt⟩ := h
  rw [digitNumber, hd]
  exact ⟨rfl, hlt⟩

/-- What is known of a digit. -/
theorem IsDigit.facts (h : IsDigit base c) (hbase : base ≤ 36) :
    c.toInt = c.toNat ∧ 0 ≤ digitNumber c ∧ isspace c.toNat = false ∧ c ≠ 0x2d#8 ∧ c ≠ 0x2b#8 ∧
      c ≠ 0#8 := by
  obtain ⟨hd, hlt⟩ := h.value
  obtain ⟨hsmall, hpos, hspace, hminus, hplus, hnull⟩ :=
    char_value_small c.toFin (digitNumber c) hd (by omega)
  have hbound : c.toNat < 128 := hsmall
  refine ⟨?_, hpos, hspace, ?_, ?_, ?_⟩
  · rw [BitVec.toInt_eq_toNat_of_lt (by omega)]
  · rintro rfl
    exact hminus rfl
  · rintro rfl
    exact hplus rfl
  · rintro rfl
    exact hnull rfl

/-- How a function reads a character: ASCII characters have their own value. -/
def ReadsAscii (read : Byte → Int) : Prop := ∀ c : Byte, c.toInt = c.toNat → read c = c.toNat

theorem reads_unsigned : ReadsAscii fun c => c.toNat := fun _ _ => rfl

theorem reads_signed : ReadsAscii BitVec.toInt := fun _ hc => hc

/-! ### The part before the digits -/

theorem skip_spaces_returns (h : HoldsString m a (blanks ++ c :: text))
    (hblanks : ∀ c ∈ blanks, isspace (read c) = true) (hc : isspace (read c) = false) :
    Returns (fun n => skipSpaces read m n a) (read c, a + blanks.length + 1) := by
  induction blanks generalizing a with
  | nil =>
      obtain ⟨hfirst, -⟩ := HoldsString.cons_iff.mp h
      refine Returns.of_add 1 fun n => ?_
      rw [skipSpaces, hfirst, hc]
      rfl
  | cons b blanks ih =>
      obtain ⟨hfirst, hrest⟩ := HoldsString.cons_iff.mp h
      have hcall := ih hrest fun c hc => hblanks c (List.mem_cons_of_mem b hc)
      rw [Nat.add_assoc a 1, Nat.add_comm 1 blanks.length] at hcall
      refine hcall.succ fun n => ?_
      rw [skipSpaces, hfirst, hblanks b List.mem_cons_self, if_pos rfl]

/-- No prefix `0x` follows a digit of the number. -/
theorem NumberText.not_prefix {d : Byte} {ds : List Byte}
    (htext : NumberText read base blanks sign (d :: ds) rest) (h : HoldsString m a (ds ++ rest)) :
    ¬ (base = 16 ∧ (d.toNat : Int) = 0x30 ∧ (m a = 0x78#8 ∨ m a = 0x58#8)) := by
  rintro ⟨hsixteen, -, hx⟩
  cases ds with
  | nil =>
      have hhead : m a = rest.headD 0#8 := by
        cases rest with
        | nil => exact HoldsString.nil_iff.mp h
        | cons c rest => exact (HoldsString.cons_iff.mp h).1
      obtain ⟨hx₁, hx₂⟩ := htext.no_prefix hsixteen
      rw [hhead] at hx
      exact hx.elim hx₁ hx₂
  | cons d' ds =>
      obtain ⟨hfirst, -⟩ := HoldsString.cons_iff.mp h
      obtain ⟨hd', hlt⟩ := (htext.all_digits d' (by simp)).value
      rw [hfirst] at hx
      rcases hx with rfl | rfl
      · rw [show ((0x78#8 : Byte).toNat : Int) = 0x78 from rfl, char_value_x.1] at hd'
        have := Option.some.inj hd'
        omega
      · rw [show ((0x58#8 : Byte).toNat : Int) = 0x58 from rfl, char_value_x.2.1] at hd'
        have := Option.some.inj hd'
        omega

theorem number_start_returns {d : Byte} {ds : List Byte} (hread : ReadsAscii read)
    (htext : NumberText read base blanks sign (d :: ds) rest)
    (h : HoldsString m nptr (blanks ++ (sign ++ (d :: ds ++ rest)))) :
    Returns (fun n => numberStart read n m nptr base)
      ⟨sign = [0x2d#8], d.toNat, nptr + blanks.length + sign.length + 1, base⟩ := by
  obtain ⟨hsigned, -, hspace, hminus, hplus, -⟩ :=
    (htext.all_digits d List.mem_cons_self).facts htext.base_high
  have hlow := htext.base_low
  have hbase : ¬ base = 0 := by omega
  have hminus' : ¬ (d.toNat : Int) = 0x2d := fun heq => hminus (BitVec.eq_of_toNat_eq (by
    show d.toNat = 0x2d
    omega))
  have hplus' : ¬ (d.toNat : Int) = 0x2b := fun heq => hplus (BitVec.eq_of_toNat_eq (by
    show d.toNat = 0x2b
    omega))
  have hbehind := h.behind
  rcases htext.one_sign with rfl | hone
  · -- the digits follow the white space
    rw [List.nil_append] at h hbehind
    have hnot := htext.not_prefix (HoldsString.cons_iff.mp hbehind).2
    have hskip := skip_spaces_returns h htext.all_blank (by rw [hread d hsigned]; exact hspace)
    refine hskip.bind (Returns.pure _) fun n hn => ?_
    rw [numberStart, hn, hread d hsigned]
    simp only [Option.map_some, hminus', hplus', or_self, false_or, if_false, hbase, if_neg hnot]
    rfl
  · obtain ⟨b, rfl, hb⟩ : ∃ b : Byte, sign = [b] ∧ (b = 0x2d#8 ∨ b = 0x2b#8) := by
      rcases hone with rfl | rfl
      · exact ⟨_, rfl, .inl rfl⟩
      · exact ⟨_, rfl, .inr rfl⟩
    rw [List.singleton_append] at h hbehind
    obtain ⟨-, hdigits⟩ := HoldsString.cons_iff.mp hbehind
    obtain ⟨hfirst, hrest⟩ := HoldsString.cons_iff.mp hdigits
    have hnot := htext.not_prefix hrest
    have hb' : read b = b.toNat := hread b (by rcases hb with rfl | rfl <;> rfl)
    have hskip := skip_spaces_returns h htext.all_blank
      (by rw [hb']; rcases hb with rfl | rfl <;> decide +kernel)
    refine hskip.bind (Returns.pure _) fun n hn => ?_
    rw [numberStart, hn, hb']
    have hsign : ((b.toNat : Int) = 0x2d ∨ (b.toNat : Int) = 0x2b) := by
      rcases hb with rfl | rfl
      · exact .inl rfl
      · exact .inr rfl
    simp only [Option.map_some, if_pos hsign, hfirst, hsigned, false_or, hbase, if_neg hnot,
      if_false, List.length_singleton]
    rcases hb with rfl | rfl <;> rfl

/-! ### Saturating digits -/

/-- The greatest magnitude `strtol` returns. -/
def longLimit (neg : Bool) : Int := if neg then 2147483648 else 2147483647

/-- A magnitude with its sign. -/
def signed (neg : Bool) (v : Int) : Int := if neg then -v else v

/-- `acc` and `any` after digits of the value `v`: the value, or the limit once it is above. -/
def Accumulated (neg : Bool) (v acc any : Int) : Prop :=
  acc = signed neg (min v (longLimit neg)) ∧ (any < 0 ↔ longLimit neg < v)

theorem cutoffs_eq (neg : Bool) (hbase : 2 ≤ base) :
    cutoffs neg base = (signed neg (longLimit neg / base), longLimit neg % base) := by
  cases neg with
  | false =>
      simp only [cutoffs, signed, longLimit, longMax, Bool.false_eq_true, if_false]
      rw [Int.tdiv_eq_ediv_of_nonneg (by omega), Int.tmod_eq_emod_of_nonneg (by omega)]
  | true =>
      have hpos : 0 ≤ (2147483648 : Int) % base := Int.emod_nonneg _ (by omega)
      have hmod : longMin.tmod base = -(2147483648 % base) := by
        rw [longMin, Int.neg_tmod, Int.tmod_eq_emod_of_nonneg (by omega)]
      have hdiv : longMin.tdiv base = -(2147483648 / base) := by
        rw [longMin, Int.neg_tdiv, Int.tdiv_eq_ediv_of_nonneg (by omega)]
      simp only [cutoffs, signed, longLimit, if_true, hmod, hdiv]
      rw [if_neg (by omega)]
      simp

/-- The test that a further digit exceeds the limit. -/
theorem exceeds_iff (limit : Int) {v d : Int} (hbase : 2 ≤ base) (hd : 0 ≤ d) (hlt : d < base) :
    limit < v * base + d ↔ limit / base < v ∨ v = limit / base ∧ limit % base < d := by
  have hdivmod := Int.mul_ediv_add_emod limit base
  have hpos := Int.emod_nonneg limit (show base ≠ 0 by omega)
  have hless := Int.emod_lt_of_pos limit (show 0 < base by omega)
  rcases lt_trichotomy v (limit / base) with hv | hv | hv
  · have hmul : base * (v + 1) ≤ base * (limit / base) := by gcongr; omega
    constructor
    · intro h
      nlinarith
    · intro h
      omega
  · rw [hv, Int.mul_comm]
    omega
  · have hmul : base * (limit / base + 1) ≤ base * v := by gcongr; omega
    constructor
    · intro _
      exact .inl hv
    · intro _
      nlinarith

/-- One round of the loop on a digit. -/
theorem strtol_loop_digit {neg : Bool} {v d acc any c : Int} (hbase : 2 ≤ base)
    (hc : charValue c = some d) (hd : 0 ≤ d) (hlt : d < base) (hv : 0 ≤ v)
    (hacc : Accumulated neg v acc any) :
    ∃ acc' any', Accumulated neg (v * base + d) acc' any' ∧ any' ≠ 0 ∧
      ∀ n s, strtolLoop m neg base (signed neg (longLimit neg / base)) (longLimit neg % base) (n + 1) c s
          acc any =
        strtolLoop m neg base (signed neg (longLimit neg / base)) (longLimit neg % base) n
          (m s).toNat (s + 1) acc' any' := by
  have hlimit : 0 < longLimit neg := by cases neg <;> simp [longLimit]
  have hexceeds := exceeds_iff (longLimit neg) (v := v) hbase hd hlt
  have hgrows : v ≤ v * base + d := by nlinarith
  obtain ⟨hvalue, hany⟩ := hacc
  by_cases hover : any < 0
  · -- already over the limit: the digit is passed
    have habove := hany.mp hover
    refine ⟨acc, any, ⟨?_, ?_⟩, by omega, fun n s => ?_⟩
    · rw [hvalue, min_eq_right (by omega), min_eq_right (by omega)]
    · simp only [hover, true_iff]
      omega
    · rw [strtolLoop, hc]
      simp only [ge_iff_le, not_le.mpr hlt, if_false, if_pos hover]
  · have hbelow : v ≤ longLimit neg := not_lt.mp fun h => hover (hany.mpr h)
    rw [min_eq_left hbelow] at hvalue
    by_cases hnew : longLimit neg < v * base + d
    · -- this digit exceeds the limit
      refine ⟨signed neg (longLimit neg), -1, ⟨?_, ?_⟩, by omega, fun n s => ?_⟩
      · rw [min_eq_right (by omega)]
      · simp [hnew]
      · have htest := hexceeds.mp hnew
        rw [strtolLoop, hc]
        simp only [ge_iff_le, not_le.mpr hlt, if_false, if_neg hover, hvalue]
        cases neg with
        | false => simp only [signed, Bool.false_eq_true, if_false, gt_iff_lt, if_pos htest]; rfl
        | true =>
            simp only [signed, if_true, neg_lt_neg_iff, neg_inj, gt_iff_lt, if_pos htest]
            rfl
    · have htest := mt hexceeds.mpr hnew
      refine ⟨signed neg (v * base + d), 1, ⟨?_, ?_⟩, by omega, fun n s => ?_⟩
      · rw [min_eq_left (by omega)]
      · simp [hnew]
      · rw [strtolLoop, hc]
        simp only [ge_iff_le, not_le.mpr hlt, if_false, if_neg hover, hvalue]
        cases neg with
        | false => simp only [signed, Bool.false_eq_true, if_false, gt_iff_lt, if_neg htest]
        | true =>
            simp only [signed, if_true, neg_lt_neg_iff, neg_inj, gt_iff_lt, if_neg htest]
            congr 1
            ring

theorem strtol_loop_returns {neg : Bool} {v acc any : Int} {d : Byte} {ds : List Byte}
    (hbase : 2 ≤ base) (hhigh : base ≤ 36) (hdigits : ∀ c ∈ d :: ds, IsDigit base c) (hv : 0 ≤ v)
    (hacc : Accumulated neg v acc any) (h : HoldsString m s (ds ++ rest))
    (hstop : Stops (fun c => c.toNat) base (rest.headD 0#8)) :
    ∃ acc' any', Returns (fun n => strtolLoop m neg base (signed neg (longLimit neg / base))
        (longLimit neg % base) n d.toNat s acc any) (acc', any', s + ds.length + 1) ∧
      Accumulated neg ((d :: ds).foldl (fun v c => v * base + digitNumber c) v) acc' any' ∧
      any' ≠ 0 := by
  induction ds generalizing d s v acc any with
  | nil =>
      obtain ⟨hc, hlt⟩ := (hdigits d List.mem_cons_self).value
      obtain ⟨-, hd, -⟩ := (hdigits d List.mem_cons_self).facts hhigh
      obtain ⟨acc', any', hacc', hany', hround⟩ := strtol_loop_digit (m := m) hbase hc hd hlt hv hacc
      refine ⟨acc', any', Returns.of_add 2 fun n => ?_, hacc', hany'⟩
      have hnext : (m s).toNat = (rest.headD 0#8).toNat := by
        cases rest with
        | nil => rw [HoldsString.nil_iff.mp h]; rfl
        | cons c rest => rw [(HoldsString.cons_iff.mp h).1]; rfl
      rw [hround (n + 1) s, hnext, strtolLoop]
      split
      case h_1 => rfl
      case h_2 e he =>
        rw [if_pos (hstop e he)]
        rfl
  | cons d' ds ih =>
      obtain ⟨hc, hlt⟩ := (hdigits d List.mem_cons_self).value
      obtain ⟨-, hd, -⟩ := (hdigits d List.mem_cons_self).facts hhigh
      obtain ⟨acc₁, any₁, hacc₁, -, hround⟩ := strtol_loop_digit (m := m) hbase hc hd hlt hv hacc
      obtain ⟨hfirst, hrest⟩ := HoldsString.cons_iff.mp h
      obtain ⟨acc', any', hcall, hacc', hany'⟩ := ih
        (fun c hc => hdigits c (List.mem_cons_of_mem d hc)) (by nlinarith) hacc₁ hrest
      rw [Nat.add_assoc s 1, Nat.add_comm 1 ds.length] at hcall
      refine ⟨acc', any', hcall.succ fun n => ?_, hacc', hany'⟩
      rw [hround n s, hfirst]

/-- `strtol` on the text of a number: the value, cut off at the limits of a 32-bit `long`, and the
end pointer behind the last digit. -/
theorem strtol_reads
    (htext : NumberText (fun c => c.toNat) base blanks sign digits rest)
    (h : HoldsString m nptr (blanks ++ (sign ++ (digits ++ rest)))) :
    Returns (fun n => strtol n m nptr base)
      (if sign = [0x2d#8] then max (-digitsNumber base digits) longMin
        else min (digitsNumber base digits) longMax,
        nptr + (blanks ++ sign ++ digits).length) := by
  obtain ⟨d, ds, rfl⟩ := List.exists_cons_of_ne_nil htext.some_digit
  have hstart := number_start_returns reads_unsigned htext h
  have hdigits := (HoldsString.cons_iff.mp h.behind.behind).2
  generalize hneg : decide (sign = [0x2d#8]) = neg at hstart
  have hzero : Accumulated neg 0 0 0 := by cases neg <;> simp [Accumulated, signed, longLimit]
  obtain ⟨acc, any, hloop, ⟨hacc, -⟩, hany⟩ := strtol_loop_returns htext.base_low htext.base_high
    htext.all_digits (Int.le_refl 0) hzero hdigits htext.stops
  have hcall := hstart.bind (hloop.map fun r => (r.1, if r.2.1 = 0 then nptr else r.2.2 - 1))
    (h := fun n => strtol n m nptr base) fun n hn => by
      rw [strtol, hn]
      dsimp only
      rw [cutoffs_eq neg htext.base_low]
  have hvalue : acc = if sign = [0x2d#8] then max (-digitsNumber base (d :: ds)) longMin
      else min (digitsNumber base (d :: ds)) longMax := by
    rw [hacc]
    by_cases hsign : sign = [0x2d#8]
    · rw [if_pos hsign, ← hneg, decide_eq_true hsign]
      show -min (digitsNumber base (d :: ds)) 2147483648 = max _ (-2147483648)
      omega
    · rw [if_neg hsign, ← hneg, decide_eq_false hsign]
      rfl
  have hend : nptr + blanks.length + sign.length + 1 + ds.length + 1 - 1 =
      nptr + (blanks ++ sign ++ d :: ds).length := by
    simp only [List.length_append, List.length_cons]
    omega
  rw [if_neg hany, hend, hvalue] at hcall
  exact hcall

/-! ### strtoul below its limit -/

/-- The value only grows with more digits. -/
theorem digits_number_mono (hbase : 2 ≤ base) (hhigh : base ≤ 36)
    (hdigits : ∀ c ∈ digits, IsDigit base c) {v : Int} (hv : 0 ≤ v) :
    v ≤ digits.foldl (fun v c => v * base + digitNumber c) v := by
  induction digits generalizing v with
  | nil => exact Int.le_refl v
  | cons d ds ih =>
      obtain ⟨-, hd, -⟩ := (hdigits d List.mem_cons_self).facts hhigh
      have hgrows : v ≤ v * base + digitNumber d := by nlinarith
      exact hgrows.trans (ih (fun c hc => hdigits c (List.mem_cons_of_mem d hc)) (hv.trans hgrows))

/-- One round of the loop on a digit that keeps the value below the limit. -/
theorem strtoul_loop_digit {v d any c : Int} (hbase : 2 ≤ base) (hc : charValue c = some d)
    (hd : 0 ≤ d) (hlt : d < base) (hv : 0 ≤ v) (hany : 0 ≤ any) (hsmall : v * base + d ≤ ulongMax)
    (n s : Nat) :
    strtoulLoop m base (ulongMax / base) (ulongMax % base) (n + 1) c s v any =
      strtoulLoop m base (ulongMax / base) (ulongMax % base) n (m s).toInt (s + 1) (v * base + d)
        1 := by
  have htest : ¬ ((any < 0 ∨ v > ulongMax / base ∨ v = ulongMax / base) ∧ d > ulongMax % base) := by
    have hnot := mt (exceeds_iff ulongMax hbase hd hlt).mpr (not_lt.mpr hsmall)
    omega
  have hmod : (v * base + d) % 2 ^ 64 = v * base + d := by
    refine Int.emod_eq_of_lt (by positivity) ?_
    unfold ulongMax at hsmall
    omega
  rw [strtoulLoop, hc]
  simp only [ge_iff_le, not_le.mpr hlt, if_false, if_neg htest, hmod]

theorem strtoul_loop_returns {v any : Int} {d : Byte} {ds : List Byte} (hbase : 2 ≤ base)
    (hhigh : base ≤ 36) (hdigits : ∀ c ∈ d :: ds, IsDigit base c) (hv : 0 ≤ v) (hany : 0 ≤ any)
    (hsmall : (d :: ds).foldl (fun v c => v * base + digitNumber c) v ≤ ulongMax)
    (h : HoldsString m s (ds ++ rest)) (hstop : Stops BitVec.toInt base (rest.headD 0#8)) :
    Returns (fun n => strtoulLoop m base (ulongMax / base) (ulongMax % base) n d.toInt s v any)
      ((d :: ds).foldl (fun v c => v * base + digitNumber c) v, 1, s + ds.length + 1) := by
  induction ds generalizing d s v any with
  | nil =>
      obtain ⟨hc, hlt⟩ := (hdigits d List.mem_cons_self).value
      obtain ⟨hsigned, hd, -⟩ := (hdigits d List.mem_cons_self).facts hhigh
      have hnext : (m s).toInt = (rest.headD 0#8).toInt := by
        cases rest with
        | nil => rw [HoldsString.nil_iff.mp h]; rfl
        | cons c rest => rw [(HoldsString.cons_iff.mp h).1]; rfl
      refine Returns.of_add 2 fun n => ?_
      rw [hsigned, strtoul_loop_digit hbase hc hd hlt hv hany hsmall, hnext, strtoulLoop]
      split
      case h_1 => rfl
      case h_2 e he =>
        rw [if_pos (hstop e he)]
        rfl
  | cons d' ds ih =>
      obtain ⟨hc, hlt⟩ := (hdigits d List.mem_cons_self).value
      obtain ⟨hsigned, hd, -⟩ := (hdigits d List.mem_cons_self).facts hhigh
      have hrest := fun c hc => hdigits c (List.mem_cons_of_mem d hc)
      have hgrows : 0 ≤ v * base + digitNumber d := by positivity
      have hround := strtoul_loop_digit (m := m) hbase hc hd hlt hv hany
        ((digits_number_mono hbase hhigh hrest hgrows).trans hsmall)
      obtain ⟨hfirst, hbehind⟩ := HoldsString.cons_iff.mp h
      have hcall := ih hrest hgrows (Int.le_of_lt Int.one_pos) hsmall hbehind
      rw [Nat.add_assoc s 1, Nat.add_comm 1 ds.length] at hcall
      refine hcall.succ fun n => ?_
      rw [hsigned, hround n s, hfirst]

/-- `strtoul` on the text of a number up to `ULONG_MAX`: the value with its sign, and the end
pointer behind the last digit. -/
theorem strtoul_reads (htext : NumberText BitVec.toInt base blanks sign digits rest)
    (hsmall : digitsNumber base digits ≤ ulongMax)
    (h : HoldsString m nptr (blanks ++ (sign ++ (digits ++ rest)))) :
    Returns (fun n => strtoul n m nptr base)
      (signed (sign = [0x2d#8]) (digitsNumber base digits),
        nptr + (blanks ++ sign ++ digits).length) := by
  obtain ⟨d, ds, rfl⟩ := List.exists_cons_of_ne_nil htext.some_digit
  have hstart := number_start_returns reads_signed htext h
  have hdigits := (HoldsString.cons_iff.mp h.behind.behind).2
  have hsigned := (htext.all_digits d List.mem_cons_self).facts htext.base_high |>.1
  have hloop := strtoul_loop_returns htext.base_low htext.base_high htext.all_digits
    (Int.le_refl 0) (Int.le_refl 0) hsmall hdigits htext.stops
  rw [hsigned] at hloop
  have hcall := hstart.bind (hloop.map fun r =>
    (if r.2.1 < 0 then ulongMax else if decide (sign = [0x2d#8]) then Int.bmod (-r.1) (2 ^ 64)
      else Int.bmod r.1 (2 ^ 64), if r.2.1 = 0 then nptr else r.2.2 - 1))
    (h := fun n => strtoul n m nptr base) fun n hn => by
      rw [strtoul, hn]
  have hpos : 0 ≤ digitsNumber base (d :: ds) :=
    digits_number_mono htext.base_low htext.base_high htext.all_digits (Int.le_refl 0)
  have hbmod : Int.bmod (digitsNumber base (d :: ds)) (2 ^ 64) = digitsNumber base (d :: ds) ∧
      Int.bmod (-digitsNumber base (d :: ds)) (2 ^ 64) = -digitsNumber base (d :: ds) := by
    unfold ulongMax at hsmall
    exact ⟨Int.bmod_eq_of_le_mul_two (by omega) (by omega),
      Int.bmod_eq_of_le_mul_two (by omega) (by omega)⟩
  have hend : nptr + blanks.length + sign.length + 1 + ds.length + 1 - 1 =
      nptr + (blanks ++ sign ++ d :: ds).length := by
    simp only [List.length_append, List.length_cons]
    omega
  have hresult : (signed (sign = [0x2d#8]) (digitsNumber base (d :: ds)),
      nptr + (blanks ++ sign ++ d :: ds).length) =
      (if (1 : Int) < 0 then ulongMax else if decide (sign = [0x2d#8]) then
        Int.bmod (-digitsNumber base (d :: ds)) (2 ^ 64)
        else Int.bmod (digitsNumber base (d :: ds)) (2 ^ 64),
        if (1 : Int) = 0 then nptr else nptr + blanks.length + sign.length + 1 + ds.length + 1 - 1) := by
    rw [if_neg (show ¬ (1 : Int) < 0 by decide), if_neg (show ¬ (1 : Int) = 0 by decide), hbmod.1,
      hbmod.2, hend]
    rfl
  rw [hresult]
  exact hcall

/-- The text `" -3000000000;"`. -/
def longText : List Byte :=
  [0x20#8] ++ ([0x2d#8] ++ ([0x33#8, 0x30#8, 0x30#8, 0x30#8, 0x30#8, 0x30#8, 0x30#8, 0x30#8, 0x30#8,
    0x30#8] ++ [0x3b#8]))

end Sirius.Stdlib
