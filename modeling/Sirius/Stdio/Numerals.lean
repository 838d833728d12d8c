import Mathlib.Tactic
import Sirius.Library.Decimal

/-!
# The numerals of the user library

`itoa`, `utoa`, `ltoa` and `i2hex` of `user/lib/libc/stdlib`. Each is the string that it leaves in
its buffer, without the null byte. The decimal functions store the digits from the last one on and
turn them around by swapping, as `List.reverse` does; they get along without the negation of the
smallest value by counting its last digit up. `long` and `long long` have 64 bits, and the negation
in `ltoa` wraps around.
-/

namespace Sirius.Stdio.User

open Library

/-- The `do` loop: the digits from the last one on. -/
def decimalLoop (value : Nat) : List Byte :=
  (BitVec.ofNat 8 (value % 10) + 0x30#8) :: if value / 10 = 0 then [] else decimalLoop (value / 10)
termination_by value
decreasing_by omega

/-- `++*valuestring` when `min_flag` is set. -/
def countUp (minFlag : Bool) (digits : List Byte) : List Byte :=
  match minFlag, digits with
  | true, digit :: rest => (digit + 1#8) :: rest
  | _, digits => digits

/-- `itoa` and `ltoa_r`, which are the same for their widths. -/
def signedNumeral {w : Nat} (val : BitVec w) : List Byte :=
  if val.slt 0#w then
    let most := BitVec.intMax w
    if val.slt (-most) then 0x2d#8 :: (countUp true (decimalLoop most.toNat)).reverse
    else 0x2d#8 :: (decimalLoop (-val).toNat).reverse
  else (decimalLoop val.toNat).reverse

def itoa (val : BitVec 32) : List Byte := signedNumeral val

def ltoaR (val : BitVec 64) : List Byte := signedNumeral val

def utoaR (val : BitVec 64) : List Byte := (decimalLoop val.toNat).reverse

/-- The loop of `i2hex`, which stores `len` digits from the last one on. -/
def hexLoop : (len : Nat) → (n : BitVec 64) → (dest : List Byte) → List Byte
  | 0, _, dest => dest
  | len + 1, n, dest =>
      let x := (n &&& 0xf#64).setWidth 8
      hexLoop len (n >>> 4) ((x + if x.toNat > 9 then 0x41#8 - 10#8 else 0x30#8) :: dest)

/-- `i2hex`: the digits are moved to the front past the zeros, if there is another one. -/
def i2hex (val : BitVec 64) (len : Nat) : List Byte :=
  if val = 0#64 then [0x30#8]
  else
    let dest := hexLoop len val []
    match dest.dropWhile (· = 0x30#8) with
    | [] => dest
    | cp => cp

def utoa (val : BitVec 64) (radix : Nat) : List Byte := if radix = 16 then i2hex val 16 else utoaR val

def ltoa (val : BitVec 64) (radix : Nat) : List Byte :=
  let minus := val.slt 0#64
  let l := if minus then -val else val
  (if minus then [0x2d#8] else []) ++ if radix = 16 then i2hex l 16 else ltoaR l

/-! ### Digits -/

/-- The digits turned around are the numeral. -/
theorem decimal_loop_reverse (value : Nat) : (decimalLoop value).reverse = decimalText value := by
  induction value using Nat.strong_induction_on with
  | _ value ih =>
      rw [decimalLoop, List.reverse_cons]
      rcases Nat.lt_or_ge value 10 with hlt | hge
      · rw [if_pos (Nat.div_eq_of_lt hlt), Nat.mod_eq_of_lt hlt, decimal_text_of_lt hlt]
        rfl
      · have hrest : value / 10 ≠ 0 := by omega
        rw [if_neg hrest, ih (value / 10) (by omega), decimal_text_of_le hge]

/-- A value without a sign. -/
theorem signed_numeral_of_nonneg {w : Nat} {val : BitVec w} (h : val.slt 0#w = false) :
    signedNumeral val = decimalText val.toNat := by
  rw [signedNumeral, h, ← decimal_loop_reverse]
  rfl

/-! ### Lengths -/

theorem decimal_loop_length {value k : Nat} (h : value < 10 ^ (k + 1)) :
    (decimalLoop value).length ≤ k + 1 := by
  induction k generalizing value with
  | zero =>
      rw [decimalLoop, if_pos (by omega)]
      exact Nat.le_refl 1
  | succ k ih =>
      rw [decimalLoop, List.length_cons]
      split
      · exact Nat.le_add_left 1 _
      · have hrest : value / 10 < 10 ^ (k + 1) := by
          rw [pow_succ] at h
          exact Nat.div_lt_of_lt_mul (by rwa [Nat.mul_comm])
        exact Nat.succ_le_succ (ih hrest)

theorem decimal_loop_length_word {w : Nat} (hw : w ≤ 64) (val : BitVec w) :
    (decimalLoop val.toNat).length ≤ 20 := by
  refine decimal_loop_length (k := 19) (val.isLt.trans_le ?_)
  calc 2 ^ w ≤ 2 ^ 64 := Nat.pow_le_pow_right (by decide) hw
    _ ≤ 10 ^ 20 := by decide

theorem count_up_length (minFlag : Bool) (digits : List Byte) :
    (countUp minFlag digits).length = digits.length := by
  unfold countUp
  split <;> rfl

theorem signed_numeral_length {w : Nat} (hw : w ≤ 64) (val : BitVec w) :
    (signedNumeral val).length ≤ 21 := by
  unfold signedNumeral
  dsimp only
  split
  · split
    · rw [List.length_cons, List.length_reverse, count_up_length]
      exact Nat.succ_le_succ (decimal_loop_length_word hw _)
    · rw [List.length_cons, List.length_reverse]
      exact Nat.succ_le_succ (decimal_loop_length_word hw _)
  · rw [List.length_reverse]
    exact Nat.le_succ_of_le (decimal_loop_length_word hw _)

theorem hex_loop_length (len : Nat) (n : BitVec 64) (dest : List Byte) :
    (hexLoop len n dest).length = len + dest.length := by
  induction len generalizing n dest with
  | zero => rw [hexLoop, Nat.zero_add]
  | succ len ih =>
      rw [hexLoop, ih, List.length_cons]
      omega

theorem i2hex_length (val : BitVec 64) (len : Nat) : (i2hex val len).length ≤ len + 1 := by
  have hloop := hex_loop_length len val []
  unfold i2hex
  split
  · exact Nat.le_add_left 1 len
  · dsimp only
    split
    · rw [hloop]
      exact Nat.le_succ len
    · have hdrop := (List.dropWhile_sublist (l := hexLoop len val []) (· = 0x30#8)).length_le
      rw [hloop] at hdrop
      exact Nat.le_succ_of_le hdrop

theorem utoa_length (val : BitVec 64) (radix : Nat) : (utoa val radix).length ≤ 20 := by
  unfold utoa
  split
  · exact (i2hex_length val 16).trans (by decide)
  · rw [utoaR, List.length_reverse]
    exact decimal_loop_length_word (Nat.le_refl 64) val

theorem ltoa_length (val : BitVec 64) (radix : Nat) : (ltoa val radix).length ≤ 22 := by
  unfold ltoa
  dsimp only
  rw [List.length_append]
  have hsign : (if val.slt 0#64 then [0x2d#8] else []).length ≤ 1 := by
    split <;> decide
  have hdigits : ∀ l, (if radix = 16 then i2hex l 16 else ltoaR l).length ≤ 21 := fun l => by
    split
    · exact (i2hex_length l 16).trans (by decide)
    · exact signed_numeral_length (Nat.le_refl 64) l
  exact Nat.add_le_add hsign (hdigits _) |>.trans (by decide)

end Sirius.Stdio.User
