import Mathlib.Tactic
import Sirius.Library.Positional
import Sirius.Library.Runs
import Sirius.Library.StoredText
import Sirius.Stdio.Numerals

/-!
# Numerals in their buffers

`itoa`, `ltoa`, `utoa` and `i2hex` on the memory, as `user/lib/libc/stdlib` and
`kernel/lib/stdlib.c` have them: the digits are stored backwards and swapped in place, and the zeros
of a hexadecimal numeral are stripped by a copy onto itself. What they leave is the text of the
functions on lists. `ltoa` negates its argument before `ltoa_r` looks at its sign, so the smallest
number gets two signs, and `i2hex` stores the lowest `len` digits of a larger number.
-/

namespace Sirius.Stdio

open Library

/-! ### The code -/

/-- The `do` loop: the memory and `p`. -/
def digitLoop (m : Bytes) (p value : Nat) : Bytes × Nat :=
  let m := Function.update m p (BitVec.ofNat 8 (value % 10) + 0x30#8)
  if value / 10 = 0 then (m, p + 1) else digitLoop m (p + 1) (value / 10)
termination_by value
decreasing_by omega

/-- The loop that swaps the digits. -/
def swapLoop (m : Bytes) (valuestring p : Nat) : Bytes :=
  if p > valuestring then
    let swap := m valuestring
    let m := Function.update m valuestring (m p)
    let m := Function.update m p swap
    swapLoop m (valuestring + 1) (p - 1)
  else m
termination_by p - valuestring

/-- The null byte behind the digits, and the swaps. -/
def turnAround (m : Bytes) (valuestring p : Nat) : Bytes :=
  swapLoop (Function.update m p 0#8) valuestring (p - 1)

/-- `itoa` and `ltoa_r`, which are the same for their widths. -/
def signedAt {w : Nat} (val : BitVec w) (m : Bytes) (str : Nat) : Bytes :=
  let most := BitVec.intMax w
  let minus := val.slt 0#w
  let minFlag := minus && val.slt (-most)
  let m := if minus then Function.update m str 0x2d#8 else m
  let valuestring := if minus then str + 1 else str
  let value := if minFlag then most else if minus then -val else val
  let (m, p) := digitLoop m valuestring value.toNat
  let m := if minFlag then Function.update m valuestring (m valuestring + 1#8) else m
  turnAround m valuestring p

/-- `utoa_r` -/
def utoaRAt (val : BitVec 64) (m : Bytes) (str : Nat) : Bytes :=
  let (m, p) := digitLoop m str val.toNat
  turnAround m str p

/-- The loop of `i2hex`, from the last digit on. -/
def hexDigitLoop (m : Bytes) (dest : Nat) : (cp : Nat) → (n : BitVec 64) → Bytes
  | 0, _ => m
  | cp + 1, n =>
      let x := (n &&& 0xf#64).setWidth 8
      let digit := x + if x.toNat > 9 then 0x41#8 - 10#8 else 0x30#8
      hexDigitLoop (Function.update m (dest + cp) digit) dest cp (n >>> 4)

/-- The loop of `i2hex` over the zeros: the first other digit, if there is one. -/
def skipZeros (m : Bytes) : (rounds cp : Nat) → Option Nat
  | 0, _ => none
  | n + 1, cp => if m cp = 0x30#8 then skipZeros m n (cp + 1) else some cp

/-- `strcpy`, byte by byte. -/
def strcpyLoop : (fuel : Nat) → (m : Bytes) → (dest src : Nat) → Option Bytes
  | 0, _, _, _ => none
  | n + 1, m, dest, src =>
      if m src = 0#8 then some (Function.update m dest 0#8)
      else strcpyLoop n (Function.update m dest (m src)) (dest + 1) (src + 1)

/-- `strlen`, byte by byte. -/
def strlenLoop : (fuel : Nat) → (m : Bytes) → (s : Nat) → Option Nat
  | 0, _, _ => none
  | n + 1, m, s => if m s = 0#8 then some 0 else (strlenLoop n m (s + 1)).map (· + 1)

/-- `i2hex` of the kernel. -/
def Kernel.i2hexAt (val : BitVec 64) (m : Bytes) (dest len fuel : Nat) : Option Bytes :=
  if val = 0#64 then some (Function.update (Function.update m dest 0x30#8) (dest + 1) 0#8)
  else do
    let m := Function.update (hexDigitLoop m dest len val) (dest + len) 0#8
    let m ← match skipZeros m len dest with
      | some cp => strcpyLoop fuel m dest cp
      | none => some m
    let n ← strlenLoop fuel m dest
    pure (fillBytes m (dest + n) (len - n) 0#8)

/-- `utoa` of the kernel. -/
def Kernel.utoaAt (val : BitVec 64) (m : Bytes) (dst radix fuel : Nat) : Option Bytes :=
  if radix = 16 then Kernel.i2hexAt val m dst 16 fuel else some (utoaRAt val m dst)

/-- `itoa` of the kernel. -/
def Kernel.itoaAt (val : BitVec 32) (m : Bytes) (str : Nat) : Bytes := signedAt val m str

/-- `i2hex` of the user library, the same text. -/
def User.i2hexAt (val : BitVec 64) (m : Bytes) (dest len fuel : Nat) : Option Bytes :=
  Kernel.i2hexAt val m dest len fuel

/-- `utoa` of the user library, the same text. -/
def User.utoaAt (val : BitVec 64) (m : Bytes) (dst radix fuel : Nat) : Option Bytes :=
  Kernel.utoaAt val m dst radix fuel

/-- `itoa` of the user library, the same text. -/
def User.itoaAt (val : BitVec 32) (m : Bytes) (str : Nat) : Bytes := Kernel.itoaAt val m str

/-- `ltoa`, which only the user library has. -/
def User.ltoaAt (val : BitVec 64) (m : Bytes) (dst radix fuel : Nat) : Option Bytes :=
  let minus := val.slt 0#64
  let m := if minus then Function.update m dst 0x2d#8 else m
  let cp := if minus then dst + 1 else dst
  let l := if minus then -val else val
  if radix = 16 then User.i2hexAt l m cp 16 fuel else some (signedAt l m cp)

/-! ### What the functions are for -/

/-- The memory holds the numeral of the number at the address, with one minus sign exactly for a
negative number. -/
def HoldsNumeral (m : Bytes) (a base : Nat) (v : Int) : Prop :=
  ∃ digits, Canonical base v.natAbs digits ∧
    HoldsString m a ((if v < 0 then [0x2d#8] else []) ++ digits)

/-- The call returns and leaves the numeral of the number. -/
def StoresNumeral (call : Nat → Option Bytes) (a base : Nat) (v : Int) : Prop :=
  ∃ m, Returns call m ∧ HoldsNumeral m a base v

variable {m : Bytes} {a dest src len : Nat} {text t : List Byte}

/-! ### Decimal numerals -/

theorem digit_loop_eq (m : Bytes) (p value : Nat) :
    digitLoop m p value =
      (storeText m p (User.decimalLoop value), p + (User.decimalLoop value).length) := by
  induction value using Nat.strong_induction_on generalizing m p with
  | _ value ih =>
      rw [digitLoop, User.decimalLoop]
      by_cases hlast : value / 10 = 0
      · simp only [if_pos hlast]
        rfl
      · simp only [if_neg hlast]
        rw [ih (value / 10) (by omega), storeText, List.length_cons, Nat.add_assoc,
          Nat.add_comm 1]

/-- The swaps turn the range around. -/
theorem swap_loop_eq (m : Bytes) (a p i : Nat) :
    swapLoop m a p i = if a ≤ i ∧ i ≤ p then m (a + p - i) else m i := by
  induction h : p - a using Nat.strong_induction_on generalizing m a p with
  | _ n ih =>
      rw [swapLoop]
      split
      · next hlt =>
          dsimp only
          rw [ih (p - 1 - (a + 1)) (by omega) _ _ _ rfl]
          rcases Nat.lt_trichotomy i a with hi | rfl | hi
          · rw [if_neg (by omega), if_neg (by omega), Function.update_of_ne (by omega),
              Function.update_of_ne (by omega)]
          · rw [if_neg (by omega), if_pos (by omega), Function.update_of_ne (by omega),
              Function.update_self, Nat.add_sub_cancel_left]
          · rcases Nat.lt_trichotomy i p with hp | rfl | hp
            · rw [if_pos (by omega), if_pos (by omega), Function.update_of_ne (by omega),
                Function.update_of_ne (by omega)]
              congr 1
              omega
            · rw [if_neg (by omega), if_pos (by omega), Function.update_self,
                Nat.add_sub_cancel]
            · rw [if_neg (by omega), if_neg (by omega), Function.update_of_ne (by omega),
                Function.update_of_ne (by omega)]
      · next hge =>
          split
          · next hin =>
              congr 1
              omega
          · rfl

/-- Stored digits that are turned around. -/
theorem turn_around_holds (htext : text ≠ []) :
    HoldsString (turnAround (storeText m a text) a (a + text.length)) a text.reverse ∧
      ∀ i < a, turnAround (storeText m a text) a (a + text.length) i = m i := by
  have hpos := List.length_pos_iff.mpr htext
  refine ⟨.of_bytes (fun i hi => ?_) ?_, fun i hi => ?_⟩
  · rw [List.length_reverse] at hi
    have hplace : a + (a + text.length - 1) - (a + i) = a + (text.length - 1 - i) := by omega
    rw [turnAround, swap_loop_eq, if_pos (by omega), hplace, Function.update_of_ne (by omega),
      store_text_inside (by omega), List.getD_eq_getElem _ _ (by omega), List.getElem_reverse]
  · rw [List.length_reverse, turnAround, swap_loop_eq, if_neg (by omega), Function.update_self]
  · rw [turnAround, swap_loop_eq, if_neg (by omega), Function.update_of_ne (by omega),
      store_text_outside (.inl hi)]

theorem decimal_loop_ne_nil (value : Nat) : User.decimalLoop value ≠ [] := by
  rw [User.decimalLoop]
  exact List.cons_ne_nil _ _

/-- The digits of a number without a sign, with the first stored one counted up or not. -/
theorem stored_digits_hold (m : Bytes) (a value : Nat) (minFlag : Bool) :
    let r := digitLoop m a value
    let m' := turnAround (if minFlag then Function.update r.1 a (r.1 a + 1#8) else r.1) a r.2
    HoldsString m' a (User.countUp minFlag (User.decimalLoop value)).reverse ∧
      ∀ i < a, m' i = m i := by
  rw [digit_loop_eq]
  dsimp only
  cases minFlag with
  | false => exact turn_around_holds (decimal_loop_ne_nil value)
  | true =>
      obtain ⟨digit, rest, htext⟩ := List.exists_cons_of_ne_nil (decimal_loop_ne_nil value)
      have hup : Function.update (storeText m a (digit :: rest)) a
          (storeText m a (digit :: rest) a + 1#8) = storeText m a ((digit + 1#8) :: rest) := by
        have hfirst : storeText m a (digit :: rest) (a + 0) = digit :=
          store_text_inside (Nat.succ_pos rest.length)
        rw [Nat.add_zero] at hfirst
        rw [hfirst, storeText, store_text_update (Nat.lt_succ_self a), Function.update_idem]
        rfl
      rw [htext, if_pos rfl, hup]
      exact turn_around_holds (List.cons_ne_nil (digit + 1#8) rest)

/-- `itoa` and `ltoa_r` leave the text of the function on lists. -/
theorem signed_at_holds {w : Nat} (val : BitVec w) (m : Bytes) (str : Nat) :
    HoldsString (signedAt val m str) str (User.signedNumeral val) ∧
      ∀ i < str, signedAt val m str i = m i := by
  unfold signedAt User.signedNumeral
  dsimp only
  cases hminus : val.slt 0#w with
  | false =>
      obtain ⟨hholds, hkept⟩ := stored_digits_hold m str val.toNat false
      exact ⟨hholds, hkept⟩
  | true =>
      have hsign : ∀ {m' : Bytes} {digits : List Byte}, HoldsString m' (str + 1) digits →
          (∀ i < str + 1, m' i = Function.update m str 0x2d#8 i) →
          HoldsString m' str (0x2d#8 :: digits) ∧ ∀ i < str, m' i = m i :=
        fun hdigits hkept => ⟨HoldsString.cons_iff.mpr
          ⟨by rw [hkept str (Nat.lt_succ_self str), Function.update_self], hdigits⟩,
          fun i hi => by rw [hkept i (by omega), Function.update_of_ne hi.ne]⟩
      cases hmin : val.slt (-BitVec.intMax w) with
      | true =>
          obtain ⟨hholds, hkept⟩ := stored_digits_hold (Function.update m str 0x2d#8) (str + 1)
            (BitVec.intMax w).toNat true
          exact hsign hholds hkept
      | false =>
          obtain ⟨hholds, hkept⟩ := stored_digits_hold (Function.update m str 0x2d#8) (str + 1)
            (-val).toNat false
          exact hsign hholds hkept

/-! ### Hexadecimal numerals -/

theorem hex_digit_loop_eq (m : Bytes) (dest k : Nat) (n : BitVec 64) (l : List Byte) :
    hexDigitLoop (storeText m (dest + k) l) dest k n = storeText m dest (User.hexLoop k n l) := by
  induction k generalizing n l with
  | zero => rfl
  | succ k ih =>
      rw [hexDigitLoop, User.hexLoop, store_text_update (by omega), ← ih, storeText, Nat.add_assoc]

/-- The first digit that is not a zero. -/
theorem skip_zeros_cases (h : ∀ i < text.length, m (a + i) = text.getD i 0#8) :
    (text.dropWhile (· = 0x30#8) = [] ∧ skipZeros m text.length a = none) ∨
      ∃ zeros, text = zeros ++ text.dropWhile (· = 0x30#8) ∧
        text.dropWhile (· = 0x30#8) ≠ [] ∧ skipZeros m text.length a = some (a + zeros.length) := by
  induction text generalizing a with
  | nil => exact .inl ⟨rfl, rfl⟩
  | cons c text ih =>
      have hfirst : m a = c := h 0 (Nat.succ_pos _)
      rw [List.length_cons, skipZeros, hfirst]
      by_cases hc : c = 0x30#8
      · subst hc
        rw [if_pos rfl, List.dropWhile_cons_of_pos (by decide)]
        have hrest : ∀ i < text.length, m (a + 1 + i) = text.getD i 0#8 := fun i hi => by
          rw [Nat.add_assoc, Nat.add_comm 1 i]
          exact h (i + 1) (Nat.succ_lt_succ hi)
        rcases ih hrest with hnone | ⟨zeros, htext, hsome, hskip⟩
        · exact .inl hnone
        · refine .inr ⟨0x30#8 :: zeros, congrArg _ htext, hsome, ?_⟩
          rw [hskip, List.length_cons, Nat.add_assoc, Nat.add_comm 1]
      · rw [if_neg hc, List.dropWhile_cons_of_neg (by simpa using hc)]
        exact .inr ⟨[], rfl, List.cons_ne_nil c text, rfl⟩

/-- A copy onto an address that is not behind the string. -/
theorem strcpy_loop_holds (h : HoldsString m src t) (ht : 0#8 ∉ t) (hle : dest ≤ src) :
    ∃ m', Returns (fun n => strcpyLoop n m dest src) m' ∧ HoldsString m' dest t ∧
      ∀ i < dest, m' i = m i := by
  induction t generalizing m dest src with
  | nil =>
      refine ⟨Function.update m dest 0#8, Returns.of_add 1 fun n => ?_, ?_, fun i hi => ?_⟩
      · rw [strcpyLoop, if_pos (HoldsString.nil_iff.mp h)]
      · rw [HoldsString.nil_iff, Function.update_self]
      · rw [Function.update_of_ne hi.ne]
  | cons c t ih =>
      obtain ⟨hc, hrest⟩ := HoldsString.cons_iff.mp h
      have hne : c ≠ 0#8 := fun hzero => ht (hzero ▸ List.mem_cons_self)
      -- the rest of the string is behind the byte that was stored
      have hkept : HoldsString (Function.update m dest c) (src + 1) t :=
        hrest.congr fun i _ => Function.update_of_ne (by omega) _ _
      obtain ⟨m', hreturns, hholds, hfront⟩ := ih hkept
        (fun hmem => ht (List.mem_cons_of_mem _ hmem)) (Nat.succ_le_succ hle)
      refine ⟨m', hreturns.succ fun n => ?_, HoldsString.cons_iff.mpr ⟨?_, hholds⟩, fun i hi => ?_⟩
      · rw [strcpyLoop, hc, if_neg hne]
      · rw [hfront dest (Nat.lt_succ_self dest), Function.update_self]
      · rw [hfront i (by omega), Function.update_of_ne hi.ne]

theorem strlen_loop_eq (h : HoldsString m a t) (ht : 0#8 ∉ t) :
    Returns (fun n => strlenLoop n m a) t.length := by
  induction t generalizing a with
  | nil =>
      refine Returns.of_add 1 fun n => ?_
      rw [strlenLoop, if_pos (HoldsString.nil_iff.mp h)]
      rfl
  | cons c t ih =>
      obtain ⟨hc, hrest⟩ := HoldsString.cons_iff.mp h
      have hne : c ≠ 0#8 := fun hzero => ht (hzero ▸ List.mem_cons_self)
      obtain ⟨k, hk⟩ := ih hrest fun hmem => ht (List.mem_cons_of_mem _ hmem)
      refine Returns.of_add (k + 1) fun n => ?_
      have hrest := hk (n + k) (Nat.le_add_left k n)
      dsimp only at hrest
      rw [← Nat.add_assoc, strlenLoop, hc, if_neg hne, hrest]
      rfl

/-- A digit of `i2hex`. -/
theorem hex_digit_eq (n : BitVec 64) :
    (n &&& 0xf#64).setWidth 8 +
        (if ((n &&& 0xf#64).setWidth 8).toNat > 9 then 0x41#8 - 10#8 else 0x30#8) =
      digitByte (n.toNat % 16) := by
  have hdigit : ∀ k < 16, BitVec.ofNat 8 k +
      (if (BitVec.ofNat 8 k).toNat > 9 then 0x41#8 - 10#8 else 0x30#8) = digitByte k := by
    intro k hk
    interval_cases k <;> rfl
  have hlow : (n &&& 0xf#64).setWidth 8 = BitVec.ofNat 8 (n.toNat % 16) := by
    apply BitVec.eq_of_toNat_eq
    rw [BitVec.toNat_setWidth, BitVec.toNat_and, BitVec.toNat_ofNat, BitVec.toNat_ofNat,
      show 0xf % 2 ^ 64 = 2 ^ 4 - 1 by rfl, Nat.and_two_pow_sub_one_eq_mod]
  rw [hlow, hdigit _ (Nat.mod_lt _ (by decide))]

/-- The digits of the loop of `i2hex` say the lowest part of the number. -/
theorem hex_loop_digits (k : Nat) (n : BitVec 64) (l : List Byte) :
    ∃ ds, User.hexLoop k n l = ds ++ l ∧ ds.length = k ∧ AreDigits 16 ds ∧
      readDigits 16 ds = n.toNat % 16 ^ k := by
  induction k generalizing n l with
  | zero => exact ⟨[], rfl, rfl, nofun, (Nat.mod_one _).symm⟩
  | succ k ih =>
      have hlast : n.toNat % 16 < 16 := Nat.mod_lt _ (by decide)
      obtain ⟨ds, hloop, hlength, hdigits, hread⟩ :=
        ih (n >>> 4) (digitByte (n.toNat % 16) :: l)
      refine ⟨ds ++ [digitByte (n.toNat % 16)], ?_, ?_, hdigits.append (.single hlast), ?_⟩
      · rw [User.hexLoop, hex_digit_eq, hloop, List.append_assoc, List.singleton_append]
      · rw [List.length_append, hlength, List.length_singleton]
      · rw [read_digits_snoc, hread, digit_value_byte hlast, BitVec.toNat_ushiftRight,
          Nat.shiftRight_eq_div_pow, show 2 ^ 4 = 16 by rfl, pow_succ' 16 k, Nat.mod_mul]
        omega

/-- The digits of a number with zeros in front. -/
theorem hex_loop_nil (len : Nat) (val : BitVec 64) :
    (User.hexLoop len val []).length = len ∧ AreDigits 16 (User.hexLoop len val []) ∧
      readDigits 16 (User.hexLoop len val []) = val.toNat % 16 ^ len := by
  obtain ⟨ds, hloop, hlength, hdigits, hread⟩ := hex_loop_digits len val []
  rw [List.append_nil] at hloop
  rw [hloop]
  exact ⟨hlength, hdigits, hread⟩

/-- Null bytes behind a string. -/
theorem fill_behind (h : HoldsString m a t) (count : Nat) :
    HoldsString (fillBytes m (a + t.length) count 0#8) a t := by
  refine .of_bytes (fun i hi => ?_) ?_
  · rw [fill_bytes_outside (.inl (by omega)), h.byte hi]
  · rw [fillBytes]
    split
    · rfl
    · exact h.terminated

/-- The end of `i2hex`, for a string that does not fill its buffer. -/
theorem strlen_fill (h : HoldsString m a t) (ht : 0#8 ∉ t) (len : Nat) :
    ∃ m', Returns (fun fuel => do
        let n ← strlenLoop fuel m a
        pure (fillBytes m (a + n) (len - n) 0#8)) m' ∧ HoldsString m' a t := by
  obtain ⟨k, hk⟩ := strlen_loop_eq h ht
  refine ⟨_, ⟨k, fun n hn => ?_⟩, fill_behind h (len - t.length)⟩
  have hlength := hk n hn
  dsimp only at hlength ⊢
  rw [hlength]
  rfl

/-- `i2hex` leaves the text of the function on lists. -/
theorem i2hex_at_holds (val : BitVec 64) (m : Bytes) (dest len : Nat) :
    ∃ m', Returns (Kernel.i2hexAt val m dest len) m' ∧
      HoldsString m' dest (User.i2hex val len) := by
  unfold Kernel.i2hexAt User.i2hex
  by_cases hzero : val = 0#64
  · simp only [if_pos hzero]
    refine ⟨_, ⟨0, fun _ _ => rfl⟩, HoldsString.cons_iff.mpr ⟨?_, HoldsString.nil_iff.mpr ?_⟩⟩
    · rw [Function.update_of_ne (Nat.succ_ne_self dest).symm, Function.update_self]
    · rw [Function.update_self]
  · simp only [if_neg hzero]
    obtain ⟨hlength, hdigits, -⟩ := hex_loop_nil len val
    have hstored := store_text_holds m dest (User.hexLoop len val [])
    rw [← hex_digit_loop_eq, storeText, hlength] at hstored
    have hskip := skip_zeros_cases fun i (hi : i < (User.hexLoop len val []).length) =>
      hstored i hi.le
    rw [hlength] at hskip
    generalize Function.update (hexDigitLoop m dest len val) (dest + len) 0#8 = m₁
      at hstored hskip ⊢
    generalize User.hexLoop len val [] = digits at hstored hskip hdigits ⊢
    have hnull : 0#8 ∉ digits := hdigits.not_null (Nat.le_refl 16)
    rcases hskip with ⟨hnone, hskip⟩ | ⟨zeros, hsplit, hsome, hskip⟩
    · -- there are zeros only, and nothing is copied
      rw [hskip, hnone]
      exact strlen_fill hstored hnull len
    · rw [hskip]
      have hrest : HoldsString m₁ (dest + zeros.length) (digits.dropWhile (· = 0x30#8)) := by
        rw [hsplit] at hstored
        exact hstored.behind
      have hnull' : 0#8 ∉ digits.dropWhile (· = 0x30#8) := fun hmem =>
        hnull ((List.dropWhile_sublist _).mem hmem)
      obtain ⟨m₂, ⟨k, hk⟩, hcopied, -⟩ := strcpy_loop_holds hrest hnull' (Nat.le_add_right _ _)
      obtain ⟨m', ⟨k', hk'⟩, hholds⟩ := strlen_fill hcopied hnull' len
      refine ⟨m', ⟨max k k', fun n hn => ?_⟩, ?_⟩
      · have hcopy := hk n ((Nat.le_max_left k k').trans hn)
        dsimp only at hcopy ⊢
        rw [hcopy]
        exact hk' n ((Nat.le_max_right k k').trans hn)
      · split
        · next hnil => exact absurd hnil hsome
        · exact hholds

/-! ### The texts are canonical -/

/-- The sign of a number. -/
theorem slt_zero {w : Nat} (val : BitVec w) : val.slt 0#w = decide (val.toInt < 0) := by
  rw [BitVec.slt, BitVec.toInt_zero]

/-- The negation of a negative number is its absolute value, read without a sign. -/
theorem neg_to_nat {w : Nat} {val : BitVec w} (h : val.toInt < 0) :
    (-val).toNat = val.toInt.natAbs := by
  have hint := BitVec.toInt_eq_toNat_cond val
  have hlt := val.isLt
  rw [BitVec.toNat_neg]
  split at hint
  · omega
  · rw [Nat.mod_eq_of_lt (by omega), hint]
    omega

/-- Counting up the last digit, when it is not a nine. -/
theorem count_up_digits {value : Nat} (h : value % 10 < 9) :
    User.countUp true (User.decimalLoop value) = User.decimalLoop (value + 1) := by
  have hrest : (value + 1) / 10 = value / 10 := by omega
  have hdigit : ∀ d < 9, BitVec.ofNat 8 d + 0x30#8 + 1#8 = BitVec.ofNat 8 (d + 1) + 0x30#8 := by
    intro d hd
    interval_cases d <;> rfl
  have hlast : (value + 1) % 10 = value % 10 + 1 := by omega
  calc User.countUp true (User.decimalLoop value)
      = (BitVec.ofNat 8 (value % 10) + 0x30#8 + 1#8) ::
          if value / 10 = 0 then [] else User.decimalLoop (value / 10) := by
        rw [User.decimalLoop.eq_def value, User.countUp]
    _ = User.decimalLoop (value + 1) := by
        rw [hdigit _ h, User.decimalLoop.eq_def (value + 1), hrest, hlast]

/-- The text of `itoa` and `ltoa_r`. The smallest number is covered because the largest one does not
end in a nine. -/
theorem signed_numeral_text {w : Nat} (val : BitVec w)
    (hneg : (-BitVec.intMax w).toInt = -((BitVec.intMax w).toNat : Int))
    (hmost : 2 ^ (w - 1) = (BitVec.intMax w).toNat + 1)
    (hdigit : (BitVec.intMax w).toNat % 10 < 9) :
    User.signedNumeral val =
      (if val.toInt < 0 then [0x2d#8] else []) ++ decimalText val.toInt.natAbs := by
  rw [User.signedNumeral, slt_zero]
  by_cases hminus : val.toInt < 0
  · simp only [hminus, decide_true, if_true, List.singleton_append]
    by_cases hmin : val.toInt < (-BitVec.intMax w).toInt
    · have hlow := BitVec.le_toInt val
      have hpow : ((2 : Int) ^ (w - 1)) = ((BitVec.intMax w).toNat : Int) + 1 := by
        exact_mod_cast hmost
      have habs : val.toInt.natAbs = (BitVec.intMax w).toNat + 1 := by omega
      rw [BitVec.slt, decide_eq_true hmin, if_pos rfl, count_up_digits hdigit,
        User.decimal_loop_reverse, habs]
    · rw [BitVec.slt, decide_eq_false hmin, if_neg Bool.false_ne_true, User.decimal_loop_reverse,
        neg_to_nat hminus]
  · have hnat : val.toInt.natAbs = val.toNat := by
      have hint := BitVec.toInt_eq_toNat_cond val
      split at hint
      · omega
      · have := val.isLt
        omega
    simp only [hminus, decide_false, Bool.false_eq_true, if_false, List.nil_append]
    rw [User.decimal_loop_reverse, hnat]

/-- `itoa` stores the numeral of its argument. -/
theorem itoa_at_numeral (val : BitVec 32) (m : Bytes) (str : Nat) :
    HoldsNumeral (Kernel.itoaAt val m str) str 10 val.toInt := by
  refine ⟨decimalText val.toInt.natAbs, decimal_text_canonical _, ?_⟩
  rw [← signed_numeral_text val (by decide) (by decide) (by decide)]
  exact (signed_at_holds val m str).1

/-- `utoa_r` stores the numeral of its argument. -/
theorem utoa_r_at_numeral (val : BitVec 64) (m : Bytes) (str : Nat) :
    HoldsNumeral (utoaRAt val m str) str 10 val.toNat := by
  refine ⟨decimalText val.toNat, decimal_text_canonical _, ?_⟩
  rw [if_neg (by omega), List.nil_append, ← User.decimal_loop_reverse]
  exact (stored_digits_hold m str val.toNat false).1

/-- The digits of `i2hex` say the lowest part of the number. -/
theorem i2hex_reads (val : BitVec 64) (len : Nat) :
    readDigits 16 (User.i2hex val len) = val.toNat % 16 ^ len := by
  obtain ⟨-, -, hread⟩ := hex_loop_nil len val
  rw [User.i2hex]
  split
  · next hzero =>
      rw [hzero, read_digits_zero]
      exact (Nat.zero_mod _).symm
  · dsimp only
    split
    · exact hread
    · rw [read_digits_drop_zeros, hread]

theorem i2hex_digits (val : BitVec 64) (len : Nat) : AreDigits 16 (User.i2hex val len) := by
  obtain ⟨-, hdigits, -⟩ := hex_loop_nil len val
  rw [User.i2hex]
  split
  · exact .single (d := 0) (by decide)
  · dsimp only
    split
    · exact hdigits
    · exact fun c hc => hdigits c ((List.dropWhile_sublist _).mem hc)

/-- The text of `i2hex` for a number that `len` digits can say. -/
theorem i2hex_canonical {val : BitVec 64} {len : Nat} (h : val.toNat < 16 ^ len) :
    Canonical 16 val.toNat (User.i2hex val len) := by
  by_cases hzero : val = 0#64
  · rw [hzero, User.i2hex, if_pos rfl]
    exact .single (d := 0) (by decide) (Nat.le_refl 16)
  · obtain ⟨-, hdigits, hread⟩ := hex_loop_nil len val
    rw [Nat.mod_eq_of_lt h] at hread
    have hnat : val.toNat ≠ 0 := fun heq => hzero (BitVec.eq_of_toNat_eq heq)
    have hcanonical := Canonical.of_padded hdigits hread hnat
    rw [User.i2hex, if_neg hzero]
    dsimp only
    split
    · next hnil => exact absurd hnil hcanonical.nonempty
    · exact hcanonical

/-- `i2hex` stores the numeral of the numbers that `len` digits can say. -/
theorem i2hex_at_numeral_iff (val : BitVec 64) (m : Bytes) (dest len : Nat) :
    StoresNumeral (Kernel.i2hexAt val m dest len) dest 16 val.toNat ↔ val.toNat < 16 ^ len := by
  obtain ⟨m', hreturns, hholds⟩ := i2hex_at_holds val m dest len
  constructor
  · rintro ⟨m'', hreturns', digits, hcanonical, hnumeral⟩
    obtain rfl := hreturns.unique hreturns'
    rw [if_neg (by omega), List.nil_append] at hnumeral
    have hsame := hnumeral.unique hholds (hcanonical.digits.not_null (Nat.le_refl 16))
      ((i2hex_digits val len).not_null (Nat.le_refl 16))
    have hvalue := hcanonical.value
    rw [hsame, i2hex_reads, Int.natAbs_natCast] at hvalue
    rw [← hvalue]
    exact Nat.mod_lt _ (by positivity)
  · intro h
    refine ⟨m', hreturns, User.i2hex val len, i2hex_canonical h, ?_⟩
    rwa [if_neg (by omega), List.nil_append]

/-- `utoa` stores the numeral of its argument. -/
theorem utoa_at_numeral (val : BitVec 64) (m : Bytes) (dst : Nat) :
    StoresNumeral (Kernel.utoaAt val m dst 10) dst 10 val.toNat ∧
      StoresNumeral (Kernel.utoaAt val m dst 16) dst 16 val.toNat := by
  constructor
  · exact ⟨_, ⟨0, fun _ _ => rfl⟩, utoa_r_at_numeral val m dst⟩
  · have hfits : val.toNat < 16 ^ 16 := val.isLt
    exact (i2hex_at_numeral_iff val m dst 16).mpr hfits

/-- `ltoa` stores a sign of its own, and what `ltoa_r` stores for the negation behind it. -/
theorem ltoa_at_holds (val : BitVec 64) (m : Bytes) (dst : Nat) :
    ∃ m', Returns (User.ltoaAt val m dst 10) m' ∧ HoldsString m' dst (User.ltoa val 10) := by
  refine ⟨_, ⟨0, fun _ _ => rfl⟩, ?_⟩
  unfold User.ltoa
  cases hminus : val.slt 0#64 with
  | false => exact (signed_at_holds val m dst).1
  | true =>
      obtain ⟨hdigits, hkept⟩ :=
        signed_at_holds (-val) (Function.update m dst 0x2d#8) (dst + 1)
      refine HoldsString.cons_iff.mpr ⟨?_, hdigits⟩
      exact (hkept dst (Nat.lt_succ_self dst)).trans (Function.update_self ..)

/-- The text of `ltoa` for a number that can be negated. -/
theorem ltoa_text {val : BitVec 64} (h : val ≠ BitVec.intMin 64) :
    User.ltoa val 10 =
      (if val.toInt < 0 then [0x2d#8] else []) ++ decimalText val.toInt.natAbs := by
  rw [User.ltoa, slt_zero]
  by_cases hminus : val.toInt < 0
  · have hpositive : (-val).slt 0#64 = false := by
      rw [slt_zero, BitVec.toInt_neg_of_ne_intMin h]
      exact decide_eq_false (by omega)
    simp only [hminus, decide_true, if_true]
    rw [if_neg (by decide), User.ltoaR, User.signed_numeral_of_nonneg hpositive,
      neg_to_nat hminus]
  · have htext := signed_numeral_text val (by decide) (by decide) (by decide)
    rw [if_neg hminus] at htext
    simp only [hminus, decide_false, Bool.false_eq_true, if_false]
    rw [if_neg (by decide), User.ltoaR, htext]
    rfl

/-- The text of `ltoa` for the smallest number. -/
theorem ltoa_text_smallest :
    User.ltoa (BitVec.intMin 64) 10 = 0x2d#8 :: 0x2d#8 :: decimalText (2 ^ 63) := by
  have htext := signed_numeral_text (BitVec.intMin 64) (by decide) (by decide) (by decide)
  have habs : (BitVec.intMin 64).toInt.natAbs = 2 ^ 63 := by decide
  rw [if_pos (by decide), habs] at htext
  have hneg : -BitVec.intMin 64 = BitVec.intMin 64 := by decide
  rw [User.ltoa, slt_zero, decide_eq_true (by decide)]
  simp only [if_true]
  rw [if_neg (by decide), hneg, User.ltoaR, htext]
  rfl

/-- `ltoa` stores the numeral of every number but the smallest one. -/
theorem ltoa_at_numeral_iff (val : BitVec 64) (m : Bytes) (dst : Nat) :
    StoresNumeral (User.ltoaAt val m dst 10) dst 10 val.toInt ↔ val ≠ BitVec.intMin 64 := by
  obtain ⟨m', hreturns, hholds⟩ := ltoa_at_holds val m dst
  constructor
  · rintro ⟨m'', hreturns', digits, hcanonical, hnumeral⟩ rfl
    obtain rfl := hreturns.unique hreturns'
    rw [ltoa_text_smallest] at hholds
    rw [if_pos (by decide)] at hnumeral
    -- behind the sign there is a digit, and not another sign
    obtain ⟨c, rest, rfl⟩ := List.exists_cons_of_ne_nil hcanonical.nonempty
    have hsign := (HoldsString.cons_iff.mp (HoldsString.cons_iff.mp hholds).2).1
    have hdigit := (HoldsString.cons_iff.mp (HoldsString.cons_iff.mp hnumeral).2).1
    obtain ⟨d, hd, hc⟩ := hcanonical.digits c List.mem_cons_self
    rw [hsign, hc] at hdigit
    interval_cases d <;> exact absurd hdigit (by decide)
  · intro hval
    refine ⟨m', hreturns, decimalText val.toInt.natAbs, decimal_text_canonical _, ?_⟩
    rwa [← ltoa_text hval]

/-- The functions store the numerals of all numbers, but for the smallest one in `ltoa` and for
numbers with more than `len` digits in `i2hex`. -/
theorem numerals_canonical_iff (m : Bytes) (a : Nat) :
    (∀ val : BitVec 32, HoldsNumeral (User.itoaAt val m a) a 10 val.toInt ∧
      HoldsNumeral (Kernel.itoaAt val m a) a 10 val.toInt) ∧
    (∀ val : BitVec 64, StoresNumeral (User.ltoaAt val m a 10) a 10 val.toInt ↔
      val ≠ BitVec.intMin 64) ∧
    (∀ val : BitVec 64, StoresNumeral (User.utoaAt val m a 10) a 10 val.toNat ∧
      StoresNumeral (User.utoaAt val m a 16) a 16 val.toNat) ∧
    (∀ val : BitVec 64, StoresNumeral (Kernel.utoaAt val m a 10) a 10 val.toNat ∧
      StoresNumeral (Kernel.utoaAt val m a 16) a 16 val.toNat) ∧
    ∀ (val : BitVec 64) (len : Nat),
      (StoresNumeral (User.i2hexAt val m a len) a 16 val.toNat ↔ val.toNat < 16 ^ len) ∧
      (StoresNumeral (Kernel.i2hexAt val m a len) a 16 val.toNat ↔ val.toNat < 16 ^ len) :=
  ⟨fun val => ⟨itoa_at_numeral val m a, itoa_at_numeral val m a⟩,
    fun val => ltoa_at_numeral_iff val m a, fun val => utoa_at_numeral val m a,
    fun val => utoa_at_numeral val m a,
    fun val len => ⟨i2hex_at_numeral_iff val m a len, i2hex_at_numeral_iff val m a len⟩⟩

/-- The smallest number gets two signs. -/
theorem smallest_number_two_signs :
    ¬ StoresNumeral (User.ltoaAt (BitVec.intMin 64) (fun _ => 0#8) 0 10) 0 10
      (BitVec.intMin 64).toInt := fun h =>
  (ltoa_at_numeral_iff (BitVec.intMin 64) (fun _ => 0#8) 0).mp h rfl

end Sirius.Stdio
