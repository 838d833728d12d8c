import Sirius.Library.Bytes

/-!
# Sixteen-bit one's-complement sums

The arithmetic behind the internet checksum. `onesAdd` adds two words with an end-around carry,
`onesSum` is the sum of a list of words, and `internetChecksum` its complement over the big-endian
words of a list of bytes. A one's-complement sum is the ordinary sum reduced by `residue`, the
representative of a number modulo 65535 that is 0 only for 0. This is why the sum does not depend
on when the carries are added back (`ones_sum_eq`) and why it may be formed over byte-swapped words
(`swap_residue`, `little_sum_residue`).
-/

namespace Sirius.Library

/-- The sum of two words, with the carry added at the low end. -/
def onesAdd (a b : Nat) : Nat := if a + b < 2 ^ 16 then a + b else a + b - 0xffff

/-- The one's-complement sum of words. -/
def onesSum (words : List Nat) : Nat := words.foldl onesAdd 0

/-- The big-endian words of a list of bytes. An odd last byte is padded with zero. -/
def bigWords : List Byte → List Nat
  | high :: low :: bytes => (2 ^ 8 * high.toNat + low.toNat) :: bigWords bytes
  | [high] => [2 ^ 8 * high.toNat]
  | [] => []

/-- The little-endian words of a list of bytes, padded in the same way. -/
def littleWords : List Byte → List Nat
  | low :: high :: bytes => (low.toNat + 2 ^ 8 * high.toNat) :: littleWords bytes
  | [low] => [low.toNat]
  | [] => []

/-- The complement of the one's-complement sum of the big-endian words. -/
def internetChecksum (bytes : List Byte) : Nat := 0xffff - onesSum (bigWords bytes)

/-- The representative of `n` modulo 65535 in `1 .. 65535`, and 0 for 0. -/
def residue (n : Nat) : Nat := if n = 0 then 0 else (n - 1) % 0xffff + 1

/-- A word with its two bytes exchanged. -/
def swapBytes (w : Nat) : Nat := 2 ^ 8 * (w % 2 ^ 8) + w / 2 ^ 8

variable {a b n m : Nat} {words : List Nat} {bytes bytes' : List Byte}

/-! ### Residues -/

@[simp] theorem residue_zero : residue 0 = 0 := rfl

theorem residue_le (n : Nat) : residue n ≤ 0xffff := by
  unfold residue
  split <;> omega

theorem residue_eq_zero_iff : residue n = 0 ↔ n = 0 := by
  unfold residue
  split <;> omega

/-- A residue differs from the number by a multiple of 65535. -/
theorem residue_add_mul (n : Nat) : ∃ k, n = residue n + 0xffff * k := by
  refine ⟨(n - 1) / 0xffff, ?_⟩
  unfold residue
  split <;> omega

/-- Numbers with the same remainder that are zero together have the same residue. -/
theorem residue_congr (hmod : n % 0xffff = m % 0xffff) (hzero : n = 0 ↔ m = 0) :
    residue n = residue m := by
  unfold residue
  by_cases hn : n = 0
  · rw [if_pos hn, if_pos (hzero.mp hn)]
  · have hm := mt hzero.mpr hn
    rw [if_neg hn, if_neg hm]
    omega

/-- A 16-bit number is its own residue. -/
theorem residue_of_le (h : n ≤ 0xffff) : residue n = n := by
  unfold residue
  split <;> omega

/-- A part of a sum may be reduced first. -/
theorem residue_add_residue (n m : Nat) : residue (residue n + m) = residue (n + m) := by
  obtain ⟨k, hk⟩ := residue_add_mul n
  refine residue_congr ?_ ?_
  · omega
  · have hzero := residue_eq_zero_iff (n := n)
    omega

/-- A number and the complement of its residue add up to a multiple of 65535. -/
theorem residue_complement (n : Nat) : residue (n + (0xffff - residue n)) = 0xffff := by
  obtain ⟨k, hk⟩ := residue_add_mul n
  have hle := residue_le n
  have hsum : n + (0xffff - residue n) = 0xffff * (k + 1) := by omega
  rw [hsum]
  unfold residue
  rw [if_neg (by omega)]
  omega

/-! ### One's-complement sums are residues -/

theorem ones_add_eq (ha : a ≤ 0xffff) (hb : b ≤ 0xffff) : onesAdd a b = residue (a + b) := by
  unfold onesAdd residue
  split <;> split <;> omega

/-- The carries may be added back at the end. -/
theorem ones_sum_eq (hwords : ∀ w ∈ words, w ≤ 0xffff) : onesSum words = residue words.sum := by
  have hfold : ∀ acc ≤ 0xffff, words.foldl onesAdd acc = residue (acc + words.sum) := by
    induction words with
    | nil => exact fun acc hacc => (residue_of_le hacc).symm
    | cons w words ih =>
        intro acc hacc
        have hw := hwords w (List.mem_cons_self ..)
        have hrest := ih (fun v hv => hwords v (List.mem_cons_of_mem _ hv)) (residue (acc + w))
          (residue_le _)
        rw [List.foldl_cons, ones_add_eq hacc hw, hrest, residue_add_residue, List.sum_cons,
          Nat.add_assoc]
  have hstart := hfold 0 (Nat.zero_le _)
  rwa [Nat.zero_add] at hstart

theorem big_words_le : ∀ w ∈ bigWords bytes, w ≤ 0xffff := by
  induction bytes using bigWords.induct with
  | case1 high low bytes ih =>
      intro w hw
      have hhigh := high.isLt
      have hlow := low.isLt
      rcases List.mem_cons.mp hw with rfl | hw
      · omega
      · exact ih w hw
  | case2 high =>
      intro w hw
      have hhigh := high.isLt
      rw [List.mem_singleton.mp hw]
      omega
  | case3 => simp [bigWords]

/-- The internet checksum from the ordinary sum of the words. -/
theorem internet_checksum_eq (bytes : List Byte) :
    internetChecksum bytes = 0xffff - residue (bigWords bytes).sum := by
  rw [internetChecksum, ones_sum_eq big_words_le]

/-- The words of two parts, the first of which ends at a word boundary. -/
theorem big_sum_append (h : bytes.length % 2 = 0) :
    (bigWords (bytes ++ bytes')).sum = (bigWords bytes).sum + (bigWords bytes').sum := by
  induction bytes using bigWords.induct with
  | case1 high low bytes ih =>
      have hrest := ih (by simp only [List.length_cons] at h; omega)
      simp only [List.cons_append, bigWords, List.sum_cons, hrest, Nat.add_assoc]
  | case2 high => simp at h
  | case3 => simp [bigWords]

theorem little_sum_append (h : bytes.length % 2 = 0) :
    (littleWords (bytes ++ bytes')).sum =
      (littleWords bytes).sum + (littleWords bytes').sum := by
  induction bytes using littleWords.induct with
  | case1 low high bytes ih =>
      have hrest := ih (by simp only [List.length_cons] at h; omega)
      simp only [List.cons_append, littleWords, List.sum_cons, hrest, Nat.add_assoc]
  | case2 low => simp at h
  | case3 => simp [littleWords]

/-! ### Byte order -/

/-- Every little-endian word is the byte-swapped big-endian one. -/
theorem little_sum_mod (bytes : List Byte) :
    2 ^ 8 * (littleWords bytes).sum % 0xffff = (bigWords bytes).sum % 0xffff ∧
      ((littleWords bytes).sum = 0 ↔ (bigWords bytes).sum = 0) := by
  induction bytes using bigWords.induct with
  | case1 high low bytes ih =>
      obtain ⟨hmod, hzero⟩ := ih
      simp only [littleWords, bigWords, List.sum_cons]
      omega
  | case2 high =>
      simp only [littleWords, bigWords, List.sum_cons, List.sum_nil]
      omega
  | case3 => simp [littleWords, bigWords]

/-- Exchanging the bytes of a residue. -/
theorem swap_residue (n : Nat) : swapBytes (residue n) = residue (2 ^ 8 * n) := by
  obtain ⟨k, hk⟩ := residue_add_mul n
  have hle := residue_le n
  have hzero := residue_eq_zero_iff (n := n)
  have hswap : swapBytes (residue n) ≤ 0xffff := by
    unfold swapBytes
    omega
  rw [← residue_of_le hswap]
  refine residue_congr ?_ ?_
  · unfold swapBytes
    omega
  · unfold swapBytes
    omega

/-- The sum over little-endian words is the byte-swapped sum over big-endian words. -/
theorem little_sum_residue (bytes : List Byte) :
    swapBytes (residue (littleWords bytes).sum) = residue (bigWords bytes).sum := by
  obtain ⟨hmod, hzero⟩ := little_sum_mod bytes
  rw [swap_residue]
  exact residue_congr hmod (by omega)

/-- A bound for the sum of the words of `n` bytes. -/
theorem little_sum_le (bytes : List Byte) :
    (littleWords bytes).sum ≤ (bytes.length + 1) / 2 * 0xffff := by
  induction bytes using littleWords.induct with
  | case1 low high bytes ih =>
      have hlow := low.isLt
      have hhigh := high.isLt
      simp only [littleWords, List.sum_cons, List.length_cons]
      omega
  | case2 low =>
      have hlow := low.isLt
      simp only [littleWords, List.sum_cons, List.sum_nil, List.length_cons, List.length_nil]
      omega
  | case3 => simp [littleWords]

end Sirius.Library
