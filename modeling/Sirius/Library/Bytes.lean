import Mathlib.Logic.Function.Basic
import Mathlib.Tactic

/-!
# Byte-addressed storage

A storage is a total map from addresses to bytes. `copyBytes` and `fillBytes` are the effect of
`memcpy` and `memset` on it, and `readWord` and `writeWord` access a little-endian 32-bit word at
any address. The lemmas say what an access reads back and what a write leaves alone.
-/

namespace Sirius.Library

/-- An eight-bit byte. -/
abbrev Byte := BitVec 8

/-- A storage: the byte at every address. -/
abbrev Bytes := Nat → Byte

/-- `dst` with `count` bytes at `pos` replaced by those of `src` from `start` on. -/
def copyBytes (dst : Bytes) (pos : Nat) (src : Bytes) (start count : Nat) : Bytes :=
  fun i => if pos ≤ i ∧ i < pos + count then src (start + (i - pos)) else dst i

/-- `dst` with `count` bytes at `pos` set to `value`. -/
def fillBytes (dst : Bytes) (pos count : Nat) (value : Byte) : Bytes :=
  fun i => if pos ≤ i ∧ i < pos + count then value else dst i

/-- The little-endian 32-bit word at address `a`. -/
def readWord (m : Bytes) (a : Nat) : Nat :=
  (m a).toNat + 2 ^ 8 * (m (a + 1)).toNat + 2 ^ 16 * (m (a + 2)).toNat +
    2 ^ 24 * (m (a + 3)).toNat

/-- `m` with the little-endian 32-bit word at address `a` set to `v`. -/
def writeWord (m : Bytes) (a v : Nat) : Bytes :=
  fun i => if a ≤ i ∧ i < a + 4 then BitVec.ofNat 8 (v / 2 ^ (8 * (i - a))) else m i

/-- The little-endian 16-bit word at address `a`. -/
def readHalf (m : Bytes) (a : Nat) : Nat := (m a).toNat + 2 ^ 8 * (m (a + 1)).toNat

/-- `m` with the little-endian 16-bit word at address `a` set to `v`. -/
def writeHalf (m : Bytes) (a v : Nat) : Bytes :=
  fun i => if a ≤ i ∧ i < a + 2 then BitVec.ofNat 8 (v / 2 ^ (8 * (i - a))) else m i

/-- The `len` bytes from `start` on. -/
def slice (m : Bytes) (start len : Nat) : List Byte :=
  (List.range len).map fun i => m (start + i)

variable {m m' dst src : Bytes} {a b i v pos start count : Nat} {value : Byte}

@[simp] theorem slice_length (m : Bytes) (start len : Nat) : (slice m start len).length = len := by
  simp [slice]

/-- A slice depends on its own bytes only. -/
theorem slice_congr {len : Nat} (h : ∀ i < len, m (a + i) = m' (b + i)) :
    slice m a len = slice m' b len :=
  List.map_congr_left fun i hi => h i (List.mem_range.mp hi)

/-- A slice in two parts. -/
theorem slice_add (m : Bytes) (start n len : Nat) :
    slice m start (n + len) = slice m start n ++ slice m (start + n) len := by
  simp only [slice, List.range_add, List.map_append, List.map_map, Function.comp_def,
    Nat.add_assoc]

theorem copy_bytes_inside (h : i < count) :
    copyBytes dst pos src start count (pos + i) = src (start + i) := by
  simp [copyBytes, h]

/-- A copy from the start of the source. -/
theorem copy_bytes_start (h : i < count) : copyBytes dst pos src 0 count (pos + i) = src i := by
  rw [copy_bytes_inside h, Nat.zero_add]

theorem copy_bytes_outside (h : i < pos ∨ pos + count ≤ i) :
    copyBytes dst pos src start count i = dst i := by
  simp only [copyBytes, ite_eq_right_iff]
  omega

/-- Writing a range back with one byte changed. -/
theorem copy_update (h : ∀ k < count, src k = dst (pos + k)) (ha : a < count) :
    copyBytes dst pos (Function.update src a value) 0 count =
      Function.update dst (pos + a) value := by
  funext x
  by_cases hin : pos ≤ x ∧ x < pos + count
  · obtain ⟨y, rfl⟩ := Nat.exists_eq_add_of_le hin.1
    rw [copy_bytes_start (by omega)]
    by_cases hy : y = a
    · rw [hy, Function.update_self, Function.update_self]
    · rw [Function.update_of_ne hy, Function.update_of_ne (by omega), h y (by omega)]
  · rw [copy_bytes_outside (by omega), Function.update_of_ne (by omega)]

theorem fill_bytes_outside (h : i < pos ∨ pos + count ≤ i) :
    fillBytes dst pos count value i = dst i := by
  simp only [fillBytes, ite_eq_right_iff]
  omega

theorem write_word_outside (h : i < a ∨ a + 4 ≤ i) : writeWord m a v i = m i := by
  simp only [writeWord, ite_eq_right_iff]
  omega

theorem read_word_lt : readWord m a < 2 ^ 32 := by
  have h₀ := (m a).isLt
  have h₁ := (m (a + 1)).isLt
  have h₂ := (m (a + 2)).isLt
  have h₃ := (m (a + 3)).isLt
  unfold readWord
  omega

/-- A word depends on its four bytes only. -/
theorem read_word_congr (h : ∀ k < 4, m (a + k) = m' (b + k)) : readWord m a = readWord m' b := by
  have h₀ := h 0 (by omega)
  have h₁ := h 1 (by omega)
  have h₂ := h 2 (by omega)
  have h₃ := h 3 (by omega)
  simp only [Nat.add_zero] at h₀
  simp only [readWord, h₀, h₁, h₂, h₃]

/-- A number that was written as a word keeps its low 32 bits. -/
theorem read_write_word_mod (m : Bytes) (a v : Nat) : readWord (writeWord m a v) a = v % 2 ^ 32 := by
  simp only [readWord, writeWord, le_refl, true_and, Nat.le_add_right,
    Nat.add_lt_add_iff_left, Nat.sub_self, Nat.add_sub_cancel_left, Nat.lt_add_right_iff_pos]
  norm_num
  omega

/-- Reading back a word that was written. -/
theorem read_write_word_same (h : v < 2 ^ 32) : readWord (writeWord m a v) a = v := by
  rw [read_write_word_mod, Nat.mod_eq_of_lt h]

/-- Writing a word that is there already. -/
theorem write_read_word (m : Bytes) (a : Nat) : writeWord m a (readWord m a) = m := by
  funext i
  unfold writeWord
  split
  case isFalse => rfl
  case isTrue hi =>
    obtain ⟨k, rfl⟩ := Nat.exists_eq_add_of_le hi.1
    have hk : k < 4 := by omega
    have h₀ := (m a).isLt
    have h₁ := (m (a + 1)).isLt
    have h₂ := (m (a + 2)).isLt
    have h₃ := (m (a + 3)).isLt
    apply BitVec.eq_of_toNat_eq
    rw [Nat.add_sub_cancel_left, BitVec.toNat_ofNat, readWord]
    interval_cases k
    · show _ = (m a).toNat
      omega
    · omega
    · omega
    · omega

/-- A word disjoint from the one written is unchanged. -/
theorem read_write_word_other (h : b + 4 ≤ a ∨ a + 4 ≤ b) :
    readWord (writeWord m a v) b = readWord m b :=
  read_word_congr fun k hk => write_word_outside (by omega)

theorem write_half_outside (h : i < a ∨ a + 2 ≤ i) : writeHalf m a v i = m i := by
  simp only [writeHalf, ite_eq_right_iff]
  omega

/-- A 16-bit word depends on its two bytes only. -/
theorem read_half_congr (h : ∀ k < 2, m (a + k) = m' (b + k)) : readHalf m a = readHalf m' b := by
  have h₀ := h 0 (by omega)
  have h₁ := h 1 (by omega)
  simp only [Nat.add_zero] at h₀
  simp only [readHalf, h₀, h₁]

/-- Reading back a 16-bit word that was written. -/
theorem read_write_half_same (h : v < 2 ^ 16) : readHalf (writeHalf m a v) a = v := by
  simp only [readHalf, writeHalf, le_refl, true_and, Nat.le_add_right,
    Nat.add_lt_add_iff_left, Nat.sub_self, Nat.add_sub_cancel_left, Nat.lt_add_right_iff_pos]
  norm_num
  omega

/-- A word beside a changed byte is unchanged. -/
theorem read_update_word (h : i < a ∨ a + 4 ≤ i) :
    readWord (Function.update m i value) a = readWord m a :=
  read_word_congr fun k hk => Function.update_of_ne (by omega) _ _

/-- A word outside a copied range is unchanged. -/
theorem read_copy_word_outside (h : a + 4 ≤ pos ∨ pos + count ≤ a) :
    readWord (copyBytes dst pos src start count) a = readWord dst a :=
  read_word_congr fun k hk => copy_bytes_outside (by omega)

/-- A word inside a copied range is the word of the source. -/
theorem read_copy_word_inside (h : i + 4 ≤ count) :
    readWord (copyBytes dst pos src start count) (pos + i) = readWord src (start + i) :=
  read_word_congr fun k hk => by
    rw [Nat.add_assoc, copy_bytes_inside (by omega), Nat.add_assoc]

end Sirius.Library
