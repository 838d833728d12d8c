import Sirius.Library.Bytes

/-!
# Moving bytes within one storage

A byte-by-byte move between two ranges of one storage is the copy of the old contents when it runs
upwards towards lower addresses or downwards towards higher ones. `Traced` keeps the addresses that
were read or written, so that a bound on them can be stated.
-/

namespace Sirius.Library

/-- A storage with the addresses accessed so far. -/
structure Traced where
  bytes : Bytes
  touched : List Nat

namespace Traced

/-- One byte read at `src` and written at `dst`. -/
def copyByte (m : Traced) (dst src : Nat) : Traced :=
  ⟨Function.update m.bytes dst (m.bytes src), dst :: src :: m.touched⟩

/-- One byte written. -/
def store (m : Traced) (dst : Nat) (value : Byte) : Traced :=
  ⟨Function.update m.bytes dst value, dst :: m.touched⟩

/-- `count` bytes moved, the lowest first. -/
def moveUp (dst src : Nat) : Nat → Traced → Traced
  | 0, m => m
  | count + 1, m => moveUp (dst + 1) (src + 1) count (m.copyByte dst src)

/-- `count` bytes moved, the highest first. -/
def moveDown (dst src : Nat) : Nat → Traced → Traced
  | 0, m => m
  | count + 1, m => moveDown dst src count (m.copyByte (dst + count) (src + count))

variable {m : Traced} {dst src count i : Nat}

/-- An upward move copies the old contents when its target lies below its source or behind it. -/
theorem move_up_bytes (h : dst ≤ src ∨ src + count ≤ dst) :
    (moveUp dst src count m).bytes = copyBytes m.bytes dst m.bytes src count := by
  induction count generalizing dst src m with
  | zero =>
      funext i
      rw [copy_bytes_outside (by omega)]
      rfl
  | succ count ih =>
      rw [moveUp, ih (by omega)]
      funext i
      simp only [copyByte, copyBytes, Function.update_apply]
      -- the sources still to come are no targets so far
      by_cases hi : i = dst
      · rw [if_neg (by omega), if_pos hi, if_pos (by omega)]
        congr 1
        omega
      · by_cases hin : dst + 1 ≤ i ∧ i < dst + 1 + count
        · rw [if_pos hin, if_neg (by omega), if_pos (by omega)]
          congr 1
          omega
        · rw [if_neg hin, if_neg hi, if_neg (by omega)]

/-- A downward move copies the old contents when its target lies above its source. -/
theorem move_down_bytes (h : src ≤ dst) :
    (moveDown dst src count m).bytes = copyBytes m.bytes dst m.bytes src count := by
  induction count generalizing m with
  | zero =>
      funext i
      rw [copy_bytes_outside (by omega)]
      rfl
  | succ count ih =>
      rw [moveDown, ih]
      funext i
      simp only [copyByte, copyBytes, Function.update_apply]
      by_cases hin : dst ≤ i ∧ i < dst + count
      · rw [if_pos hin, if_neg (by omega), if_pos (by omega)]
      · rw [if_neg hin]
        by_cases hi : i = dst + count
        · rw [if_pos hi, if_pos (by omega), hi, Nat.add_sub_cancel_left]
        · rw [if_neg hi, if_neg (by omega)]

theorem mem_move_up : i ∈ (moveUp dst src count m).touched ↔
    i ∈ m.touched ∨ (dst ≤ i ∧ i < dst + count) ∨ (src ≤ i ∧ i < src + count) := by
  induction count generalizing dst src m with
  | zero => simp [moveUp]
  | succ count ih =>
      rw [moveUp, ih]
      simp only [copyByte, List.mem_cons]
      by_cases hm : i ∈ m.touched
      · simp [hm]
      · simp only [hm, or_false, false_or]
        omega

theorem mem_move_down : i ∈ (moveDown dst src count m).touched ↔
    i ∈ m.touched ∨ (dst ≤ i ∧ i < dst + count) ∨ (src ≤ i ∧ i < src + count) := by
  induction count generalizing m with
  | zero => simp [moveDown]
  | succ count ih =>
      rw [moveDown, ih]
      simp only [copyByte, List.mem_cons]
      by_cases hm : i ∈ m.touched
      · simp [hm]
      · simp only [hm, or_false, false_or]
        omega

end Traced

end Sirius.Library
