import Mathlib.Data.List.Infix
import Mathlib.Tactic

/-!
# Rings whose ends wrap lazily

A ring of `n` slots between a writer and a reader. Each end leaves its offset at `n` when it has
used the last slot and moves it to 0 at its next call, and a reader takes the ring for empty when
the two offsets are equal. The ring is a queue as long as at most `n - 1` entries are unread and no
read starts with both offsets at `n`: `Queue.put`, `Queue.get` and `Queue.get_empty` say what a call
does then, `Queue.get_at_end` what the excluded read does.
-/

namespace Sirius.Library

/-- The slots and the two offsets. -/
structure LazyRing (α : Type*) where
  slots : Nat → α
  off : Nat
  off2 : Nat

namespace LazyRing

variable {α : Type*} {n : Nat} {ring : LazyRing α} {written : List α} {read : Nat} {x : α}

/-- The offset that an end uses. -/
def wrap (n pos : Nat) : Nat := if n ≤ pos then 0 else pos

/-- A write. -/
def put (n : Nat) (x : α) (ring : LazyRing α) : LazyRing α :=
  { ring with
    slots := Function.update ring.slots (wrap n ring.off) x
    off := wrap n ring.off + 1 }

/-- A read: the entry, if the reader finds one. -/
def get (n : Nat) (ring : LazyRing α) : Option α × LazyRing α :=
  if ring.off = wrap n ring.off2 then (none, { ring with off2 := wrap n ring.off2 })
  else (some (ring.slots (wrap n ring.off2)), { ring with off2 := wrap n ring.off2 + 1 })

/-- Both offsets stand at the end of the ring. -/
def AtEnd (n : Nat) (ring : LazyRing α) : Prop := ring.off2 = ring.off ∧ ring.off = n

/-- The offset of an end after `k` calls: an end that has used the last slot stays behind it. -/
def offsetAfter (n k : Nat) : Nat := if k = 0 then 0 else (k - 1) % n + 1

/-- The offsets are those after the writes and the reads, and the slots hold the unread entries. -/
structure Queue (n : Nat) (ring : LazyRing α) (written : List α) (read : Nat) : Prop where
  off : ring.off = offsetAfter n written.length
  off2 : ring.off2 = offsetAfter n read
  le : read ≤ written.length
  room : written.length < read + n
  unread : ∀ k, read ≤ k → (hk : k < written.length) → ring.slots (k % n) = written[k]

/-! ### The offsets -/

theorem offset_after_succ (n k : Nat) : offsetAfter n (k + 1) = k % n + 1 := by
  simp [offsetAfter]

theorem offset_after_le (hn : 0 < n) (k : Nat) : offsetAfter n k ≤ n := by
  unfold offsetAfter
  split
  · exact Nat.zero_le n
  · exact Nat.mod_lt _ hn

/-- The slot behind the one of call `k`. -/
theorem succ_mod (hn : 0 < n) (k : Nat) : (k + 1) % n = wrap n (k % n + 1) := by
  have hlt := Nat.mod_lt k hn
  have hsplit : (k + 1) % n = (k % n + 1) % n := (Nat.mod_add_mod k n 1).symm
  rw [hsplit, wrap]
  by_cases hlast : n ≤ k % n + 1
  · have heq : k % n + 1 = n := Nat.le_antisymm hlt hlast
    rw [if_pos hlast, heq, Nat.mod_self]
  · rw [if_neg hlast, Nat.mod_eq_of_lt (Nat.lt_of_not_le hlast)]

/-- The slot that an end uses after `k` calls. -/
theorem wrap_offset_after (hn : 0 < n) (k : Nat) : wrap n (offsetAfter n k) = k % n := by
  cases k with
  | zero => rw [offsetAfter, if_pos rfl, wrap, if_neg (Nat.not_le.mpr hn), Nat.zero_mod]
  | succ k => rw [offset_after_succ, succ_mod hn]

/-- The wrapped offset of a ring whose slots take `size` bytes each. -/
theorem mul_wrap {size : Nat} (hsize : 0 < size) (n pos : Nat) :
    (if size * pos ≥ size * n then 0 else size * pos) = size * wrap n pos := by
  have hend : size * pos ≥ size * n ↔ n ≤ pos := Nat.mul_le_mul_left_iff hsize
  simp only [hend, wrap, mul_ite, Nat.mul_zero]

/-- The slots of two entries are different when they are less than `n` apart. -/
theorem slot_ne {j k : Nat} (hlt : j < k) (hnear : k < j + n) : j % n ≠ k % n := by
  intro heq
  have hdvd : n ∣ k - j := (Nat.modEq_iff_dvd' hlt.le).mp heq
  exact absurd (Nat.le_of_dvd (by omega) hdvd) (by omega)

/-- With fewer than `n` unread entries, the read offset meets the write offset only when none is
unread. -/
theorem offset_after_eq_slot {w r : Nat} (hle : r ≤ w) (hroom : w < r + n)
    (heq : offsetAfter n w = r % n) : r = w := by
  by_contra hne
  obtain ⟨k, rfl⟩ : ∃ k, w = k + 1 := ⟨w - 1, by omega⟩
  rw [offset_after_succ] at heq
  rcases Nat.eq_or_lt_of_le (show r ≤ k by omega) with rfl | hlt
  · omega
  · have hn : 0 < n := by omega
    have hslot : r % n ≠ (k + 1) % n := slot_ne (by omega) hroom
    have hlt := Nat.mod_lt r hn
    rw [succ_mod hn, heq, wrap, if_neg (Nat.not_le.mpr hlt)] at hslot
    exact hslot rfl

/-- When none is unread the two meet, unless both stand at the end of the ring. -/
theorem offset_after_eq_mod (hn : 0 < n) {k : Nat} (h : offsetAfter n k ≠ n) :
    offsetAfter n k = k % n := by
  rw [← wrap_offset_after hn, wrap, if_neg]
  have := offset_after_le hn k
  omega

/-! ### The calls -/

namespace Queue

/-- The empty ring. -/
theorem empty (hn : 0 < n) (slots : Nat → α) : Queue n ⟨slots, 0, 0⟩ [] 0 where
  off := rfl
  off2 := rfl
  le := le_rfl
  room := by simpa using hn
  unread := fun k _ hk => absurd hk (Nat.not_lt_zero k)

/-- The slot of the next write. -/
theorem write_slot (h : Queue n ring written read) : wrap n ring.off = written.length % n := by
  have hroom := h.room
  have hle := h.le
  rw [h.off, wrap_offset_after (by omega)]

/-- The slot of the next read. -/
theorem read_slot (h : Queue n ring written read) : wrap n ring.off2 = read % n := by
  have hroom := h.room
  have hle := h.le
  rw [h.off2, wrap_offset_after (by omega)]

/-- A write puts its entry behind the unread ones and leaves their slots alone. -/
theorem put (h : Queue n ring written read) (hroom : written.length + 1 < read + n) (x : α) :
    Queue n (ring.put n x) (written ++ [x]) read := by
  have hle := h.le
  constructor
  case off =>
      rw [LazyRing.put, h.write_slot, List.length_append, List.length_singleton, offset_after_succ]
  case off2 => exact h.off2
  case le =>
      rw [List.length_append]
      exact Nat.le_add_right_of_le hle
  case room =>
      rw [List.length_append, List.length_singleton]
      exact hroom
  case unread =>
      intro k hlow hhigh
      show Function.update ring.slots (wrap n ring.off) x (k % n) = _
      rw [h.write_slot]
      rw [List.length_append, List.length_singleton] at hhigh
      rcases Nat.lt_or_ge k written.length with hold | hnew
      · rw [List.getElem_append_left hold, ← h.unread k hlow hold]
        exact Function.update_of_ne (slot_ne hold (by omega)) _ _
      · obtain rfl : k = written.length := by omega
        rw [Function.update_self, List.getElem_concat_length rfl]

/-- A read finds the ring empty exactly when nothing is unread. -/
theorem get_none_iff (h : Queue n ring written read) (hend : ¬ ring.AtEnd n) :
    (ring.get n).1 = none ↔ read = written.length := by
  have hroom := h.room
  have hle := h.le
  rw [LazyRing.get, h.read_slot, h.off]
  constructor
  · intro hnone
    by_cases hempty : offsetAfter n written.length = read % n
    · exact offset_after_eq_slot hle hroom hempty
    · rw [if_neg hempty] at hnone
      cases hnone
  · intro hall
    have hfull : offsetAfter n written.length ≠ n := fun hfull => hend
      ⟨by rw [h.off, h.off2, hall], by rw [h.off, hfull]⟩
    rw [if_pos]
    rw [offset_after_eq_mod (by omega) hfull, hall]

/-- A read with nothing unread changes nothing. -/
theorem get_empty (h : Queue n ring written read) (hend : ¬ ring.AtEnd n)
    (hall : read = written.length) : ring.get n = (none, ring) := by
  have hnone := (h.get_none_iff hend).mpr hall
  rw [LazyRing.get] at hnone ⊢
  by_cases hempty : ring.off = wrap n ring.off2
  · have hstay : wrap n ring.off2 = ring.off2 := by rw [← hempty, h.off, h.off2, hall]
    rw [if_pos hempty, hstay]
  · rw [if_neg hempty] at hnone
    cases hnone

/-- A read with an unread entry returns the next one. -/
theorem get (h : Queue n ring written read) (hlt : read < written.length) :
    (ring.get n).1 = some written[read] ∧ Queue n (ring.get n).2 written (read + 1) := by
  have hroom := h.room
  have hnonempty : ring.off ≠ wrap n ring.off2 := by
    rw [h.off, h.read_slot]
    intro hempty
    exact hlt.ne (offset_after_eq_slot hlt.le hroom hempty)
  rw [LazyRing.get, if_neg hnonempty, h.read_slot]
  refine ⟨congrArg some (h.unread read le_rfl hlt), h.off, ?_, hlt, by omega, fun k hlow => ?_⟩
  · rw [offset_after_succ]
  · exact h.unread k (by omega)

/-- A read with both offsets at the end finds an entry although nothing is unread. -/
theorem get_at_end (h : Queue n ring written read) (hend : ring.AtEnd n) :
    read = written.length ∧ (ring.get n).1 = some (ring.slots 0) := by
  obtain ⟨hsame, hlast⟩ := hend
  have hroom := h.room
  have hle := h.le
  constructor
  · have hw := h.off
    have hr := h.off2
    rw [hlast] at hw
    rw [hsame, hlast] at hr
    by_contra hne
    have hslots : read % n ≠ written.length % n := slot_ne (by omega) hroom
    refine hslots ?_
    rw [← wrap_offset_after (by omega), ← wrap_offset_after (by omega), ← hw, ← hr]
  · have hwrap : wrap n ring.off2 = 0 := by rw [wrap, if_pos (by omega)]
    rw [LazyRing.get, hwrap, if_neg (by omega)]

end Queue

end LazyRing

end Sirius.Library
