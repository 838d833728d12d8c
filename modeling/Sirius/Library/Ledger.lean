import Mathlib.Algebra.Order.Group.Multiset
import Mathlib.Tactic.Abel

/-!
# The blocks of a heap

`malloc` gives out a new block with every call, and `free` takes one back; a ledger keeps what was
given out and what was passed to `free`. A program owns the blocks that it has still to free. As long
as it frees what it owns only, no block is freed twice.
-/

namespace Sirius.Library

/-- The number of blocks that `malloc` gave out, and the blocks passed to `free`, the last one
first. -/
structure Ledger where
  next : Nat
  freed : List Nat

namespace Ledger

def malloc (l : Ledger) : Nat × Ledger := (l.next, { l with next := l.next + 1 })

def free (l : Ledger) (b : Nat) : Ledger := { l with freed := b :: l.freed }

/-- `free` of a pointer that may be null, where it does nothing. -/
def freePtr (l : Ledger) : Option Nat → Ledger
  | none => l
  | some b => l.free b

/-- A block that a function gets and frees before it returns. -/
def scratch (l : Ledger) : Ledger := l.malloc.2.free l.malloc.1

/-- No block was passed to `free` twice. -/
def FreedOnce (l : Ledger) : Prop := l.freed.Nodup

/-- The blocks `o` are in use: they were given out, and none of them was freed. `p` says whether every
block so far was freed once only. -/
structure Owned (l : Ledger) (p : Prop) (o : Multiset Nat) : Prop where
  nodup : o.Nodup
  inUse : ∀ b ∈ o, b ∉ l.freed
  given : ∀ b ∈ o, b < l.next
  freed : ∀ b ∈ l.freed, b < l.next
  once : l.FreedOnce ↔ p

variable {l : Ledger} {p : Prop} {o o' : Multiset Nat} {b : Nat}

namespace Owned

/-- A new block is owned by the caller. -/
theorem malloc (h : l.Owned p o) : l.malloc.2.Owned p ({l.malloc.1} + o) where
  nodup := by
    rw [Multiset.singleton_add, Multiset.nodup_cons]
    exact ⟨fun hmem => lt_irrefl _ (h.given _ hmem), h.nodup⟩
  inUse b hb := by
    rw [Multiset.singleton_add, Multiset.mem_cons] at hb
    obtain rfl | hb := hb
    · exact fun hmem => lt_irrefl _ (h.freed _ hmem)
    · exact h.inUse b hb
  given b hb := by
    rw [Multiset.singleton_add, Multiset.mem_cons] at hb
    obtain rfl | hb := hb
    · exact Nat.lt_succ_self _
    · exact (h.given b hb).trans (Nat.lt_succ_self _)
  freed b hb := (h.freed b hb).trans (Nat.lt_succ_self _)
  once := h.once

/-- A block that is owned may be freed. -/
theorem free (h : l.Owned p ({b} + o)) : (l.free b).Owned p o := by
  have howned := h.nodup
  rw [Multiset.singleton_add, Multiset.nodup_cons] at howned
  have hmem : ∀ a ∈ o, a ∈ {b} + o := fun a ha => Multiset.mem_add.mpr (.inr ha)
  have hb : b ∈ {b} + o := Multiset.mem_add.mpr (.inl (Multiset.mem_singleton_self b))
  refine ⟨howned.2, fun a ha hfreed => ?_, fun a ha => h.given a (hmem a ha), fun a ha => ?_, ?_⟩
  · obtain rfl | hfreed := List.mem_cons.mp hfreed
    · exact howned.1 ha
    · exact h.inUse a (hmem a ha) hfreed
  · obtain rfl | ha := List.mem_cons.mp ha
    · exact h.given a hb
    · exact h.freed a ha
  · rw [← h.once, FreedOnce, Ledger.free, List.nodup_cons]
    exact and_iff_right (h.inUse b hb)

/-- A block that was freed is freed once more. -/
theorem free_again (h : l.Owned p o) (hb : b ∈ l.freed) : (l.free b).Owned False o := by
  refine ⟨h.nodup, fun a ha hfreed => ?_, h.given, fun a ha => ?_, ?_⟩
  · obtain rfl | hfreed := List.mem_cons.mp hfreed
    · exact h.inUse a ha hb
    · exact h.inUse a ha hfreed
  · obtain rfl | ha := List.mem_cons.mp ha
    · exact h.freed a hb
    · exact h.freed a ha
  · rw [FreedOnce, Ledger.free, List.nodup_cons]
    exact iff_of_false (fun hnodup => hnodup.1 hb) id

theorem scratch (h : l.Owned p o) : l.scratch.Owned p o := h.malloc.free

theorem scratch_iterate (h : l.Owned p o) (k : Nat) : (Ledger.scratch^[k] l).Owned p o := by
  induction k generalizing l with
  | zero => exact h
  | succ k ih => exact ih h.scratch

/-- Blocks may stay allocated for good. -/
theorem mono (h : l.Owned p o) (hle : o' ≤ o) : l.Owned p o' :=
  ⟨Multiset.nodup_of_le hle h.nodup, fun b hb => h.inUse b (Multiset.mem_of_le hle hb),
    fun b hb => h.given b (Multiset.mem_of_le hle hb), h.freed, h.once⟩

end Owned

end Ledger

end Sirius.Library
