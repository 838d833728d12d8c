import Mathlib.Data.List.Range

/-!
# Searches that return at once

A loop `for (i = 0; i < n; i++)` whose body may return is the first result of its body. Loops can be
nested: the body of the outer loop is then the whole inner loop, and what is found is the first
place in the order of the nested counters.
-/

namespace Sirius.Library

variable {α : Type*} {n : Nat} {f : Nat → Option α} {b : α}

/-- The result of a loop whose body returns. -/
def firstResult (n : Nat) (f : Nat → Option α) : Option α := (List.range n).findSome? f

theorem first_result_none : firstResult n f = none ↔ ∀ i < n, f i = none := by
  unfold firstResult
  rw [List.findSome?_eq_none_iff]
  exact forall_congr' fun i => by rw [List.mem_range]

/-- The loop returns in its first round that returns. -/
theorem first_result_some :
    firstResult n f = some b ↔ ∃ i < n, f i = some b ∧ ∀ j < i, f j = none := by
  induction n with
  | zero =>
      constructor
      · exact nofun
      · rintro ⟨i, hi, -⟩
        exact absurd hi (Nat.not_lt_zero i)
  | succ n ih =>
      have hsucc : firstResult (n + 1) f = (firstResult n f).or (f n) := by
        unfold firstResult
        rw [List.range_succ, List.findSome?_append, List.findSome?_singleton]
      rw [hsucc, Option.or_eq_some_iff, ih]
      constructor
      · rintro (⟨i, hi, hsome, hbefore⟩ | ⟨hnone, hsome⟩)
        · exact ⟨i, Nat.lt_succ_of_lt hi, hsome, hbefore⟩
        · exact ⟨n, Nat.lt_succ_self n, hsome, first_result_none.mp hnone⟩
      · rintro ⟨i, hi, hsome, hbefore⟩
        obtain hlt | rfl := Nat.lt_succ_iff_lt_or_eq.mp hi
        · exact .inl ⟨i, hlt, hsome, hbefore⟩
        · exact .inr ⟨first_result_none.mpr hbefore, hsome⟩

end Sirius.Library
