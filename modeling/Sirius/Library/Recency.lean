import Mathlib.Data.List.Nodup

/-!
# Lists in the order of last use

`ByRecency uses l` says that each element of `l` was used after the elements behind it, where `uses`
has the last use first. Using an element moves it to the front (`ByRecency.touch`), and elements can
be taken out (`ByRecency.sublist`).
-/

namespace Sirius.Library

variable {α : Type*} [DecidableEq α] {uses l l' : List α}

/-- The elements are ordered by their last use. -/
def ByRecency (uses l : List α) : Prop := l.Pairwise fun a b => uses.idxOf a < uses.idxOf b

namespace ByRecency

theorem nil : ByRecency uses [] := List.Pairwise.nil

theorem sublist (h : ByRecency uses l) (hsub : l'.Sublist l) : ByRecency uses l' :=
  List.Pairwise.sublist hsub h

/-- An element that is used goes to the front, also a new one. -/
theorem touch (h : ByRecency uses l) (hnodup : l.Nodup) (a : α) :
    ByRecency (a :: uses) (a :: l.erase a) := by
  have hlater : ∀ b ∈ l.erase a, (a :: uses).idxOf b = uses.idxOf b + 1 := fun b hb => by
    have hne : a ≠ b := fun heq => ((hnodup.mem_erase_iff.mp hb).1 heq.symm)
    exact List.idxOf_cons_ne uses hne
  refine List.pairwise_cons.mpr ⟨fun b hb => ?_, ?_⟩
  · rw [List.idxOf_cons_self, hlater b hb]
    exact Nat.succ_pos _
  · refine (h.sublist List.erase_sublist).imp_of_mem fun {b c} hb hc hlt => ?_
    rw [hlater b hb, hlater c hc]
    exact Nat.succ_lt_succ hlt

end ByRecency

end Sirius.Library
