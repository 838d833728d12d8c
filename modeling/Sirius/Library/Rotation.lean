import Mathlib.Data.List.Basic
import Mathlib.Tactic

/-!
# Taking turns

`Rotates f l` says that the sequence `f` goes through the list `l` again and again. A sequence does
so when it starts at the head of the list and every step leads to the element behind the current
one, or back to the head behind the last one (`rotates_of_step`). When no element occurs twice in
the list, every other element has exactly one turn between two turns of an element
(`Rotates.once_between`).
-/

namespace Sirius.Library

variable {α : Type*} {f : Nat → α} {l : List α} {p q : α} {i j k : Nat}

/-- The sequence goes through the list again and again. -/
def Rotates (f : Nat → α) (l : List α) : Prop := ∀ k, l[k % l.length]? = some (f k)

/-- A sequence rotates when each step leads to the next element of the list, and behind the last one
to the first one. -/
theorem rotates_of_step {c : α} (hstart : f 0 = c)
    (hstep : ∀ k l₁ l₂, c :: l = l₁ ++ f k :: l₂ → k % (c :: l).length = l₁.length →
      f (k + 1) = l₂.head?.getD c) : Rotates f (c :: l) := by
  intro k
  induction k with
  | zero => simp [hstart]
  | succ k ih =>
      have hlt : k % (c :: l).length < (c :: l).length := Nat.mod_lt _ (Nat.succ_pos _)
      obtain ⟨i, hi⟩ : ∃ i, i = k % (c :: l).length := ⟨_, rfl⟩
      rw [← hi] at ih hlt
      have hsplit : c :: l = (c :: l).take i ++ f k :: (c :: l).drop (i + 1) := by
        obtain ⟨hbound, hget⟩ := List.getElem?_eq_some_iff.mp ih
        rw [← hget, ← List.drop_eq_getElem_cons hbound, List.take_append_drop]
      have hnext := hstep k _ _ hsplit (by rw [← hi, List.length_take]; omega)
      rw [List.head?_drop] at hnext
      by_cases hlast : i + 1 < (c :: l).length
      · have hmod : (k + 1) % (c :: l).length = i + 1 := by
          rw [Nat.add_mod, ← hi, Nat.mod_eq_of_lt (show 1 < (c :: l).length by omega),
            Nat.mod_eq_of_lt hlast]
        rw [hmod, hnext, List.getElem?_eq_getElem hlast, Option.getD_some]
      · have hmod : (k + 1) % (c :: l).length = 0 := by
          have hlength : i + 1 = (c :: l).length := by omega
          rw [Nat.add_mod, ← hi]
          by_cases hone : (c :: l).length = 1
          · rw [hone, Nat.mod_one]
          · rw [Nat.mod_eq_of_lt (show 1 < (c :: l).length by omega), hlength, Nat.mod_self]
        rw [hmod, hnext, List.getElem?_eq_none (Nat.le_of_not_lt hlast), Option.getD_none]
        rfl

namespace Rotates

theorem mem (h : Rotates f l) (k : Nat) : f k ∈ l := List.mem_of_getElem? (h k)

/-- The turns of an element are those with its index. -/
theorem eq_iff (h : Rotates f l) (hnodup : l.Nodup) :
    f i = f j ↔ i % l.length = j % l.length := by
  have hpos : 0 < l.length := List.length_pos_of_mem (h.mem i)
  rw [← Option.some.injEq, ← h i, ← h j, List.getElem?_inj (Nat.mod_lt _ hpos) hnodup]

/-- Two turns of an element that are closer than a round are one. -/
theorem eq_of_close (h : Rotates f l) (hnodup : l.Nodup) (heq : f i = f j) (hle : i ≤ j)
    (hlt : j < i + l.length) : i = j := by
  have hdvd : l.length ∣ j - i := (Nat.modEq_iff_dvd' hle).mp ((h.eq_iff hnodup).mp heq)
  have hzero := Nat.eq_zero_of_dvd_of_lt hdvd (by omega)
  omega

/-- Every element has a turn in the next round. -/
theorem next_turn (h : Rotates f l) (hq : q ∈ l) (i : Nat) :
    ∃ m, i ≤ m ∧ m < i + l.length ∧ f m = q := by
  obtain ⟨t, ht, hget⟩ := List.mem_iff_getElem.mp hq
  have hmod : (i + (t + l.length - i % l.length) % l.length) % l.length = t := by
    have hsum : i + (t + l.length - i % l.length) = t + l.length * (i / l.length + 1) := by
      have hdiv := Nat.div_add_mod i l.length
      have hlt := Nat.mod_lt i (show 0 < l.length by omega)
      rw [Nat.mul_add, Nat.mul_one]
      omega
    rw [Nat.add_mod_mod, hsum, Nat.add_mul_mod_self_left, Nat.mod_eq_of_lt ht]
  refine ⟨i + (t + l.length - i % l.length) % l.length, Nat.le_add_right .., ?_, ?_⟩
  · exact Nat.add_lt_add_left (Nat.mod_lt _ (by omega)) i
  · have hturn := h (i + (t + l.length - i % l.length) % l.length)
    rw [hmod, List.getElem?_eq_getElem ht, hget, Option.some.injEq] at hturn
    exact hturn.symm

/-- An element has its next turn after one round. -/
theorem round (h : Rotates f l) (i : Nat) : f (i + l.length) = f i := by
  have hturn := h (i + l.length)
  rw [Nat.add_mod_right, h i, Option.some.injEq] at hturn
  exact hturn.symm

/-- Between two turns of an element every other one has exactly one turn. -/
theorem once_between (h : Rotates f l) (hnodup : l.Nodup) (hij : i < j) (hi : f i = p)
    (hj : f j = p) (hbetween : ∀ m, i < m → m < j → f m ≠ p) (hq : q ∈ l) (hne : q ≠ p) :
    ∃! m, i < m ∧ m < j ∧ f m = q := by
  have hpos : 0 < l.length := List.length_pos_of_mem hq
  have hround : j = i + l.length := by
    rcases Nat.lt_trichotomy j (i + l.length) with hlt | heq | hgt
    · have hsame := h.eq_of_close hnodup (hi.trans hj.symm) hij.le hlt
      omega
    · exact heq
    · exact absurd ((h.round i).trans hi) (hbetween _ (by omega) hgt)
  obtain ⟨m, hle, hlt, hm⟩ := h.next_turn hq i
  have hafter : i ≠ m := fun heq => hne (by rw [← hm, ← heq, hi])
  refine ⟨m, ⟨by omega, by omega, hm⟩, fun m' ⟨hlow, hhigh, hm'⟩ => ?_⟩
  rcases Nat.le_total m m' with hmm | hmm
  · exact (h.eq_of_close hnodup (hm.trans hm'.symm) hmm (by omega)).symm
  · exact h.eq_of_close hnodup (hm'.trans hm.symm) hmm (by omega)

end Rotates

end Sirius.Library
