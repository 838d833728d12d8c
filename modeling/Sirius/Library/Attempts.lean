import Mathlib.Tactic

/-!
# Attempts one after another

`runUntil f n i s` carries out the `n` operations `f i`, `f (i + 1)`, … from the state `s` and stops
at the first one whose code is not 0.
-/

namespace Sirius.Library

variable {σ : Type*} {f g : Nat → σ → Int × σ} {state : Nat → σ} {n m i k : Nat} {s : σ}

/-- The operations from `i` on, until one fails. -/
def runUntil (f : Nat → σ → Int × σ) : (n i : Nat) → σ → Int × σ
  | 0, _, s => (0, s)
  | n + 1, i, s => if (f i s).1 ≠ 0 then f i s else runUntil f n (i + 1) (f i s).2

theorem run_until_congr (h : ∀ j, i ≤ j → j < i + n → f j = g j) (s : σ) :
    runUntil f n i s = runUntil g n i s := by
  induction n generalizing i s with
  | zero => rfl
  | succ n ih =>
      have hfirst := h i (Nat.le_refl i) (by omega)
      rw [runUntil, runUntil, hfirst, ih fun j hj hlt => h j (by omega) (by omega)]

/-- The operations in two parts. -/
theorem run_until_add (n m i : Nat) (s : σ) :
    runUntil f (n + m) i s =
      if (runUntil f n i s).1 ≠ 0 then runUntil f n i s
      else runUntil f m (i + n) (runUntil f n i s).2 := by
  induction n generalizing i s with
  | zero => rw [Nat.zero_add, runUntil, if_neg (not_not_intro rfl), Nat.add_zero]
  | succ n ih =>
      rw [Nat.add_right_comm, runUntil, runUntil]
      by_cases hfail : (f i s).1 ≠ 0
      · rw [if_pos hfail, if_pos hfail, if_pos hfail]
      · rw [if_neg hfail, if_neg hfail, ih, Nat.add_right_comm]
        rfl

/-- Where each operation that succeeds leads from one state to the next, the operations lead to the
last state, or the first one that fails gives the result. -/
theorem run_until_result
    (hstep : ∀ j, i ≤ j → j < i + n → (f j (state j)).1 = 0 → (f j (state j)).2 = state (j + 1)) :
    ((runUntil f n i (state i)).1 = 0 → (runUntil f n i (state i)).2 = state (i + n)) ∧
      ((runUntil f n i (state i)).1 ≠ 0 →
        ∃ j, i ≤ j ∧ j < i + n ∧ runUntil f n i (state i) = f j (state j)) := by
  induction n generalizing i with
  | zero => exact ⟨fun _ => rfl, fun h => absurd rfl h⟩
  | succ n ih =>
      rw [runUntil]
      by_cases hfail : (f i (state i)).1 ≠ 0
      · rw [if_pos hfail]
        exact ⟨fun h => absurd h hfail, fun _ => ⟨i, Nat.le_refl i, by omega, rfl⟩⟩
      · rw [if_neg hfail, hstep i (Nat.le_refl i) (by omega) (not_not.mp hfail)]
        obtain ⟨hdone, hstop⟩ := @ih (i + 1) fun j hj hlt => hstep j (by omega) (by omega)
        refine ⟨fun h => (hdone h).trans (congrArg state (by omega)), fun h => ?_⟩
        obtain ⟨j, hj, hlt, heq⟩ := hstop h
        exact ⟨j, by omega, by omega, heq⟩

/-- The first operation that fails gives the result. -/
theorem run_until_fails (hbefore : ∀ j < k, f j (state j) = (0, state (j + 1))) (hk : k < n)
    (hfail : (f k (state k)).1 ≠ 0) : runUntil f n 0 (state 0) = f k (state k) := by
  obtain ⟨hdone, hstop⟩ := @run_until_result σ f state k 0 fun j _ hj _ =>
    congrArg Prod.snd (hbefore j (by omega))
  have hzero : (runUntil f k 0 (state 0)).1 = 0 := by
    by_contra hne
    obtain ⟨j, -, hj, heq⟩ := hstop hne
    rw [heq, hbefore j (by omega)] at hne
    exact hne rfl
  obtain ⟨m, rfl⟩ : ∃ m, n = k + (1 + m) := ⟨n - k - 1, by omega⟩
  have hthere := hdone hzero
  rw [Nat.zero_add] at hthere
  rw [run_until_add, if_neg (not_not_intro hzero), hthere, Nat.zero_add, run_until_add, runUntil,
    if_pos hfail, if_pos hfail]

end Sirius.Library
