import Mathlib.Tactic
import Sirius.Library.Runs

/-!
# Loops with a counter of fixed width

`countLoop` is a `for` loop whose counter has `w` bits and wraps around. It is cut off after a number
of rounds, which it hands to its body as well, so that loops can be nested. `count_loop_returns` and
`count_loop_stuck` are the rules for a bound that the counter reaches, `count_loop_endless` the rule
for one that it does not reach.
-/

namespace Sirius.Library

variable {w : Nat} {σ : Type*}

/-- `for (e = ..; test; e++) body`, for at most `n` rounds. `none` means that more are needed. -/
def countLoop (test : BitVec w → σ → Bool) (body : Nat → BitVec w → σ → Option σ) :
    (n : Nat) → (e : BitVec w) → σ → Option σ
  | 0, _, _ => none
  | n + 1, e, s =>
      if test e s then (body n e s).bind (countLoop test body n (e + 1)) else some s

variable {test : BitVec w → σ → Bool} {body : Nat → BitVec w → σ → Option σ} {size k : Nat}
  {e : BitVec w} {s : σ}

/-- Below a bound that fits the counter it counts up by one. -/
theorem count_up (hsize : size < 2 ^ w) (h : e.toNat < size) : (e + 1).toNat = e.toNat + 1 := by
  cases w with
  | zero => omega
  | succ w =>
      have hone : (1#(w + 1)).toNat = 1 := by
        rw [BitVec.toNat_ofNat, Nat.mod_eq_of_lt]
        exact Nat.one_lt_two_pow (by omega)
      show (e + 1#(w + 1)).toNat = e.toNat + 1
      rw [BitVec.toNat_add, hone, Nat.mod_eq_of_lt (by omega)]

/-- A loop up to a bound that fits its counter returns when each round does. The induction is on the
rounds that are left. -/
theorem count_loop_returns (inv : Nat → σ → Prop) (hsize : size < 2 ^ w)
    (htest : ∀ e s, e.toNat ≤ size → inv e.toNat s → (test e s = true ↔ e.toNat < size))
    (hbody : ∀ e s, e.toNat < size → inv e.toNat s →
      ∃ s', Returns (fun n => body n e s) s' ∧ inv (e.toNat + 1) s')
    (he : e.toNat ≤ size) (hs : inv e.toNat s) :
    ∃ s', Returns (fun n => countLoop test body n e s) s' ∧ inv size s' := by
  obtain ⟨left, hleft⟩ := Nat.exists_eq_add_of_le he
  induction left generalizing e s with
  | zero =>
      have hend : ¬ test e s = true := fun h => by
        have hlt := (htest e s he hs).mp h
        omega
      refine ⟨s, .of_add 1 fun n => ?_, ?_⟩
      · show countLoop test body (n + 1) e s = some s
        rw [countLoop, if_neg hend]
      · have heq : e.toNat = size := by omega
        exact heq ▸ hs
  | succ left ih =>
      have hlt : e.toNat < size := by omega
      have hnext := count_up hsize hlt
      obtain ⟨s', ⟨k, hround⟩, hs'⟩ := hbody e s hlt hs
      obtain ⟨s'', ⟨k', hrest⟩, hs''⟩ := ih (by omega) (hnext ▸ hs') (by omega)
      refine ⟨s'', ⟨max k k' + 1, fun n hn => ?_⟩, hs''⟩
      obtain ⟨n, rfl⟩ := Nat.exists_eq_add_of_le' (show 1 ≤ n by omega)
      have hround := hround n (by omega)
      simp only at hround
      show countLoop test body (n + 1) e s = some s''
      rw [countLoop, if_pos ((htest e s he hs).mpr hlt), hround]
      exact hrest n (by omega)

/-- A loop one of whose rounds does not return does not return. -/
theorem count_loop_stuck (inv : Nat → σ → Prop) (hsize : size < 2 ^ w)
    (htest : ∀ e s, e.toNat ≤ size → inv e.toNat s → (test e s = true ↔ e.toNat < size))
    (hbody : ∀ n e s s', e.toNat < size → inv e.toNat s → body n e s = some s' →
      inv (e.toNat + 1) s')
    (hk : k < size) (hstuck : ∀ n e s, e.toNat = k → inv k s → body n e s = none) (n : Nat)
    (he : e.toNat ≤ k) (hs : inv e.toNat s) : countLoop test body n e s = none := by
  induction n generalizing e s with
  | zero => rfl
  | succ n ih =>
      have hlt : e.toNat < size := by omega
      rw [countLoop, if_pos ((htest e s (by omega) hs).mpr hlt)]
      by_cases hhere : e.toNat = k
      · rw [hstuck n e s hhere (hhere ▸ hs)]
        rfl
      · cases hround : body n e s with
        | none => rfl
        | some s' =>
            have hnext := count_up hsize hlt
            exact ih (by omega) (hnext ▸ hbody n e s s' hlt hs hround)

/-- What every round keeps holds when the loop returns. -/
theorem count_loop_keeps (inv : σ → Prop) {s' : σ}
    (hbody : ∀ n e s s', test e s = true → inv s → body n e s = some s' → inv s') (n : Nat)
    (hs : inv s) (h : countLoop test body n e s = some s') : inv s' := by
  induction n generalizing e s with
  | zero => cases h
  | succ n ih =>
      rw [countLoop] at h
      split at h
      case isTrue htest =>
        obtain ⟨s'', hround, hrest⟩ := Option.bind_eq_some_iff.mp h
        exact ih (hbody n e s s'' htest hs hround) hrest
      case isFalse => exact Option.some.inj h ▸ hs

/-- A loop whose test never fails does not return. -/
theorem count_loop_endless (inv : σ → Prop) (htest : ∀ e s, inv s → test e s = true)
    (hbody : ∀ n e s s', inv s → body n e s = some s' → inv s') (n : Nat) (hs : inv s) :
    countLoop test body n e s = none := by
  induction n generalizing e s with
  | zero => rfl
  | succ n ih =>
      rw [countLoop, if_pos (htest e s hs)]
      cases hround : body n e s with
      | none => rfl
      | some s' => exact ih (hbody n e s s' hs hround)

end Sirius.Library
