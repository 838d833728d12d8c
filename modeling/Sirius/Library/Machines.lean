import Mathlib.Tactic

/-!
# Machines that settle

A deterministic machine is a partial step function. `settle step n s` steps from `s` until there
is no next step and gives the last state, if that takes fewer than `n` steps. `settle_of_measure`
is the total-correctness rule: a measure that every step lowers gives the run, an invariant that
every step keeps holds of the last state. `settle_rel` carries the run of one machine over to
another that steps alike.
-/

namespace Sirius.Library

variable {σ τ : Type*} {step : σ → Option σ} {s t : σ} {n : Nat}

/-- Steps until there is no next one. -/
def settle (step : σ → Option σ) : Nat → σ → Option σ
  | 0, _ => none
  | n + 1, s => match step s with
    | none => some s
    | some t => settle step n t

theorem settle_last (h : step s = none) : settle step (n + 1) s = some s := by
  simp only [settle, h]

theorem settle_step (h : step s = some t) : settle step (n + 1) s = settle step n t := by
  simp only [settle, h]

/-- More fuel changes nothing. -/
theorem settle_mono {n' : Nat} (h : settle step n s = some t) (hn : n ≤ n') :
    settle step n' s = some t := by
  induction n generalizing n' s with
  | zero => cases h
  | succ n ih =>
      obtain ⟨k, rfl⟩ := Nat.exists_eq_add_of_le' hn
      rw [← Nat.add_assoc]
      cases hnext : step s with
      | none => rwa [settle_last hnext] at h ⊢
      | some u =>
          rw [settle_step hnext] at h ⊢
          exact ih h (Nat.le_add_left n k)

/-- An invariant with a falling measure: the machine settles where the invariant holds. -/
theorem settle_of_measure (inv : σ → Prop) (size : σ → Nat)
    (hstep : ∀ s t, inv s → step s = some t → inv t ∧ size t < size s) (hs : inv s)
    (hn : size s < n) : ∃ t, settle step n s = some t ∧ inv t ∧ step t = none := by
  induction n generalizing s with
  | zero => omega
  | succ n ih =>
      cases hnext : step s with
      | none => exact ⟨s, settle_last hnext, hs, hnext⟩
      | some t =>
          obtain ⟨ht, hless⟩ := hstep s t hs hnext
          rw [settle_step hnext]
          exact ih ht (by omega)

/-- Machines that step alike settle alike. -/
theorem settle_rel {step' : τ → Option τ} (R : σ → τ → Prop)
    (hstep : ∀ s t, R s t → Option.Rel R (step s) (step' t)) {t t' : τ} (h : R s t)
    (ht : settle step' n t = some t') : ∃ s', settle step n s = some s' ∧ R s' t' := by
  induction n generalizing s t with
  | zero => cases ht
  | succ n ih =>
      have hnext := hstep s t h
      cases hs : step s with
      | none =>
          rw [hs] at hnext
          generalize hst : step' t = o at hnext
          cases hnext
          rw [settle_last hst] at ht
          cases ht
          exact ⟨s, settle_last hs, h⟩
      | some u =>
          rw [hs] at hnext
          generalize hst : step' t = o at hnext
          cases hnext with
          | some hu =>
              rw [settle_step hst] at ht
              rw [settle_step hs]
              exact ih hu ht

end Sirius.Library
