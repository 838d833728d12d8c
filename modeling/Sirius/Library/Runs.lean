import Mathlib.Logic.Relation

/-!
# Runs of a labelled transition system

`Run step good s t` says that finitely many labelled steps lead from `s` to `t`, each of them
taken with a label that is `good` in the state before it. The condition `fun _ _ => True` gives
all runs. `Run.invariant` is the induction rule: what every good step preserves holds in every
state reached. `Returns` is for loops that are modelled with a bound on their steps.
-/

namespace Sirius.Library

variable {σ ι : Type*} {step : σ → ι → σ → Prop} {good good' : σ → ι → Prop}
  {s t u : σ}

/-- A run whose steps are all `good`. -/
def Run (step : σ → ι → σ → Prop) (good : σ → ι → Prop) : σ → σ → Prop :=
  Relation.ReflTransGen fun s t => ∃ label, good s label ∧ step s label t

namespace Run

theorem refl : Run step good s s := Relation.ReflTransGen.refl

theorem snoc (h : Run step good s t) (label : ι) (hgood : good t label)
    (hstep : step t label u) : Run step good s u :=
  Relation.ReflTransGen.tail h ⟨label, hgood, hstep⟩

/-- An invariant that every good step preserves holds along the run. -/
theorem invariant (inv : σ → Prop) (h : Run step good s t) (hinit : inv s)
    (hstep : ∀ s label t, inv s → good s label → step s label t → inv t) : inv t := by
  induction h with
  | refl => exact hinit
  | tail _ hlast ih =>
      obtain ⟨label, hgood, hlast⟩ := hlast
      exact hstep _ label _ ih hgood hlast

/-- Weakening the condition on the steps keeps the run. -/
theorem mono (h : Run step good s t) (himp : ∀ s label, good s label → good' s label) :
    Run step good' s t := by
  induction h with
  | refl => exact refl
  | tail _ hlast ih =>
      obtain ⟨label, hgood, hlast⟩ := hlast
      exact ih.snoc label (himp _ _ hgood) hlast

end Run

/-! ### Two logs -/

/-- Every step adds to the log `got` a prefix of what it adds to the log `taken`. Logs that were
equal at first are equal afterwards exactly when every step added the same to both. -/
theorem Run.equal_logs_iff {α : Type*} (got taken : σ → List α)
    (hstep : ∀ s label t, step s label t → ∃ a b, got t = got s ++ a ∧ taken t = taken s ++ b ∧
      a <+: b ∧ (a = b ↔ good s label))
    (h : Run step (fun _ _ => True) s t) (hstart : got s = taken s) :
    got t = taken t ↔ Run step good s t := by
  have hshorter : ∀ u, Run step (fun _ _ => True) s u → (got u).length ≤ (taken u).length := by
    intro u hu
    refine Run.invariant (fun u => (got u).length ≤ (taken u).length) hu
      (Nat.le_of_eq (congrArg List.length hstart)) fun u label v ih _ huv => ?_
    obtain ⟨a, b, hgot, htaken, hpart, -⟩ := hstep u label v huv
    rw [hgot, htaken, List.length_append, List.length_append]
    exact Nat.add_le_add ih hpart.length_le
  constructor
  · intro heq
    induction h with
    | refl => exact Run.refl
    | @tail u v hrun hlast ih =>
        obtain ⟨label, -, huv⟩ := hlast
        obtain ⟨a, b, hgot, htaken, hpart, hgood⟩ := hstep u label v huv
        rw [hgot, htaken] at heq
        -- neither part can be shorter, so both are equal
        have hlengths := congrArg List.length heq
        rw [List.length_append, List.length_append] at hlengths
        have hbefore := hshorter u hrun
        have hadded := hpart.length_le
        obtain ⟨hsame, hab⟩ := List.append_inj heq (by omega)
        exact (ih hsame).snoc label (hgood.mp hab) huv
  · intro hgood
    refine Run.invariant (fun u => got u = taken u) hgood hstart fun u label v ih hgood huv => ?_
    obtain ⟨a, b, hgot, htaken, -, hab⟩ := hstep u label v huv
    rw [hgot, htaken, ih, hab.mpr hgood]

/-! ### Functions with fuel -/

/-- A function whose loops are cut off after `n` steps returns `r` when `n` is large enough. -/
def Returns {ρ : Type*} (f : Nat → Option ρ) (r : ρ) : Prop := ∃ k, ∀ n, k ≤ n → f n = some r

theorem Returns.of_add {ρ : Type*} {f : Nat → Option ρ} {r : ρ} (k : Nat)
    (h : ∀ n, f (n + k) = some r) : Returns f r := by
  refine ⟨k, fun n hn => ?_⟩
  obtain ⟨n, rfl⟩ := Nat.exists_eq_add_of_le' hn
  exact h n

/-- One step in front of a function that returns. -/
theorem Returns.succ {ρ : Type*} {f g : Nat → Option ρ} {r : ρ} (h : Returns f r)
    (hstep : ∀ n, g (n + 1) = f n) : Returns g r := by
  obtain ⟨k, hk⟩ := h
  refine Returns.of_add (k + 1) fun n => ?_
  rw [← Nat.add_assoc, hstep]
  exact hk _ (Nat.le_add_left k n)

/-- One step that depends on another function that returns. -/
theorem Returns.step_after {ρ ρ' : Type*} {f : Nat → Option ρ'} {g h : Nat → Option ρ} {a : ρ'}
    {r : ρ} (hf : Returns f a) (hg : Returns g r) (hstep : ∀ n, f n = some a → h (n + 1) = g n) :
    Returns h r := by
  obtain ⟨k, hk⟩ := hf
  obtain ⟨l, hl⟩ := hg
  refine Returns.of_add (k + l + 1) fun n => ?_
  rw [← Nat.add_assoc, hstep _ (hk _ (by omega))]
  exact hl _ (by omega)

/-- A function that goes on with the result of another one. -/
theorem Returns.bind {ρ ρ' : Type*} {f : Nat → Option ρ'} {g h : Nat → Option ρ} {a : ρ'}
    {r : ρ} (hf : Returns f a) (hg : Returns g r) (hstep : ∀ n, f n = some a → h n = g n) :
    Returns h r := by
  obtain ⟨k, hk⟩ := hf
  obtain ⟨l, hl⟩ := hg
  refine ⟨k + l, fun n hn => ?_⟩
  rw [hstep n (hk n (by omega))]
  exact hl n (by omega)

theorem Returns.map {ρ ρ' : Type*} {g : Nat → Option ρ} {r : ρ} (h : Returns g r) (f : ρ → ρ') :
    Returns (fun n => (g n).map f) (f r) := by
  obtain ⟨k, hk⟩ := h
  exact ⟨k, fun n hn => congrArg (Option.map f) (hk n hn)⟩

theorem Returns.pure {ρ : Type*} (r : ρ) : Returns (fun _ => some r) r := ⟨0, fun _ _ => rfl⟩

theorem Returns.unique {ρ : Type*} {f : Nat → Option ρ} {r r' : ρ} (h : Returns f r)
    (h' : Returns f r') : r = r' := by
  obtain ⟨k, hk⟩ := h
  obtain ⟨k', hk'⟩ := h'
  have hsame := (hk (max k k') (Nat.le_max_left ..)).symm.trans (hk' (max k k') (Nat.le_max_right ..))
  exact Option.some.inj hsame

/-- The rounds `k`, `k + 1`, … of a loop that ends with the first round that has a result. -/
def rounds {ρ : Type*} (round : Nat → Option ρ) : (fuel k : Nat) → Option ρ
  | 0, _ => none
  | n + 1, k => match round k with
    | some r => some r
    | none => rounds round n (k + 1)

theorem rounds_skip {ρ : Type*} {round : Nat → Option ρ} {m : Nat} (n k : Nat)
    (h : ∀ j < m, round (k + j) = none) : rounds round (n + m) k = rounds round n (k + m) := by
  induction m generalizing k with
  | zero => rfl
  | succ m ih =>
      have hrest : ∀ j < m, round (k + 1 + j) = none := fun j hj => by
        have := h (j + 1) (by omega)
        rwa [show k + (j + 1) = k + 1 + j by omega] at this
      have hround : round k = none := h 0 (Nat.succ_pos m)
      rw [← Nat.add_assoc, rounds, hround]
      exact (ih (k + 1) hrest).trans (congrArg _ (by omega))

/-- The loop returns what its first round with a result gives. -/
theorem Returns.of_rounds {ρ : Type*} {round : Nat → Option ρ} {k : Nat} {r : ρ}
    (hbefore : ∀ j < k, round j = none) (h : round k = some r) :
    Returns (fun n => rounds round n 0) r := by
  refine Returns.of_add (1 + k) fun n => ?_
  rw [← Nat.add_assoc, rounds_skip (n + 1) 0 fun j hj => by rw [Nat.zero_add]; exact hbefore j hj,
    Nat.zero_add, rounds, h]

/-- A loop whose rounds have no result does not return. -/
theorem not_returns_rounds {ρ : Type*} {round : Nat → Option ρ} {r : ρ}
    (h : ∀ k, round k = none) : ¬ Returns (fun n => rounds round n 0) r := by
  rintro ⟨n, hn⟩
  have hskip := rounds_skip 0 0 (m := n) fun j _ => h (0 + j)
  rw [Nat.zero_add] at hskip
  have := (hn n (Nat.le_refl n)).symm.trans hskip
  cases this

end Sirius.Library
