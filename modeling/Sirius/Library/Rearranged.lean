import Mathlib.Data.List.Perm.Basic
import Mathlib.Data.List.Nodup
import Mathlib.Logic.Equiv.Basic
import Mathlib.Tactic

/-!
# Rearranging the cells of a range

An array is a map from indices to cells. `Rearranged lo hi f g` says that `g` holds the cells of
`f` with those of the range `[lo, hi)` permuted among themselves and the others in place.
`Ordered` says that the range is sorted for a three-way comparison.
-/

namespace Sirius.Library

variable {α : Type*}

/-- `g` is `f` with the cells of `[lo, hi)` permuted. -/
def Rearranged (lo hi : Nat) (f g : Nat → α) : Prop :=
  ∃ σ : Equiv.Perm Nat, (∀ k, ¬ (lo ≤ k ∧ k < hi) → σ k = k) ∧ g = f ∘ σ

/-- A three-way comparison as `qsort` asks for: its sign turns with the order of the arguments,
and `≤` is transitive. -/
structure Comparison (cmp : α → α → Int) : Prop where
  flip : ∀ x y, cmp x y < 0 ↔ 0 < cmp y x
  trans : ∀ x y z, cmp x y ≤ 0 → cmp y z ≤ 0 → cmp x z ≤ 0

/-- The cells of `[lo, hi)` are in order. -/
def Ordered (cmp : α → α → Int) (lo hi : Nat) (f : Nat → α) : Prop :=
  ∀ k k', lo ≤ k → k < k' → k' < hi → cmp (f k) (f k') ≤ 0

variable {lo hi lo' hi' n : Nat} {f g h : Nat → α} {cmp : α → α → Int}

/-! ### Permuting a range -/

namespace Rearranged

theorem refl (lo hi : Nat) (f : Nat → α) : Rearranged lo hi f f :=
  ⟨Equiv.refl Nat, fun _ _ => rfl, rfl⟩

theorem trans (hfg : Rearranged lo hi f g) (hgh : Rearranged lo hi g h) :
    Rearranged lo hi f h := by
  obtain ⟨σ, hσ, rfl⟩ := hfg
  obtain ⟨τ, hτ, rfl⟩ := hgh
  refine ⟨τ.trans σ, fun k hk => ?_, rfl⟩
  rw [Equiv.trans_apply, hτ k hk, hσ k hk]

/-- A rearrangement of a part rearranges the whole. -/
theorem widen (hfg : Rearranged lo hi f g) (hlo : lo' ≤ lo) (hhi : hi ≤ hi') :
    Rearranged lo' hi' f g := by
  obtain ⟨σ, hσ, rfl⟩ := hfg
  exact ⟨σ, fun k hk => hσ k (by omega), rfl⟩

/-- Exchanging two cells of the range. -/
theorem swap {p q : Nat} (hp : lo ≤ p ∧ p < hi) (hq : lo ≤ q ∧ q < hi) (f : Nat → α) :
    Rearranged lo hi f (f ∘ Equiv.swap p q) := by
  refine ⟨Equiv.swap p q, fun k hk => ?_, rfl⟩
  exact Equiv.swap_apply_of_ne_of_ne (by rintro rfl; exact hk hp) (by rintro rfl; exact hk hq)

/-- Cells outside the range stay. -/
theorem outside (hfg : Rearranged lo hi f g) {k : Nat} (hk : ¬ (lo ≤ k ∧ k < hi)) :
    g k = f k := by
  obtain ⟨σ, hσ, rfl⟩ := hfg
  exact congrArg f (hσ k hk)

/-- A permutation that fixes what is outside the range maps the range to itself. -/
theorem range_of_fixed {σ : Equiv.Perm Nat} (hσ : ∀ k, ¬ (lo ≤ k ∧ k < hi) → σ k = k) {k : Nat}
    (hk : lo ≤ k ∧ k < hi) : lo ≤ σ k ∧ σ k < hi := by
  by_contra hout
  have hfixed := σ.injective (hσ (σ k) hout)
  exact hout (hfixed.symm ▸ hk)

/-- What held of every cell of the range still does. -/
theorem forall_range (hfg : Rearranged lo hi f g) {P : α → Prop}
    (hP : ∀ k, lo ≤ k → k < hi → P (f k)) {k : Nat} (hlo : lo ≤ k) (hhi : k < hi) : P (g k) := by
  obtain ⟨σ, hσ, rfl⟩ := hfg
  obtain ⟨hleft, hright⟩ := range_of_fixed hσ ⟨hlo, hhi⟩
  exact hP (σ k) hleft hright

/-- The first `n` cells, when nothing behind them moved, are a permutation of what they were. -/
theorem perm (hfg : Rearranged 0 n f g) : ((List.range n).map g).Perm ((List.range n).map f) := by
  obtain ⟨σ, hσ, rfl⟩ := hfg
  rw [← List.map_map]
  refine List.Perm.map f ((List.perm_ext_iff_of_nodup ?_ List.nodup_range).mpr fun k => ?_)
  · exact List.Nodup.map σ.injective List.nodup_range
  constructor
  · intro hk
    obtain ⟨i, hi, rfl⟩ := List.mem_map.mp hk
    have hin := range_of_fixed hσ ⟨Nat.zero_le i, List.mem_range.mp hi⟩
    exact List.mem_range.mpr hin.2
  · intro hk
    have hinv : ∀ k, ¬ (0 ≤ k ∧ k < n) → σ.symm k = k := fun k hk => by
      rw [Equiv.symm_apply_eq, hσ k hk]
    have hin := range_of_fixed hinv ⟨Nat.zero_le k, List.mem_range.mp hk⟩
    exact List.mem_map.mpr ⟨σ.symm k, List.mem_range.mpr hin.2, σ.apply_symm_apply k⟩

end Rearranged

/-! ### Three-way comparisons -/

namespace Comparison

variable (hcmp : Comparison cmp)
include hcmp

theorem flip_zero {x y : α} (h : cmp x y = 0) : cmp y x = 0 := by
  have hleft := hcmp.flip x y
  have hright := hcmp.flip y x
  omega

theorem flip_pos {x y : α} (h : 0 < cmp x y) : cmp y x < 0 := (hcmp.flip y x).mpr h

/-- The sign of a comparison with `y` is that of the comparison with anything equal to `y`. -/
theorem congr_right {x y z : α} (h : cmp y z = 0) :
    (cmp x y < 0 ↔ cmp x z < 0) ∧ (cmp x y = 0 ↔ cmp x z = 0) := by
  have hback := hcmp.flip_zero h
  have hto := hcmp.trans x y z
  have hfrom := hcmp.trans x z y
  have hto' := hcmp.trans z y x
  have hfrom' := hcmp.trans y z x
  have hy := hcmp.flip x y
  have hy' := hcmp.flip y x
  have hz := hcmp.flip x z
  have hz' := hcmp.flip z x
  omega

/-- Below the pivot is before at or above it. -/
theorem le_of_sides {x y : α} (pivot : α) (hx : cmp x pivot ≤ 0) (hy : 0 ≤ cmp y pivot) :
    cmp x y ≤ 0 := by
  have hback := hcmp.flip pivot y
  have hforth := hcmp.flip y pivot
  exact hcmp.trans x pivot y hx (by omega)

end Comparison

/-! ### Ordered ranges -/

theorem Ordered.of_short (hshort : hi ≤ lo + 1) : Ordered cmp lo hi f :=
  fun k k' hk hlt hk' => by omega

theorem Ordered.congr (hord : Ordered cmp lo hi f)
    (hsame : ∀ k, lo ≤ k → k < hi → g k = f k) : Ordered cmp lo hi g := by
  intro k k' hk hlt hk'
  rw [hsame k hk (by omega), hsame k' (by omega) hk']
  exact hord k k' hk hlt hk'

/-- An ordered range as a sorted list. -/
theorem Ordered.pairwise (hord : Ordered cmp 0 n f) :
    ((List.range n).map f).Pairwise fun x y => cmp x y ≤ 0 := by
  rw [List.pairwise_map, List.pairwise_iff_getElem]
  intro i j hi hj hlt
  rw [List.length_range] at hj
  rw [List.getElem_range, List.getElem_range]
  exact hord i j (Nat.zero_le i) hlt hj

end Sirius.Library
