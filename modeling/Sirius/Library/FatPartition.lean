import Sirius.Library.Rearranged

/-!
# Three-way partition in place

The partition step of a quicksort that gathers the cells equal to the pivot in the middle. The
pivots stand at `lp` to `hp`; `i` climbs towards `lp` over smaller cells and `j` sinks towards
`hp` over greater ones. A cell on the wrong side changes places with one from the other side, or,
when the other side is done, makes the block of pivots move by one.
-/

namespace Sirius.Library

variable {α : Type*}

/-- Indices of a partition under way; `inner` says that the low side has stopped. -/
structure Fat (α : Type*) where
  cells : Nat → α
  i : Nat
  lp : Nat
  hp : Nat
  j : Nat
  inner : Bool

/-- Cells `p` and `q` exchanged. -/
def exchange (f : Nat → α) (p q : Nat) : Nat → α := f ∘ Equiv.swap p q

namespace Fat

/-- The low side: look at cell `i`. -/
def low (cmp : α → α → Int) (s : Fat α) : Fat α :=
  if s.i < s.lp then
    if cmp (s.cells s.i) (s.cells s.lp) = 0 then
      { s with cells := exchange s.cells s.i (s.lp - 1), lp := s.lp - 1 }
    else if cmp (s.cells s.i) (s.cells s.lp) < 0 then { s with i := s.i + 1 }
    else { s with inner := true }
  else { s with inner := true }

/-- The high side: look at cell `j`; nothing is left to do when both sides have met. -/
def high (cmp : α → α → Int) (s : Fat α) : Option (Fat α) :=
  if s.hp < s.j then
    if cmp (s.cells s.hp) (s.cells s.j) = 0 then
      some { s with cells := exchange s.cells (s.hp + 1) s.j, hp := s.hp + 1 }
    else if 0 < cmp (s.cells s.hp) (s.cells s.j) then
      if s.i = s.lp then
        some { s with cells := exchange (exchange s.cells (s.hp + 1) s.j) s.i (s.hp + 1)
                      i := s.lp + 1, lp := s.lp + 1, hp := s.hp + 1 }
      else
        some { s with cells := exchange s.cells s.i s.j, i := s.i + 1, j := s.j - 1
                      inner := false }
    else some { s with j := s.j - 1 }
  else if s.i = s.lp then none
  else
    some { s with cells := exchange (exchange s.cells (s.lp - 1) s.i) s.j (s.lp - 1)
                  lp := s.lp - 1, hp := s.hp - 1, j := s.hp - 1, inner := false }

/-- One step of the partition. -/
def step (cmp : α → α → Int) (s : Fat α) : Option (Fat α) :=
  if s.inner then s.high cmp else some (s.low cmp)

/-- Steps left at most. -/
def size (s : Fat α) : Nat := 2 * (s.lp - s.i + (s.j - s.hp)) + if s.inner then 0 else 1

end Fat

/-- What every step keeps, for the range `[lo, hi)` of `f` and the pivot `x`. -/
structure FatInv (cmp : α → α → Int) (lo hi : Nat) (f : Nat → α) (x : α) (g : Nat → α)
    (i lp hp j : Nat) (inner : Bool) : Prop where
  moved : Rearranged lo hi f g
  low_le : lo ≤ i
  i_le : i ≤ lp
  lp_le : lp ≤ hp
  hp_le : hp ≤ j
  j_lt : j < hi
  below : ∀ k, lo ≤ k → k < i → cmp (g k) x < 0
  middle : ∀ k, lp ≤ k → k ≤ hp → cmp (g k) x = 0
  above : ∀ k, j < k → k < hi → 0 < cmp (g k) x
  stopped : inner = true → i < lp → 0 < cmp (g i) x

/-- The invariant of a state. -/
def Fat.Inv (cmp : α → α → Int) (lo hi : Nat) (f : Nat → α) (x : α) (s : Fat α) : Prop :=
  FatInv cmp lo hi f x s.cells s.i s.lp s.hp s.j s.inner

/-! ### Exchanged cells -/

variable {f : Nat → α} {p q k : Nat}

@[simp] theorem exchange_left (f : Nat → α) (p q : Nat) : exchange f p q p = f q :=
  congrArg f (Equiv.swap_apply_left p q)

@[simp] theorem exchange_right (f : Nat → α) (p q : Nat) : exchange f p q q = f p :=
  congrArg f (Equiv.swap_apply_right p q)

theorem exchange_other (hp : k ≠ p) (hq : k ≠ q) : exchange f p q k = f k :=
  congrArg f (Equiv.swap_apply_of_ne_of_ne hp hq)

theorem Rearranged.exchange {lo hi : Nat} {g : Nat → α} (h : Rearranged lo hi f g)
    (hp : lo ≤ p ∧ p < hi) (hq : lo ≤ q ∧ q < hi) : Rearranged lo hi f (exchange g p q) :=
  h.trans (Rearranged.swap hp hq g)

/-! ### One move -/

namespace FatInv

variable {cmp : α → α → Int} {lo hi i lp hp j : Nat} {g : Nat → α} {x : α} {inner : Bool}

/-- A partition started on a pivot inside the range. -/
theorem start {p : Nat} (hcmp : Comparison cmp) (hlo : lo ≤ p) (hhi : p < hi) (f : Nat → α) :
    FatInv cmp lo hi f (f p) f lo p p (hi - 1) false := by
  have hrefl : cmp (f p) (f p) = 0 := by
    have := hcmp.flip (f p) (f p)
    omega
  refine ⟨Rearranged.refl lo hi f, Nat.le_refl lo, hlo, Nat.le_refl p, Nat.le_sub_one_of_lt hhi,
    by omega, fun k hk hki => by omega, fun k hk hkp => ?_, fun k hk hkhi => by omega,
    fun hin => by cases hin⟩
  obtain rfl : k = p := Nat.le_antisymm hkp hk
  exact hrefl

/-- Comparing with a cell of the middle is comparing with the pivot. -/
theorem like_pivot (h : FatInv cmp lo hi f x g i lp hp j inner) (hcmp : Comparison cmp) (y : α)
    (hlp : lp ≤ k) (hhp : k ≤ hp) :
    (cmp y (g k) < 0 ↔ cmp y x < 0) ∧ (cmp y (g k) = 0 ↔ cmp y x = 0) :=
  hcmp.congr_right (h.middle k hlp hhp)

/-- The low side stops. -/
theorem stop (h : FatInv cmp lo hi f x g i lp hp j inner) (hmore : i < lp → 0 < cmp (g i) x) :
    FatInv cmp lo hi f x g i lp hp j true :=
  { h with stopped := fun _ => hmore }

/-- The low side passes a smaller cell. -/
theorem pass_low (h : FatInv cmp lo hi f x g i lp hp j inner) (hlt : i < lp)
    (hless : cmp (g i) x < 0) : FatInv cmp lo hi f x g (i + 1) lp hp j false := by
  refine { h with
    low_le := Nat.le_succ_of_le h.low_le
    i_le := hlt
    below := fun k hk hki => ?_
    stopped := fun hin => by cases hin }
  rcases Nat.lt_or_eq_of_le (Nat.le_of_lt_succ hki) with hbefore | rfl
  · exact h.below k hk hbefore
  · exact hless

/-- A pivot found on the low side goes to the front of the middle. -/
theorem gather_low (h : FatInv cmp lo hi f x g i lp hp j inner) (hlt : i < lp)
    (hzero : cmp (g i) x = 0) :
    FatInv cmp lo hi f x (exchange g i (lp - 1)) i (lp - 1) hp j false := by
  obtain ⟨hmoved, hlow, -, hlp, hhp, hj, hbelow, hmiddle, habove, -⟩ := h
  refine ⟨hmoved.exchange (by omega) (by omega), hlow, by omega, by omega, hhp, hj, ?_, ?_, ?_,
    fun hin => by cases hin⟩
  · intro k hk hki
    rw [exchange_other (by omega) (by omega)]
    exact hbelow k hk hki
  · intro k hk hkhp
    rcases Nat.eq_or_lt_of_le hk with rfl | hgt
    · rw [exchange_right]
      exact hzero
    · rw [exchange_other (by omega) (by omega)]
      exact hmiddle k (by omega) hkhp
  · intro k hk hkhi
    rw [exchange_other (by omega) (by omega)]
    exact habove k hk hkhi

/-- The high side passes a greater cell. -/
theorem pass_high (h : FatInv cmp lo hi f x g i lp hp j inner) (hlt : hp < j)
    (hmore : 0 < cmp (g j) x) : FatInv cmp lo hi f x g i lp hp (j - 1) inner := by
  refine { h with
    hp_le := Nat.le_sub_one_of_lt hlt
    j_lt := Nat.lt_of_le_of_lt (Nat.sub_le j 1) h.j_lt
    above := fun k hk hkhi => ?_ }
  rcases Nat.lt_or_ge j k with hbehind | hhere
  · exact h.above k hbehind hkhi
  · obtain rfl : k = j := by omega
    exact hmore

/-- A pivot found on the high side goes to the end of the middle. -/
theorem gather_high (h : FatInv cmp lo hi f x g i lp hp j inner) (hlt : hp < j)
    (hzero : cmp (g j) x = 0) :
    FatInv cmp lo hi f x (exchange g (hp + 1) j) i lp (hp + 1) j inner := by
  obtain ⟨hmoved, hlow, hilp, hlp, hhp, hj, hbelow, hmiddle, habove, hstopped⟩ := h
  refine ⟨hmoved.exchange (by omega) (by omega), hlow, hilp, by omega, hlt, hj, ?_, ?_, ?_, ?_⟩
  · intro k hk hki
    rw [exchange_other (by omega) (by omega)]
    exact hbelow k hk hki
  · intro k hk hkhp
    rcases Nat.eq_or_lt_of_le hkhp with rfl | hle
    · rw [exchange_left]
      exact hzero
    · rw [exchange_other (by omega) (by omega)]
      exact hmiddle k hk (by omega)
  · intro k hk hkhi
    rw [exchange_other (by omega) (by omega)]
    exact habove k hk hkhi
  · intro hin hlt'
    rw [exchange_other (by omega) (by omega)]
    exact hstopped hin hlt'

/-- A greater cell on the low side changes places with a smaller one on the high side. -/
theorem cross (h : FatInv cmp lo hi f x g i lp hp j inner) (hlt : i < lp) (hjhp : hp < j)
    (hmore : 0 < cmp (g i) x) (hless : cmp (g j) x < 0) :
    FatInv cmp lo hi f x (exchange g i j) (i + 1) lp hp (j - 1) false := by
  obtain ⟨hmoved, hlow, -, hlp, hhp, hj, hbelow, hmiddle, habove, -⟩ := h
  refine ⟨hmoved.exchange (by omega) (by omega), by omega, hlt, hlp, by omega, by omega, ?_, ?_,
    ?_, fun hin => by cases hin⟩
  · intro k hk hki
    rcases Nat.lt_or_eq_of_le (Nat.le_of_lt_succ hki) with hbefore | rfl
    · rw [exchange_other (by omega) (by omega)]
      exact hbelow k hk hbefore
    · rw [exchange_left]
      exact hless
  · intro k hk hkhp
    rw [exchange_other (by omega) (by omega)]
    exact hmiddle k hk hkhp
  · intro k hk hkhi
    rcases Nat.eq_or_lt_of_le (show j ≤ k by omega) with rfl | hbehind
    · rw [exchange_right]
      exact hmore
    · rw [exchange_other (by omega) (by omega)]
      exact habove k hbehind hkhi

/-- With the low side done, a smaller cell of the high side moves the middle up by one. -/
theorem shift_up (h : FatInv cmp lo hi f x g i lp hp j inner) (hmet : i = lp) (hlt : hp < j)
    (hless : cmp (g j) x < 0) :
    FatInv cmp lo hi f x (exchange (exchange g (hp + 1) j) i (hp + 1)) (lp + 1) (lp + 1) (hp + 1) j
      inner := by
  subst hmet
  obtain ⟨hmoved, hlow, -, hlp, hhp, hj, hbelow, hmiddle, habove, -⟩ := h
  refine ⟨(hmoved.exchange (by omega) (by omega)).exchange (by omega) (by omega), by omega,
    Nat.le_refl _, by omega, hlt, hj, ?_, ?_, ?_, fun _ hin => absurd hin (Nat.lt_irrefl _)⟩
  · intro k hk hki
    rcases Nat.lt_or_eq_of_le (Nat.le_of_lt_succ hki) with hbefore | rfl
    · rw [exchange_other (by omega) (by omega), exchange_other (by omega) (by omega)]
      exact hbelow k hk hbefore
    · rw [exchange_left, exchange_left]
      exact hless
  · intro k hk hkhp
    rcases Nat.eq_or_lt_of_le hkhp with rfl | hle
    · rw [exchange_right, exchange_other (by omega) (by omega)]
      exact hmiddle i (Nat.le_refl i) hlp
    · rw [exchange_other (by omega) (by omega), exchange_other (by omega) (by omega)]
      exact hmiddle k (by omega) (by omega)
  · intro k hk hkhi
    rw [exchange_other (by omega) (by omega), exchange_other (by omega) (by omega)]
    exact habove k hk hkhi

/-- With the high side done, a greater cell of the low side moves the middle down by one. -/
theorem shift_down (h : FatInv cmp lo hi f x g i lp hp j inner) (hmet : j = hp) (hlt : i < lp)
    (hmore : 0 < cmp (g i) x) :
    FatInv cmp lo hi f x (exchange (exchange g (lp - 1) i) j (lp - 1)) i (lp - 1) (hp - 1) (hp - 1)
      false := by
  subst hmet
  obtain ⟨hmoved, hlow, -, hlp, hhp, hj, hbelow, hmiddle, habove, -⟩ := h
  refine ⟨(hmoved.exchange (by omega) (by omega)).exchange (by omega) (by omega), hlow, by omega,
    by omega, Nat.le_refl _, by omega, ?_, ?_, ?_, fun hin => by cases hin⟩
  · intro k hk hki
    rw [exchange_other (by omega) (by omega), exchange_other (by omega) (by omega)]
    exact hbelow k hk hki
  · intro k hk hkhp
    rcases Nat.eq_or_lt_of_le hk with rfl | hgt
    · rw [exchange_right, exchange_other (by omega) (by omega)]
      exact hmiddle j hlp (Nat.le_refl j)
    · rw [exchange_other (by omega) (by omega), exchange_other (by omega) (by omega)]
      exact hmiddle k (by omega) (by omega)
  · intro k hk hkhi
    rcases Nat.eq_or_lt_of_le (show j ≤ k by omega) with rfl | hbehind
    · rw [exchange_left, exchange_left]
      exact hmore
    · rw [exchange_other (by omega) (by omega), exchange_other (by omega) (by omega)]
      exact habove k hbehind hkhi

end FatInv

/-! ### One step -/

namespace Fat

variable {cmp : α → α → Int} {lo hi : Nat} {x : α} {s t : Fat α}

theorem low_inv (h : s.Inv cmp lo hi f x) (hcmp : Comparison cmp) (hinner : s.inner = false) :
    (s.low cmp).Inv cmp lo hi f x ∧ (s.low cmp).size < s.size := by
  have hile := FatInv.i_le h
  obtain ⟨hless, hzero⟩ := FatInv.like_pivot h hcmp (s.cells s.i) (Nat.le_refl s.lp) (FatInv.lp_le h)
  unfold low
  split
  case isFalse hmet => exact ⟨FatInv.stop h fun hlt => absurd hlt hmet, by simp [size, hinner]⟩
  case isTrue hlt =>
    split
    case isTrue hpivot =>
      have hmove := FatInv.gather_low h hlt (hzero.mp hpivot)
      rw [← hinner] at hmove
      exact ⟨hmove, by simp only [size]; omega⟩
    case isFalse hpivot =>
      split
      case isTrue hsmall =>
        have hmove := FatInv.pass_low h hlt (hless.mp hsmall)
        rw [← hinner] at hmove
        exact ⟨hmove, by simp only [size]; omega⟩
      case isFalse hsmall =>
        have hgreater : 0 < cmp (s.cells s.i) x := by omega
        exact ⟨FatInv.stop h fun _ => hgreater, by simp [size, hinner]⟩

theorem high_inv (h : s.Inv cmp lo hi f x) (hcmp : Comparison cmp) (hinner : s.inner = true)
    (hnext : s.high cmp = some t) : t.Inv cmp lo hi f x ∧ t.size < s.size := by
  have hile := FatInv.i_le h
  have hlehp := FatInv.hp_le h
  obtain ⟨hless, hzero⟩ :=
    FatInv.like_pivot h hcmp (s.cells s.j) (FatInv.lp_le h) (Nat.le_refl s.hp)
  have hflip := hcmp.flip (s.cells s.j) (s.cells s.hp)
  have hflip' := hcmp.flip (s.cells s.hp) (s.cells s.j)
  unfold high at hnext
  split at hnext
  case isTrue hlt =>
    split at hnext
    case isTrue hpivot =>
      cases hnext
      exact ⟨FatInv.gather_high h hlt (hzero.mp (hcmp.flip_zero hpivot)),
        by simp only [size]; omega⟩
    case isFalse hpivot =>
      split at hnext
      case isTrue hsmall =>
        have hbelow := hless.mp (hflip.mpr hsmall)
        split at hnext
        case isTrue hmet =>
          cases hnext
          exact ⟨FatInv.shift_up h hmet hlt hbelow, by simp only [size]; omega⟩
        case isFalse hmet =>
          cases hnext
          have hlow : s.i < s.lp := by omega
          refine ⟨FatInv.cross h hlow hlt (FatInv.stopped h hinner hlow) hbelow, ?_⟩
          simp only [size, hinner]
          simp only [Bool.false_eq_true, if_false, if_true]
          omega
      case isFalse hsmall =>
        cases hnext
        have hgreater : 0 < cmp (s.cells s.j) x := by omega
        exact ⟨FatInv.pass_high h hlt hgreater, by simp only [size]; omega⟩
  case isFalse hlt =>
    split at hnext
    case isTrue => cases hnext
    case isFalse hmet =>
      cases hnext
      have hlow : s.i < s.lp := by omega
      have hsame : s.j = s.hp := by omega
      refine ⟨FatInv.shift_down h hsame hlow (FatInv.stopped h hinner hlow), ?_⟩
      simp only [size, hinner]
      simp only [Bool.false_eq_true, if_false, if_true]
      omega

/-- A step keeps the invariant and comes nearer to the end. -/
theorem step_inv (h : s.Inv cmp lo hi f x) (hcmp : Comparison cmp) (hnext : s.step cmp = some t) :
    t.Inv cmp lo hi f x ∧ t.size < s.size := by
  unfold step at hnext
  split at hnext
  case isTrue hinner => exact high_inv h hcmp hinner hnext
  case isFalse hinner =>
    cases hnext
    exact low_inv h hcmp (Bool.eq_false_iff.mpr hinner)

/-- The partition is over when both sides have met the middle. -/
theorem step_none (h : s.Inv cmp lo hi f x) (hlast : s.step cmp = none) :
    s.i = s.lp ∧ s.j = s.hp := by
  have hlehp := FatInv.hp_le h
  unfold step at hlast
  split at hlast
  case isFalse => cases hlast
  case isTrue =>
    unfold high at hlast
    split at hlast
    case isTrue => split at hlast <;> (try split at hlast) <;> (try split at hlast) <;> cases hlast
    case isFalse hmet =>
      split at hlast
      case isTrue heq => exact ⟨heq, by omega⟩
      case isFalse => cases hlast

end Fat

/-! ### Sorting the sides -/

namespace FatInv

variable {cmp : α → α → Int} {lo hi i lp hp j : Nat} {g g' : Nat → α} {x : α} {inner : Bool}

/-- Rearranging the low side keeps a finished partition. -/
theorem rearrange_low (h : FatInv cmp lo hi f x g lp lp hp hp inner) (hg : Rearranged lo lp g g') :
    FatInv cmp lo hi f x g' lp lp hp hp inner := by
  have hlp := h.lp_le
  have hhi := h.j_lt
  refine { h with
    moved := h.moved.trans (hg.widen (Nat.le_refl lo) (by omega))
    below := fun k hk hklp => hg.forall_range (P := fun y => cmp y x < 0) h.below hk hklp
    middle := fun k hk hkhp => ?_
    above := fun k hk hkhi => ?_
    stopped := fun _ hin => absurd hin (Nat.lt_irrefl lp) }
  · rw [hg.outside (by omega)]
    exact h.middle k hk hkhp
  · rw [hg.outside (by omega)]
    exact h.above k hk hkhi

/-- Rearranging the high side keeps a finished partition. -/
theorem rearrange_high (h : FatInv cmp lo hi f x g lp lp hp hp inner)
    (hg : Rearranged (hp + 1) hi g g') : FatInv cmp lo hi f x g' lp lp hp hp inner := by
  have hlp := h.lp_le
  have hlo := h.low_le
  refine { h with
    moved := h.moved.trans (hg.widen (by omega) (Nat.le_refl hi))
    below := fun k hk hklp => ?_
    middle := fun k hk hkhp => ?_
    above := fun k hk hkhi => hg.forall_range (P := fun y => 0 < cmp y x) h.above hk hkhi
    stopped := fun _ hin => absurd hin (Nat.lt_irrefl lp) }
  · rw [hg.outside (by omega)]
    exact h.below k hk hklp
  · rw [hg.outside (by omega)]
    exact h.middle k hk hkhp

/-- A finished partition with sorted sides is sorted. -/
theorem ordered (h : FatInv cmp lo hi f x g lp lp hp hp inner) (hcmp : Comparison cmp)
    (hlower : Ordered cmp lo lp g) (hupper : Ordered cmp (hp + 1) hi g) : Ordered cmp lo hi g := by
  intro k k' hk hlt hk'
  by_cases hleft : k' < lp
  · exact hlower k k' hk hlt hleft
  by_cases hright : hp < k
  · exact hupper k k' hright hlt hk'
  -- the pivot lies between the two
  refine hcmp.le_of_sides x ?_ ?_
  · rcases Nat.lt_or_ge k lp with hklp | hklp
    · exact Int.le_of_lt (h.below k hk hklp)
    · exact Int.le_of_eq (h.middle k hklp (by omega))
  · rcases Nat.lt_or_ge hp k' with hkhp | hkhp
    · exact Int.le_of_lt (h.above k' hkhp hk')
    · exact Int.le_of_eq (h.middle k' (by omega) hkhp).symm

end FatInv

end Sirius.Library
