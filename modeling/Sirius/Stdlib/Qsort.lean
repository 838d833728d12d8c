import Sirius.Library.Bytes
import Sirius.Library.FatPartition
import Sirius.Library.Machines
import Sirius.Library.Runs

/-!
# qsort of the user library

`qsort` of `stdlib/qsort.c`: records of `qses` bytes in memory are exchanged byte by byte while
pointers move over them, and `qs1` calls itself for the smaller side of each partition only. The
comparison function is a parameter; it sees the bytes of two records. `qsort_sorts` says that the
records end up as a sorted permutation, that no other byte of memory changes, and that the calls
of `qs1` nest no deeper than the binary logarithm of the number of records.
-/

namespace Sirius.Stdlib

open Sirius.Library

/-- `qsexc`: `n` bytes at `i` and at `j` exchanged one after the other. -/
def qsexc : (n i j : Nat) → Bytes → Bytes
  | 0, _, _, m => m
  | n + 1, ri, rj, m =>
    let c := m ri
    let m := Function.update m ri (m rj)
    let m := Function.update m rj c
    qsexc n (ri + 1) (rj + 1) m

/-- `qstexc`: `n` bytes at `k`, `j` and `i` moved to `i`, `k` and `j`. -/
def qstexc : (n i j k : Nat) → Bytes → Bytes
  | 0, _, _, _, m => m
  | n + 1, ri, rj, rk, m =>
    let c := m ri
    let m := Function.update m ri (m rk)
    let m := Function.update m rk (m rj)
    let m := Function.update m rj c
    qstexc n (ri + 1) (rj + 1) (rk + 1) m

/-- The variables of `qs1`'s loop with the memory; `inner` is the label `loop`. -/
structure Partition where
  m : Bytes
  i : Nat
  lp : Nat
  hp : Nat
  j : Nat
  inner : Bool

/-- `(*qscmp)(p, q)`: the comparison function on two records of `es` bytes. -/
def qscmp (compar : List Byte → List Byte → Int) (es : Nat) (m : Bytes) (p q : Nat) : Int :=
  compar (slice m p es) (slice m q es)

/-- The part of `qs1` from `for(;;)` to the label `loop`. -/
def Partition.outerStep (compar : List Byte → List Byte → Int) (es : Nat) (s : Partition) :
    Partition :=
  if s.i < s.lp then
    let c := qscmp compar es s.m s.i s.lp
    if c = 0 then
      let lp := s.lp - es
      { s with m := qsexc es s.i lp s.m, lp }
    else if c < 0 then { s with i := s.i + es }
    else { s with inner := true }
  else { s with inner := true }

/-- The part of `qs1` from the label `loop` on; it ends when both sides have met. -/
def Partition.innerStep (compar : List Byte → List Byte → Int) (es : Nat) (s : Partition) :
    Option Partition :=
  if s.j > s.hp then
    let c := qscmp compar es s.m s.hp s.j
    if c = 0 then
      let hp := s.hp + es
      some { s with m := qsexc es hp s.j s.m, hp }
    else if c > 0 then
      if s.i = s.lp then
        let hp := s.hp + es
        let lp := s.lp + es
        some { s with m := qstexc es s.i hp s.j s.m, hp, i := lp, lp }
      else
        some { s with m := qsexc es s.i s.j s.m, j := s.j - es, i := s.i + es, inner := false }
    else some { s with j := s.j - es }
  else if s.i = s.lp then none
  else
    let lp := s.lp - es
    let hp := s.hp - es
    some { s with m := qstexc es s.j lp s.i s.m, lp, j := hp, hp, inner := false }

/-- One step of the loop of `qs1`. -/
def Partition.step (compar : List Byte → List Byte → Int) (es : Nat) (s : Partition) :
    Option Partition :=
  if s.inner then s.innerStep compar es else some (s.outerStep compar es)

/-- `qs1(a, l)` with at most `fuel` rounds of its loops: the memory it leaves and how deep its
calls of itself nest. `goto start` is the call in tail position and adds no depth. -/
def qs1 (compar : List Byte → List Byte → Int) (es : Nat) :
    (fuel : Nat) → (a l : Nat) → Bytes → Option (Bytes × Nat)
  | 0, _, _, _ => none
  | fuel + 1, a, l, m =>
    let n := (l - a) % 2 ^ 32
    if n ≤ es then some (m, 0)
    else
      let n := es * (n / (2 * es))
      match settle (Partition.step compar es) fuel ⟨m, a, a + n, a + n, l - es, false⟩ with
      | none => none
      | some s =>
        if s.lp - a ≥ l - s.hp then
          match qs1 compar es fuel (s.hp + es) l s.m with
          | none => none
          | some (m, called) => (qs1 compar es fuel a s.lp m).map fun (m, depth) =>
              (m, max (called + 1) depth)
        else
          match qs1 compar es fuel a s.lp s.m with
          | none => none
          | some (m, called) => (qs1 compar es fuel (s.hp + es) l m).map fun (m, depth) =>
              (m, max (called + 1) depth)

/-- `qsort`; `size_t` has 32 bits. -/
def qsort (fuel base nmemb size : Nat) (compar : List Byte → List Byte → Int) (m : Bytes) :
    Option (Bytes × Nat) :=
  qs1 compar size fuel base (base + nmemb * size % 2 ^ 32) m

/-- The bytes of record number `k` of the array at `base`. -/
def record (base es : Nat) (m : Bytes) (k : Nat) : List Byte := slice m (base + k * es) es

/-- The array as a list of records. -/
def records (base es n : Nat) (m : Bytes) : List (List Byte) := (List.range n).map (record base es m)

/-- The address of record number `k`. -/
def place (base es k : Nat) : Nat := base + k * es

/-! ### Exchanging bytes -/

variable {n i j k x base es p q : Nat} {m : Bytes}

/-- Ranges of `n` bytes that coincide or do not meet. -/
def Apart (n i j : Nat) : Prop := i = j ∨ i + n ≤ j ∨ j + n ≤ i

theorem qsexc_apply (h : Apart n i j) (m : Bytes) (x : Nat) :
    qsexc n i j m x =
      if i ≤ x ∧ x < i + n then m (j + (x - i))
      else if j ≤ x ∧ x < j + n then m (i + (x - j)) else m x := by
  induction n generalizing i j m with
  | zero =>
      rw [if_neg (by omega), if_neg (by omega)]
      rfl
  | succ n ih =>
      unfold Apart at h
      rw [qsexc, ih (by unfold Apart; omega)]
      simp only [Function.update_apply]
      split_ifs <;> first | omega | (congr 1 <;> omega)

/-- The three-way exchange is two exchanges. -/
theorem qstexc_apply (hij : i + n ≤ j ∨ j + n ≤ i) (hik : i + n ≤ k ∨ k + n ≤ i)
    (hjk : Apart n j k) (m : Bytes) :
    qstexc n i j k m = qsexc n i j (qsexc n j k m) := by
  have hbytes : ∀ x, qstexc n i j k m x =
      if i ≤ x ∧ x < i + n then m (k + (x - i))
      else if j ≤ x ∧ x < j + n then m (i + (x - j))
      else if k ≤ x ∧ x < k + n then m (j + (x - k)) else m x := by
    intro x
    induction n generalizing i j k m with
    | zero =>
        rw [if_neg (by omega), if_neg (by omega), if_neg (by omega)]
        rfl
    | succ n ih =>
        unfold Apart at hjk
        rw [qstexc, ih (by omega) (by omega) (by unfold Apart; omega)]
        simp only [Function.update_apply]
        split_ifs <;> first | omega | (congr 1 <;> omega)
  funext x
  rw [hbytes, qsexc_apply (Or.inr hij), qsexc_apply hjk, qsexc_apply hjk, qsexc_apply hjk]
  unfold Apart at hjk
  split_ifs <;> first | omega | (congr 1 <;> omega)

theorem qsexc_outside (h : Apart n i j) (hi : x < i ∨ i + n ≤ x) (hj : x < j ∨ j + n ≤ x) :
    qsexc n i j m x = m x := by
  rw [qsexc_apply h, if_neg (by omega), if_neg (by omega)]

/-! ### Records -/

theorem place_succ (base es k : Nat) : place base es k + es = place base es (k + 1) := by
  unfold place
  ring

theorem place_pred (hk : 0 < k) : place base es k - es = place base es (k - 1) := by
  obtain ⟨k, rfl⟩ := Nat.exists_eq_succ_of_ne_zero (Nat.ne_of_gt hk)
  rw [Nat.succ_eq_add_one, ← place_succ, Nat.add_sub_cancel, Nat.add_sub_cancel]

theorem place_le (base es : Nat) (h : p ≤ q) : place base es p ≤ place base es q :=
  Nat.add_le_add_left (Nat.mul_le_mul_right es h) base

theorem place_lt_iff (hes : 0 < es) : place base es p < place base es q ↔ p < q := by
  unfold place
  rw [Nat.add_lt_add_iff_left, Nat.mul_lt_mul_right hes]

theorem place_inj (hes : 0 < es) : place base es p = place base es q ↔ p = q := by
  unfold place
  rw [Nat.add_left_cancel_iff, Nat.mul_left_inj (Nat.ne_of_gt hes)]

/-- Two different records do not overlap. -/
theorem place_apart (base es : Nat) (hne : p ≠ q) :
    place base es p + es ≤ place base es q ∨ place base es q + es ≤ place base es p := by
  rw [place_succ, place_succ]
  rcases Nat.lt_or_gt_of_ne hne with hlt | hgt
  · exact Or.inl (place_le base es hlt)
  · exact Or.inr (place_le base es hgt)

theorem place_same_or_apart (base es p q : Nat) : Apart es (place base es p) (place base es q) := by
  by_cases h : p = q
  · exact Or.inl (h ▸ rfl)
  · exact Or.inr (place_apart base es h)

/-- Exchanging the bytes of two records exchanges the records. -/
theorem record_qsexc (base es p q : Nat) (m : Bytes) :
    record base es (qsexc es (place base es p) (place base es q) m) =
      exchange (record base es m) p q := by
  funext k
  have hbyte : ∀ x < es, qsexc es (place base es p) (place base es q) m (place base es k + x) =
      m (place base es (Equiv.swap p q k) + x) := by
    intro x hx
    rw [qsexc_apply (place_same_or_apart base es p q)]
    by_cases hp : k = p
    · rw [hp, if_pos (by omega), Equiv.swap_apply_left, Nat.add_sub_cancel_left]
    have hkp := place_apart base es hp
    rw [if_neg (by omega)]
    by_cases hq : k = q
    · rw [hq, if_pos (by omega), Equiv.swap_apply_right, Nat.add_sub_cancel_left]
    have hkq := place_apart base es hq
    rw [if_neg (by omega), Equiv.swap_apply_of_ne_of_ne hp hq]
  exact slice_congr hbyte

/-- An exchange inside the range changes no byte outside of it. -/
theorem exchange_frame {lo hi : Nat} (hp : lo ≤ p ∧ p < hi) (hq : lo ≤ q ∧ q < hi)
    (hx : x < place base es lo ∨ place base es hi ≤ x) :
    qsexc es (place base es p) (place base es q) m x = m x := by
  have hp₁ := place_le base es hp.1
  have hq₁ := place_le base es hq.1
  have hp₂ := place_le base es (Nat.succ_le_of_lt hp.2)
  have hq₂ := place_le base es (Nat.succ_le_of_lt hq.2)
  rw [Nat.succ_eq_add_one, ← place_succ] at hp₂ hq₂
  exact qsexc_outside (place_same_or_apart base es p q) (by omega) (by omega)

/-! ### The loop refines the partition of records -/

variable {compar : List Byte → List Byte → Int} {lo hi : Nat} {s : Partition}
  {t : Fat (List Byte)} {f : Nat → List Byte} {pivot : List Byte}

/-- The pointers stand at the records with the indices of `t`. -/
structure Represents (base es : Nat) (s : Partition) (t : Fat (List Byte)) : Prop where
  cells : t.cells = record base es s.m
  i : s.i = place base es t.i
  lp : s.lp = place base es t.lp
  hp : s.hp = place base es t.hp
  j : s.j = place base es t.j
  inner : s.inner = t.inner

/-- One step of the code is one step of the partition, inside the range. -/
def Matches (base es lo hi : Nat) (m : Bytes) (s : Partition) (t : Fat (List Byte)) : Prop :=
  Represents base es s t ∧ ∀ x, x < place base es lo ∨ place base es hi ≤ x → s.m x = m x

theorem qscmp_record (h : t.cells = record base es s.m) (p q : Nat) :
    qscmp compar es s.m (place base es p) (place base es q) = compar (t.cells p) (t.cells q) := by
  rw [h]
  rfl

theorem outer_step_matches (hes : 0 < es) (h : Represents base es s t)
    (hinv : t.Inv compar lo hi f pivot) :
    Matches base es lo hi s.m (s.outerStep compar es) (t.low compar) := by
  obtain ⟨-, hlow, hilp, hlp, hhp, hj, -, -, -, -⟩ := hinv
  obtain ⟨hcells, hi', hlp', hhp', hj', hinner⟩ := h
  unfold Partition.outerStep Fat.low
  simp only [hi', hlp', place_lt_iff hes, qscmp_record hcells]
  split_ifs with hlt hzero hless
  · rw [place_pred (by omega)]
    refine ⟨⟨?_, rfl, rfl, hhp', hj', hinner⟩, fun x hx => ?_⟩
    · rw [record_qsexc, ← hcells]
    · exact exchange_frame (by omega) (by omega) hx
  · exact ⟨⟨hcells, place_succ .., rfl, hhp', hj', hinner⟩, fun _ _ => rfl⟩
  · exact ⟨⟨hcells, rfl, rfl, hhp', hj', rfl⟩, fun _ _ => rfl⟩
  · exact ⟨⟨hcells, rfl, rfl, hhp', hj', rfl⟩, fun _ _ => rfl⟩

theorem inner_step_matches (hes : 0 < es) (h : Represents base es s t)
    (hinv : t.Inv compar lo hi f pivot) :
    Option.Rel (Matches base es lo hi s.m) (s.innerStep compar es) (t.high compar) := by
  obtain ⟨-, hlow, hilp, hlp, hhp, hj, -, -, -, -⟩ := hinv
  obtain ⟨hcells, hi', hlp', hhp', hj', hinner⟩ := h
  unfold Partition.innerStep Fat.high
  simp only [hi', hlp', hhp', hj', gt_iff_lt, place_lt_iff hes, place_inj hes, qscmp_record hcells,
    place_succ]
  split_ifs with hlt hzero hmore hmet hmet
  · refine Option.Rel.some ⟨⟨?_, rfl, rfl, rfl, rfl, hinner⟩, fun x hx => ?_⟩
    · rw [record_qsexc, ← hcells]
    · exact exchange_frame (by omega) (by omega) hx
  · refine Option.Rel.some ⟨⟨?_, rfl, rfl, rfl, rfl, hinner⟩, fun x hx => ?_⟩ <;>
      dsimp only <;>
      rw [qstexc_apply (place_apart _ _ (by omega)) (place_apart _ _ (by omega)) (place_same_or_apart ..)]
    · rw [record_qsexc, record_qsexc, ← hcells]
    · rw [exchange_frame (by omega) (by omega) hx, exchange_frame (by omega) (by omega) hx]
  · rw [place_pred (by omega)]
    refine Option.Rel.some ⟨⟨?_, rfl, rfl, rfl, rfl, rfl⟩, fun x hx => ?_⟩
    · rw [record_qsexc, ← hcells]
    · exact exchange_frame (by omega) (by omega) hx
  · rw [place_pred (by omega)]
    exact Option.Rel.some ⟨⟨hcells, rfl, rfl, rfl, rfl, hinner⟩, fun _ _ => rfl⟩
  · exact Option.Rel.none
  · rw [place_pred (by omega), place_pred (by omega)]
    refine Option.Rel.some ⟨⟨?_, rfl, rfl, rfl, rfl, rfl⟩, fun x hx => ?_⟩ <;>
      dsimp only <;>
      rw [qstexc_apply (place_apart _ _ (by omega)) (place_apart _ _ (by omega)) (place_same_or_apart ..)]
    · rw [record_qsexc, record_qsexc, ← hcells]
    · rw [exchange_frame (by omega) (by omega) hx, exchange_frame (by omega) (by omega) hx]

theorem step_matches (hes : 0 < es) (h : Represents base es s t)
    (hinv : t.Inv compar lo hi f pivot) :
    Option.Rel (Matches base es lo hi s.m) (s.step compar es) (t.step compar) := by
  unfold Partition.step Fat.step
  rw [h.inner]
  split
  · exact inner_step_matches hes h hinv
  · exact Option.Rel.some (outer_step_matches hes h hinv)

/-- A state of the loop that was started on memory `m` with the pivot at `c`, and what it
stands for. -/
def Follows (compar : List Byte → List Byte → Int) (base es lo hi : Nat) (m : Bytes) (c : Nat)
    (s : Partition) (t : Fat (List Byte)) : Prop :=
  Matches base es lo hi m s t ∧ t.Inv compar lo hi (record base es m) (record base es m c)

theorem step_follows {c : Nat} (hes : 0 < es) (hcmp : Comparison compar)
    (h : Follows compar base es lo hi m c s t) :
    Option.Rel (Follows compar base es lo hi m c) (s.step compar es) (t.step compar) := by
  obtain ⟨⟨hrep, hframe⟩, hinv⟩ := h
  have hnext := step_matches hes hrep hinv
  generalize hs : s.step compar es = os at hnext
  generalize ht : t.step compar = ot at hnext
  cases hnext with
  | none => exact Option.Rel.none
  | some hone =>
      refine Option.Rel.some ⟨⟨hone.1, fun x hx => ?_⟩, (Fat.step_inv hinv hcmp ht).1⟩
      rw [hone.2 x hx, hframe x hx]

/-- A whole partition: the loop ends with the pivots between the smaller and the greater
records. -/
theorem partition_settles (base : Nat) {c : Nat} (hes : 0 < es) (hcmp : Comparison compar) (hlo : lo ≤ c)
    (hhi : c < hi) (m : Bytes) :
    ∃ (s : Partition) (lp hp : Nat),
      (∀ n, 2 * (hi - lo) < n → settle (Partition.step compar es) n ⟨m, place base es lo,
        place base es c, place base es c, place base es hi - es, false⟩ = some s) ∧
      s.lp = place base es lp ∧ s.hp = place base es hp ∧
      FatInv compar lo hi (record base es m) (record base es m c) (record base es s.m)
        lp lp hp hp s.inner ∧
      ∀ x, x < place base es lo ∨ place base es hi ≤ x → s.m x = m x := by
  let start : Fat (List Byte) := ⟨record base es m, lo, c, c, hi - 1, false⟩
  have hstart : start.Inv compar lo hi (record base es m) (record base es m c) :=
    FatInv.start hcmp hlo hhi (record base es m)
  have hsize : start.size < 2 * (hi - lo) + 1 := by
    show 2 * (c - lo + (hi - 1 - c)) + 1 < 2 * (hi - lo) + 1
    omega
  obtain ⟨t, ht, hinv, hlast⟩ := settle_of_measure
    (fun t : Fat (List Byte) => t.Inv compar lo hi (record base es m) (record base es m c)) Fat.size
    (fun s t hs hst => Fat.step_inv hs hcmp hst) hstart hsize
  have hmatches : Matches base es lo hi m
      ⟨m, place base es lo, place base es c, place base es c, place base es hi - es, false⟩ start :=
    ⟨⟨rfl, rfl, rfl, rfl, place_pred (by omega), rfl⟩, fun _ _ => rfl⟩
  obtain ⟨s, hs, ⟨hrep, hframe⟩, -⟩ := settle_rel (Follows compar base es lo hi m c)
    (fun s t => step_follows hes hcmp) ⟨hmatches, hstart⟩ ht
  obtain ⟨hmet, hmet'⟩ := Fat.step_none hinv hlast
  refine ⟨s, t.lp, t.hp, fun n hn => settle_mono hs hn, hrep.lp, hrep.hp, ?_, hframe⟩
  unfold Fat.Inv at hinv
  rwa [hmet, hmet', hrep.cells, ← hrep.inner] at hinv

/-! ### The recursion -/

/-- What `qs1` does to the records of `[lo, hi)`. -/
structure Sorts (compar : List Byte → List Byte → Int) (base es lo hi : Nat) (m : Bytes)
    (r : Bytes × Nat) : Prop where
  moved : Rearranged lo hi (record base es m) (record base es r.1)
  ordered : Ordered compar lo hi (record base es r.1)
  frame : ∀ x, x < place base es lo ∨ place base es hi ≤ x → r.1 x = m x
  depth : r.2 ≤ Nat.log 2 (hi - lo)

/-- Twice the smaller side is still within the range, so nesting one deeper is paid for. -/
theorem nested_le {small large depth depth' size : Nat} (hsmall : 2 * small < size)
    (hlarge : large < size) (hdepth : depth ≤ Nat.log 2 small) (hdepth' : depth' ≤ Nat.log 2 large)
    (hsize : 2 ≤ size) : max (depth + 1) depth' ≤ Nat.log 2 size := by
  refine max_le ?_ (hdepth'.trans (Nat.log_mono_right hlarge.le))
  rcases Nat.eq_zero_or_pos small with rfl | hpos
  · rw [Nat.log_zero_right, Nat.le_zero] at hdepth
    rw [hdepth, Nat.zero_add]
    exact Nat.log_pos (Nat.lt_succ_self 1) hsize
  · calc depth + 1 ≤ Nat.log 2 small + 1 := Nat.succ_le_succ hdepth
      _ = Nat.log 2 (small * 2) := (Nat.log_mul_base (Nat.lt_succ_self 1) (Nat.ne_of_gt hpos)).symm
      _ ≤ Nat.log 2 size := Nat.log_mono_right (by omega)

/-- The high side sorted after the low side. -/
theorem Sorts.low_high {lp hp depth : Nat} {m₁ : Bytes} {r₁ r₂ : Bytes × Nat} {inner : Bool}
    (hcmp : Comparison compar)
    (hinv : FatInv compar lo hi (record base es m) pivot (record base es m₁) lp lp hp hp inner)
    (hframe : ∀ x, x < place base es lo ∨ place base es hi ≤ x → m₁ x = m x)
    (hlow : Sorts compar base es lo lp m₁ r₁) (hhigh : Sorts compar base es (hp + 1) hi r₁.1 r₂)
    (hdepth : depth ≤ Nat.log 2 (hi - lo)) : Sorts compar base es lo hi m (r₂.1, depth) := by
  have hlp := place_le base es (show lp ≤ hi from hinv.lp_le.trans hinv.j_lt.le)
  have hhp := place_le base es
    (show lo ≤ hp + 1 from (hinv.low_le.trans hinv.lp_le).trans (Nat.le_succ hp))
  have hlower : Ordered compar lo lp (record base es r₂.1) := hlow.ordered.congr fun k _ hk =>
    hhigh.moved.outside (by have := hinv.lp_le; omega)
  have hdone := (hinv.rearrange_low hlow.moved).rearrange_high hhigh.moved
  refine ⟨hdone.moved, hdone.ordered hcmp hlower hhigh.ordered, fun x hx => ?_, hdepth⟩
  rw [hhigh.frame x (by omega), hlow.frame x (by omega), hframe x hx]

/-- The low side sorted after the high side. -/
theorem Sorts.high_low {lp hp depth : Nat} {m₁ : Bytes} {r₁ r₂ : Bytes × Nat} {inner : Bool}
    (hcmp : Comparison compar)
    (hinv : FatInv compar lo hi (record base es m) pivot (record base es m₁) lp lp hp hp inner)
    (hframe : ∀ x, x < place base es lo ∨ place base es hi ≤ x → m₁ x = m x)
    (hhigh : Sorts compar base es (hp + 1) hi m₁ r₁) (hlow : Sorts compar base es lo lp r₁.1 r₂)
    (hdepth : depth ≤ Nat.log 2 (hi - lo)) : Sorts compar base es lo hi m (r₂.1, depth) := by
  have hlp := place_le base es (show lp ≤ hi from hinv.lp_le.trans hinv.j_lt.le)
  have hhp := place_le base es
    (show lo ≤ hp + 1 from (hinv.low_le.trans hinv.lp_le).trans (Nat.le_succ hp))
  have hupper : Ordered compar (hp + 1) hi (record base es r₂.1) := hhigh.ordered.congr fun k hk _ =>
    hlow.moved.outside (by have := hinv.lp_le; omega)
  have hdone := (hinv.rearrange_high hhigh.moved).rearrange_low hlow.moved
  refine ⟨hdone.moved, hdone.ordered hcmp hlow.ordered hupper, fun x hx => ?_, hdepth⟩
  rw [hlow.frame x (by omega), hhigh.frame x (by omega), hframe x hx]

/-- The first address `qs1` starts from and the size it computes. -/
theorem qs1_size (hbytes : (hi - lo) * es < 2 ^ 32) :
    (place base es hi - place base es lo) % 2 ^ 32 = (hi - lo) * es := by
  rw [place, place, Nat.add_sub_add_left, ← Nat.sub_mul, Nat.mod_eq_of_lt hbytes]

theorem qs1_pivot (hes : 0 < es) :
    place base es lo + es * ((hi - lo) * es / (2 * es)) = place base es (lo + (hi - lo) / 2) := by
  rw [Nat.mul_div_mul_right _ _ hes, place, place, Nat.add_mul, Nat.mul_comm es, Nat.add_assoc]

theorem qs1_sorts (base lo hi : Nat) (hes : 0 < es) (hcmp : Comparison compar)
    (hbytes : (hi - lo) * es < 2 ^ 32) (m : Bytes) : ∃ r, Sorts compar base es lo hi m r ∧ ∀ fuel, 2 * (hi - lo) + 2 ≤ fuel →
      qs1 compar es fuel (place base es lo) (place base es hi) m = some r := by
  induction hsize : hi - lo using Nat.strong_induction_on generalizing lo hi m with
  | _ size ih =>
      subst hsize
      by_cases hshort : (hi - lo) * es ≤ es
      case pos =>
        have hone : hi - lo ≤ 1 := by
          by_contra htwo
          have := Nat.mul_le_mul_right es (show 2 ≤ hi - lo by omega)
          omega
        refine ⟨(m, 0), ⟨Rearranged.refl .., Ordered.of_short (by omega), fun _ _ => rfl,
          Nat.zero_le _⟩, fun fuel hfuel => ?_⟩
        obtain ⟨fuel, rfl⟩ := Nat.exists_eq_add_of_le' (show 1 ≤ fuel by omega)
        unfold qs1
        dsimp only
        rw [qs1_size hbytes, if_pos hshort]
      case neg =>
        have htwo : 2 ≤ hi - lo := by
          by_contra hone
          have := Nat.mul_le_mul_right es (show hi - lo ≤ 1 by omega)
          omega
        obtain ⟨s, lp, hp, hs, hslp, hshp, hinv, hframe⟩ := partition_settles base hes hcmp
          (show lo ≤ lo + (hi - lo) / 2 by omega) (show lo + (hi - lo) / 2 < hi by omega) m
        have hlo := hinv.low_le
        have hlp := hinv.lp_le
        have hhi := hinv.j_lt
        have hbytes_low := Nat.mul_le_mul_right es (show lp - lo ≤ hi - lo by omega)
        have hbytes_high := Nat.mul_le_mul_right es (show hi - (hp + 1) ≤ hi - lo by omega)
        have hlonger : place base es lp - place base es lo ≥ place base es hi - place base es hp ↔
            lp - lo ≥ hi - hp := by
          rw [place, place, place, place, Nat.add_sub_add_left, Nat.add_sub_add_left,
            ← Nat.sub_mul, ← Nat.sub_mul, ge_iff_le, Nat.mul_le_mul_right_iff hes]
        -- the round of `qs1` up to its recursive calls
        have hround : ∀ fuel, 2 * (hi - lo) < fuel →
            qs1 compar es (fuel + 1) (place base es lo) (place base es hi) m =
              if lp - lo ≥ hi - hp then
                match qs1 compar es fuel (place base es (hp + 1)) (place base es hi) s.m with
                | none => none
                | some (m, called) => (qs1 compar es fuel (place base es lo) (place base es lp) m).map
                    fun (m, depth) => (m, max (called + 1) depth)
              else
                match qs1 compar es fuel (place base es lo) (place base es lp) s.m with
                | none => none
                | some (m, called) =>
                    (qs1 compar es fuel (place base es (hp + 1)) (place base es hi) m).map
                      fun (m, depth) => (m, max (called + 1) depth) := by
          intro fuel hfuel
          rw [qs1]
          simp only [qs1_size hbytes, qs1_pivot hes, if_neg hshort, hs fuel hfuel, hslp, hshp, place_succ,
            hlonger]
        by_cases hside : lp - lo ≥ hi - hp
        case pos =>
          obtain ⟨r₁, hhigh, hr₁⟩ := ih (hi - (hp + 1)) (by omega) (hp + 1) hi (by omega) s.m rfl
          obtain ⟨r₂, hlow, hr₂⟩ := ih (lp - lo) (by omega) lo lp (by omega) r₁.1 rfl
          refine ⟨_, Sorts.high_low hcmp hinv hframe hhigh hlow
            (nested_le (by omega) (by omega) hhigh.depth hlow.depth htwo), fun fuel hfuel => ?_⟩
          obtain ⟨fuel, rfl⟩ := Nat.exists_eq_add_of_le' (show 1 ≤ fuel by omega)
          rw [hround fuel (by omega), if_pos hside, hr₁ fuel (by omega)]
          dsimp only
          rw [hr₂ fuel (by omega)]
          rfl
        case neg =>
          obtain ⟨r₁, hlow, hr₁⟩ := ih (lp - lo) (by omega) lo lp (by omega) s.m rfl
          obtain ⟨r₂, hhigh, hr₂⟩ := ih (hi - (hp + 1)) (by omega) (hp + 1) hi (by omega) r₁.1 rfl
          refine ⟨_, Sorts.low_high hcmp hinv hframe hlow hhigh
            (nested_le (by omega) (by omega) hlow.depth hhigh.depth htwo), fun fuel hfuel => ?_⟩
          obtain ⟨fuel, rfl⟩ := Nat.exists_eq_add_of_le' (show 1 ≤ fuel by omega)
          rw [hround fuel (by omega), if_neg hside, hr₁ fuel (by omega)]
          dsimp only
          rw [hr₂ fuel (by omega)]
          rfl

/-- `qsort` ends and leaves a sorted permutation of the records; no other byte changes and the
calls of `qs1` nest at most `log₂ nmemb` deep. -/
theorem qsort_sorts (compar : List Byte → List Byte → Int) (hcmp : Comparison compar)
    (base nmemb size : Nat) (hsize : 0 < size) (hbytes : nmemb * size < 2 ^ 31) (m : Bytes) :
    ∃ m' depth, Returns (fun fuel => qsort fuel base nmemb size compar m) (m', depth) ∧
      (records base size nmemb m').Perm (records base size nmemb m) ∧
      (records base size nmemb m').Pairwise (fun x y => compar x y ≤ 0) ∧
      (∀ x, x < base ∨ base + nmemb * size ≤ x → m' x = m x) ∧ depth ≤ Nat.log 2 nmemb := by
  have hlimit : nmemb * size % 2 ^ 32 = nmemb * size := Nat.mod_eq_of_lt (by omega)
  obtain ⟨⟨m', depth⟩, hdone, hcall⟩ := qs1_sorts base 0 nmemb hsize hcmp
    (by rw [Nat.sub_zero]; omega) m
  rw [place, place, Nat.zero_mul, Nat.add_zero] at hcall
  refine ⟨m', depth, ⟨2 * nmemb + 2, fun fuel hfuel => ?_⟩, hdone.moved.perm, hdone.ordered.pairwise,
    fun x hx => hdone.frame x ?_, hdone.depth⟩
  · show qs1 compar size fuel base (base + nmemb * size % 2 ^ 32) m = some (m', depth)
    rw [hlimit]
    exact hcall fuel hfuel
  · unfold place
    omega

/-- Two-byte records compared by their first byte. -/
def compareFirst (x y : List Byte) : Int := (x.headD 0#8).toNat - (y.headD 0#8).toNat

theorem compare_first_comparison : Comparison compareFirst := by
  constructor
  · intro x y
    unfold compareFirst
    omega
  · intro x y z
    unfold compareFirst
    omega

theorem qsort_sorts_three :
    ∃ m' depth, Returns (fun fuel => qsort fuel 0x100 3 2 compareFirst fun i => BitVec.ofNat 8 (7 * i))
        (m', depth) ∧
      (records 0x100 2 3 m').Perm (records 0x100 2 3 fun i => BitVec.ofNat 8 (7 * i)) ∧
      (records 0x100 2 3 m').Pairwise (fun x y => compareFirst x y ≤ 0) ∧
      (∀ x, x < 0x100 ∨ 0x100 + 3 * 2 ≤ x → m' x = BitVec.ofNat 8 (7 * x)) ∧ depth ≤ Nat.log 2 3 :=
  qsort_sorts compareFirst compare_first_comparison 0x100 3 2 (by omega) (by omega) _

end Sirius.Stdlib
