import Mathlib.Tactic

/-!
# Time limits on the real time clock

`swait_init` packs a deadline as a minute and a second, `swait` compares it field by field with the
clock. The clock shows the time in seconds as registers in BCD; one call reads both registers at
one time. The carry of the deadline from seconds to minutes is computed, the one from minutes to
hours is not, so a deadline in the next hour has a minute that the clock never shows.
-/

namespace Sirius.Driver

/-- A number below 100 as a register of the clock holds it. -/
def toBcd (n : Nat) : Nat := n / 10 * 16 + n % 10

/-- `convert_bcd(inportb(0x71)) & 0x3f` -/
def convertBcd (val : Nat) : Nat := (val / 16 * 10 + (val &&& 0xf)) &&& 0x3f

/-- The second and the minute that are read at the time `now`. -/
def readSec (now : Nat) : Nat := convertBcd (toBcd (now % 60))
def readMin (now : Nat) : Nat := convertBcd (toBcd (now / 60 % 60))

/-- `swait_init` at the time `now`. -/
def swaitInit (now time : Nat) : Nat :=
  let sec := readSec now
  let min := readMin now
  let min := min + time / 60
  let sec := sec + time % 60
  let sec := sec + 1
  let min := min + sec / 60
  let sec := sec % 60
  (min <<< 8 &&& 0xff00) ||| sec

/-- `swait` at the time `now`. -/
def swait (now status : Nat) : Nat :=
  let sec := readSec now
  let min := readMin now
  if sec ≥ status &&& 0xff ∧ min ≥ status >>> 8 &&& 0xff then 0 else 1

/-- Polls at least once per second from the time `start` on. -/
structure PolledEverySecond (start : Nat) (polls : Nat → Nat) : Prop where
  first : start ≤ polls 0 ∧ polls 0 ≤ start + 1
  step : ∀ k, polls k ≤ polls (k + 1) ∧ polls (k + 1) ≤ polls k + 1

/-- Every poll before `time + 1` seconds have elapsed returns 1, and the first one after that
returns 0. -/
def TimeoutLaw (start time : Nat) : Prop :=
  ∀ polls, PolledEverySecond start polls → ∀ k,
    (polls k < start + time + 1 → swait (polls k) (swaitInit start time) = 1) ∧
      (start + time + 1 ≤ polls k → (∀ j < k, polls j < start + time + 1) →
        swait (polls k) (swaitInit start time) = 0)

/-- The deadline is in the hour of the start. -/
def SameHour (start time : Nat) : Prop := start % 3600 + time + 1 < 3600

instance (start time : Nat) : Decidable (SameHour start time) :=
  inferInstanceAs (Decidable (_ < _))

variable {start time now k : Nat} {polls : Nat → Nat}

/-! ### Registers -/

theorem convert_to_bcd : ∀ n < 60, convertBcd (toBcd n) = n := by decide

theorem read_sec_eq (now : Nat) : readSec now = now % 60 :=
  convert_to_bcd _ (Nat.mod_lt _ (by decide))

theorem read_min_eq (now : Nat) : readMin now = now / 60 % 60 :=
  convert_to_bcd _ (Nat.mod_lt _ (by decide))

/-- The packed deadline. -/
theorem pack_status {min sec : Nat} (hmin : min < 256) (hsec : sec < 256) :
    (((min <<< 8 &&& 0xff00) ||| sec) &&& 0xff = sec) ∧
      (((min <<< 8 &&& 0xff00) ||| sec) >>> 8 &&& 0xff = min) := by
  have hmask : min <<< 8 &&& 0xff00 = min <<< 8 := by
    rw [show 0xff00 = 0xff <<< 8 from rfl, ← Nat.shiftLeft_and_distrib,
      show 0xff = 2 ^ 8 - 1 from rfl, Nat.and_two_pow_sub_one_eq_mod, Nat.mod_eq_of_lt hmin]
  rw [hmask, ← Nat.shiftLeft_add_eq_or_of_lt (i := 8) hsec, show 0xff = 2 ^ 8 - 1 from rfl,
    Nat.and_two_pow_sub_one_eq_mod, Nat.and_two_pow_sub_one_eq_mod, Nat.shiftLeft_eq,
    Nat.shiftRight_eq_div_pow]
  omega

/-- The minute and the second of a time within its hour. -/
theorem sec_of_hour (now : Nat) : now % 60 = now % 3600 % 60 :=
  (Nat.mod_mod_of_dvd now (by decide)).symm

theorem min_of_hour (now : Nat) : now / 60 % 60 = now % 3600 / 60 :=
  (Nat.mod_mul_right_div_self now 60 60).symm

/-- The deadline is `time + 1` seconds on in the hour, whether the hour ends before it or not. -/
theorem swait_init_eq (start time : Nat) :
    swaitInit start time =
      (((start % 3600 + time + 1) / 60) <<< 8 &&& 0xff00) |||
        (start % 3600 + time + 1) % 60 := by
  have hsec : (start % 3600 % 60 + time % 60 + 1) % 60 = (start % 3600 + time + 1) % 60 := by
    omega
  have hmin : start % 3600 / 60 + time / 60 + (start % 3600 % 60 + time % 60 + 1) / 60 =
      (start % 3600 + time + 1) / 60 := by
    omega
  simp only [swaitInit, read_sec_eq, read_min_eq, sec_of_hour start, min_of_hour start, hsec, hmin]

/-- The comparison of `swait` with a deadline of at most 3000 seconds. -/
theorem swait_eq (htime : time ≤ 3000) (now : Nat) :
    swait now (swaitInit start time) =
      if (start % 3600 + time + 1) % 60 ≤ now % 3600 % 60 ∧
        (start % 3600 + time + 1) / 60 ≤ now % 3600 / 60 then 0 else 1 := by
  have hdeadline : start % 3600 + time + 1 ≤ 6600 := by omega
  rw [swait_init_eq]
  generalize start % 3600 + time + 1 = deadline at hdeadline ⊢
  have hmin : deadline / 60 < 256 := by omega
  have hsec : deadline % 60 < 256 := by omega
  obtain ⟨hlow, hhigh⟩ := pack_status hmin hsec
  simp only [swait, hlow, hhigh, read_sec_eq, read_min_eq, sec_of_hour now, min_of_hour now,
    ge_iff_le]

/-- A deadline in the next hour is never reached. -/
theorem swait_never (htime : time ≤ 3000) (hlate : ¬ SameHour start time) (now : Nat) :
    swait now (swaitInit start time) = 1 := by
  rw [swait_eq htime]
  have hnow : now % 3600 < 3600 := Nat.mod_lt _ (by decide)
  unfold SameHour at hlate
  refine if_neg fun h => ?_
  omega

/-- Before the deadline no poll returns 0. -/
theorem swait_before (htime : time ≤ 3000) (hstart : start ≤ now)
    (hnow : now < start + time + 1) : swait now (swaitInit start time) = 1 := by
  by_cases hhour : SameHour start time
  · unfold SameHour at hhour
    -- the clock is still in the hour of the start
    have hlater : now % 3600 = start % 3600 + (now - start) := by omega
    rw [swait_eq htime, hlater]
    refine if_neg fun h => ?_
    omega
  · exact swait_never htime hhour now

/-- At the deadline the poll returns 0, if it is in the hour of the start. -/
theorem swait_at_deadline (htime : time ≤ 3000) (hhour : SameHour start time) :
    swait (start + time + 1) (swaitInit start time) = 0 := by
  unfold SameHour at hhour
  have hlater : (start + time + 1) % 3600 = start % 3600 + time + 1 := by omega
  rw [swait_eq htime, hlater]
  exact if_pos ⟨Nat.le_refl _, Nat.le_refl _⟩

/-! ### Polls -/

theorem polls_start (h : PolledEverySecond start polls) (k : Nat) : start ≤ polls k := by
  induction k with
  | zero => exact h.first.1
  | succ k ih => exact ih.trans (h.step k).1

/-- The first poll after the deadline is at the deadline. -/
theorem first_poll_after (h : PolledEverySecond start polls) (hlate : start + time + 1 ≤ polls k)
    (hbefore : ∀ j < k, polls j < start + time + 1) : polls k = start + time + 1 := by
  cases k with
  | zero =>
      have := h.first.2
      omega
  | succ k =>
      have := (h.step k).2
      have := hbefore k (Nat.lt_succ_self k)
      omega

/-- The time limits hold exactly when the deadline is in the hour of the start. -/
theorem timeout_law_iff (htime : time ≤ 3000) : TimeoutLaw start time ↔ SameHour start time := by
  constructor
  · intro h
    by_contra hhour
    have hpolls : PolledEverySecond start (fun k => start + k) :=
      ⟨⟨Nat.le_refl _, Nat.le_succ _⟩, fun k => ⟨Nat.le_succ _, Nat.le_refl _⟩⟩
    have hzero := (h _ hpolls (time + 1)).2 (Nat.le_refl _) fun j hj => by omega
    rw [swait_never htime hhour] at hzero
    exact absurd hzero one_ne_zero
  · intro hhour polls hpolls k
    refine ⟨swait_before htime (polls_start hpolls k), fun hlate hbefore => ?_⟩
    rw [first_poll_after hpolls hlate hbefore]
    exact swait_at_deadline htime hhour

end Sirius.Driver
