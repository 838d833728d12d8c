import Sirius.Memory.PageAllocator

/-!
# What the bitmap loops do

`mark` is the two-bit entry of a page in `PAGE_BITMAP` and `frameBit` the bit of a frame in
`RAM_BITMAP`. Every loop of the allocator is described by its effect on these, so that no later
proof looks at bytes and shifts again.
-/

namespace Sirius.Memory

open Library

/-- The mark of a page. -/
def mark (bitmap : Bytes) (page : Nat) : BitVec 2 :=
  (bitmap (page / 4)).extractLsb' (page % 4 * 2) 2

/-- The byte and the bit offset of the mark of a page. -/
def markPos (page : Nat) : Nat × Nat := (page / 4, page % 4 * 2)

theorem next_mark_pos (page : Nat) : nextMark (markPos page) = markPos (page + 1) := by
  unfold nextMark markPos
  split <;> ext <;> simp only <;> omega

/-! ### One byte -/

theorem byte_low_clear_iff : ∀ b : Byte, ∀ i : Fin 4,
    b &&& (1#8 <<< (i.val * 2)) = 0#8 ↔ b.extractLsb' (i.val * 2) 2 &&& 1#2 = 0#2 := by
  decide +kernel

theorem byte_boundary_iff : ∀ b : Byte, ∀ i : Fin 4,
    (b &&& (3#8 <<< (i.val * 2)) = 1#8 <<< (i.val * 2) ∨ b &&& (3#8 <<< (i.val * 2)) = 0#8) ↔
      b.extractLsb' (i.val * 2) 2 ≠ 2#2 ∧ b.extractLsb' (i.val * 2) 2 ≠ 3#2 := by
  decide +kernel

theorem byte_or_head : ∀ b : Byte, ∀ i j : Fin 4,
    (b ||| (1#8 <<< (i.val * 2))).extractLsb' (j.val * 2) 2 =
      if j = i then b.extractLsb' (j.val * 2) 2 ||| 1#2 else b.extractLsb' (j.val * 2) 2 := by
  decide +kernel

theorem byte_or_tail : ∀ b : Byte, ∀ i j : Fin 4,
    (b ||| (3#8 <<< (i.val * 2))).extractLsb' (j.val * 2) 2 =
      if j = i then 3#2 else b.extractLsb' (j.val * 2) 2 := by
  decide +kernel

theorem byte_clear : ∀ b : Byte, ∀ i j : Fin 4,
    (b &&& ~~~(3#8 <<< (i.val * 2))).extractLsb' (j.val * 2) 2 =
      if j = i then 0#2 else b.extractLsb' (j.val * 2) 2 := by
  decide +kernel

/-! ### One page -/

section Marks

variable (bitmap : Bytes) (page other : Nat)

theorem mark_low_clear_iff :
    bitmap (markPos page).1 &&& (1#8 <<< (markPos page).2) = 0#8 ↔
      mark bitmap page &&& 1#2 = 0#2 :=
  byte_low_clear_iff _ ⟨page % 4, Nat.mod_lt _ (by omega)⟩

theorem mark_boundary_iff :
    (bitmap (markPos page).1 &&& (3#8 <<< (markPos page).2) = 1#8 <<< (markPos page).2 ∨
        bitmap (markPos page).1 &&& (3#8 <<< (markPos page).2) = 0#8) ↔
      mark bitmap page ≠ 2#2 ∧ mark bitmap page ≠ 3#2 :=
  byte_boundary_iff _ ⟨page % 4, Nat.mod_lt _ (by omega)⟩

/-- A write to the mark of `page` that acts on the marks of one byte as `edit` does acts on the
marks of the bitmap alike. -/
theorem mark_update (write : Byte) (edit : BitVec 2)
    (h : ∀ j : Fin 4, write.extractLsb' (j.val * 2) 2 =
      if j = ⟨page % 4, Nat.mod_lt _ (by omega)⟩ then edit
      else (bitmap (page / 4)).extractLsb' (j.val * 2) 2) :
    mark (Function.update bitmap (markPos page).1 write) other =
      if other = page then edit else mark bitmap other := by
  unfold mark markPos
  by_cases hbyte : other / 4 = page / 4
  · rw [hbyte, Function.update_self]
    have hj := h ⟨other % 4, Nat.mod_lt _ (by omega)⟩
    simp only at hj
    rw [hj]
    by_cases heq : other = page
    · simp [heq]
    · have hne : other % 4 ≠ page % 4 := by omega
      simp [heq, hne]
  · rw [Function.update_of_ne hbyte]
    have hne : other ≠ page := fun h => hbyte (by rw [h])
    simp [hne]

theorem mark_update_head :
    mark (Function.update bitmap (markPos page).1
        (bitmap (markPos page).1 ||| (1#8 <<< (markPos page).2))) other =
      if other = page then mark bitmap page ||| 1#2 else mark bitmap other := by
  refine mark_update bitmap page other _ _ fun j => ?_
  rw [markPos, byte_or_head _ ⟨page % 4, Nat.mod_lt _ (by omega)⟩ j]
  by_cases hj : j = ⟨page % 4, Nat.mod_lt _ (by omega)⟩
  · subst hj
    simp [mark]
  · simp [hj]

theorem mark_update_tail :
    mark (Function.update bitmap (markPos page).1
        (bitmap (markPos page).1 ||| (3#8 <<< (markPos page).2))) other =
      if other = page then 3#2 else mark bitmap other :=
  mark_update bitmap page other _ _ fun j =>
    byte_or_tail _ ⟨page % 4, Nat.mod_lt _ (by omega)⟩ j

theorem mark_update_clear :
    mark (Function.update bitmap (markPos page).1
        (bitmap (markPos page).1 &&& ~~~(3#8 <<< (markPos page).2))) other =
      if other = page then 0#2 else mark bitmap other :=
  mark_update bitmap page other _ _ fun j => byte_clear _ ⟨page % 4, Nat.mod_lt _ (by omega)⟩ j

end Marks

/-! ### The loops over the marks -/

/-- The low bits of the marks of `n` pages from `page` on are clear. -/
def RunClear (bitmap : Bytes) (page n : Nat) : Prop :=
  ∀ q, page ≤ q → q < page + n → mark bitmap q &&& 1#2 = 0#2

variable {bitmap : Bytes}

theorem run_clear_succ {page n : Nat} :
    RunClear bitmap page (n + 1) ↔
      mark bitmap page &&& 1#2 = 0#2 ∧ RunClear bitmap (page + 1) n := by
  refine ⟨fun h => ⟨h page le_rfl (by omega), fun q hq hlt => h q (by omega) (by omega)⟩, ?_⟩
  rintro ⟨hpage, hrest⟩ q hq hlt
  rcases Nat.eq_or_lt_of_le hq with rfl | hq
  · exact hpage
  · exact hrest q hq (by omega)

/-- `linear` counts the whole run or returns 0. -/
theorem linear_loop_eq (n page a : Nat) [Decidable (RunClear bitmap page n)] :
    linearLoop bitmap n (markPos page) a = if RunClear bitmap page n then a + n else 0 := by
  induction n generalizing page a with
  | zero =>
      have h : RunClear bitmap page 0 := fun q hq hlt => by omega
      simp [linearLoop, h]
  | succ n ih =>
      classical
      simp only [linearLoop, mark_low_clear_iff, next_mark_pos, ih, run_clear_succ]
      by_cases hpage : mark bitmap page &&& 1#2 = 0#2
      · simp only [hpage, true_and, if_true, Nat.add_assoc, Nat.add_comm 1 n]
      · simp [hpage]

/-- The test of `get_free_page`: the run of `len` pages is free. -/
theorem linear_test_iff {len page : Nat} (hpos : 0 < len) :
    (bitmap (markPos page).1 &&& (1#8 <<< (markPos page).2) = 0#8 ∧
        len = linear bitmap (markPos page) len) ↔
      len < 2 ^ 31 ∧ RunClear bitmap page len := by
  classical
  rw [mark_low_clear_iff, linear, linear_loop_eq]
  constructor
  · rintro ⟨-, h⟩
    split at h
    · split at h
      · exact ⟨‹_›, ‹_›⟩
      · omega
    · omega
  · rintro ⟨hlen, hrun⟩
    exact ⟨hrun page le_rfl (by omega), by rw [if_pos hlen, if_pos hrun, Nat.zero_add]⟩

/-- The marks after `masked`. -/
theorem mark_masked (n page : Nat) (a : Bool) (other : Nat) :
    mark (masked n (markPos page) a bitmap) other =
      if page ≤ other ∧ other < page + n then
        if other = page ∧ a = false then mark bitmap other ||| 1#2 else 3#2
      else mark bitmap other := by
  induction n generalizing page a bitmap with
  | zero =>
      have h : ¬ (page ≤ other ∧ other < page + 0) := by omega
      simp only [masked, if_neg h]
  | succ n ih =>
      rw [masked, next_mark_pos, ih]
      rcases Nat.lt_trichotomy other page with hlt | rfl | hgt
      · have h₁ : ¬ (page + 1 ≤ other ∧ other < page + 1 + n) := by omega
        have h₂ : ¬ (page ≤ other ∧ other < page + (n + 1)) := by omega
        have hne : other ≠ page := by omega
        rw [if_neg h₁, if_neg h₂]
        cases a
        · simpa [hne] using mark_update_head bitmap page other
        · simpa [hne] using mark_update_tail bitmap page other
      · have h₁ : ¬ (other + 1 ≤ other ∧ other < other + 1 + n) := by omega
        have h₂ : other ≤ other ∧ other < other + (n + 1) := by omega
        rw [if_neg h₁, if_pos h₂]
        cases a
        · simpa using mark_update_head bitmap other other
        · simpa using mark_update_tail bitmap other other
      · have hne : other ≠ page := by omega
        have hrange : (page + 1 ≤ other ∧ other < page + 1 + n) ↔
            (page ≤ other ∧ other < page + (n + 1)) := by omega
        simp only [hrange, hne, false_and, if_false, Bool.true_eq_false, and_false]
        refine if_congr Iff.rfl rfl ?_
        cases a
        · simpa [hne] using mark_update_head bitmap page other
        · simpa [hne] using mark_update_tail bitmap page other

/-- The marks after `umasked`. -/
theorem mark_umasked (n page other : Nat) :
    mark (umasked n (markPos page) bitmap) other =
      if page ≤ other ∧ other < page + n then 0#2 else mark bitmap other := by
  induction n generalizing page bitmap with
  | zero =>
      have h : ¬ (page ≤ other ∧ other < page + 0) := by omega
      simp only [umasked, if_neg h]
  | succ n ih =>
      rw [umasked, next_mark_pos, ih, mark_update_clear]
      by_cases hpage : other = page
      · subst hpage
        have h₁ : ¬ (other + 1 ≤ other ∧ other < other + 1 + n) := by omega
        simp
      · have hrange : (page + 1 ≤ other ∧ other < page + 1 + n) ↔
            (page ≤ other ∧ other < page + (n + 1)) := by omega
        simp only [hrange, hpage, if_false]

/-- `get_free_page` takes the first free run, if there is one. -/
theorem get_free_page_loop_spec (bitmap : Bytes) {len : Nat} (hpos : 0 < len)
    (hlen : len < 2 ^ 31) (n page : Nat) :
    (∃ i, page ≤ i ∧ i < page + n ∧ RunClear bitmap i len ∧
        (∀ j, page ≤ j → j < i → ¬ RunClear bitmap j len) ∧
        getFreePageLoop bitmap len n (markPos page) page =
          some (i, masked len (markPos i) false bitmap)) ∨
      ((∀ j, page ≤ j → j < page + n → ¬ RunClear bitmap j len) ∧
        getFreePageLoop bitmap len n (markPos page) page = none) := by
  induction n generalizing page with
  | zero => exact .inr ⟨fun j hj hlt => by omega, rfl⟩
  | succ n ih =>
      rw [getFreePageLoop]
      by_cases hrun : RunClear bitmap page len
      · refine .inl ⟨page, le_rfl, by omega, hrun, fun j hj hlt => by omega, ?_⟩
        rw [if_pos ((linear_test_iff hpos).mpr ⟨hlen, hrun⟩)]
      · rw [if_neg fun h => hrun ((linear_test_iff hpos).mp h).2, next_mark_pos]
        have hskip : ∀ j, page ≤ j → (page + 1 ≤ j → ¬ RunClear bitmap j len) →
            ¬ RunClear bitmap j len := fun j hj h => by
          rcases Nat.eq_or_lt_of_le hj with rfl | hj
          · exact hrun
          · exact h hj
        rcases ih (page + 1) with ⟨i, hi, hlt, hclear, hfirst, hloop⟩ | ⟨hnone, hloop⟩
        · exact .inl ⟨i, by omega, by omega, hclear,
            fun j hj hji => hskip j hj fun hj => hfirst j hj hji, hloop⟩
        · exact .inr ⟨fun j hj hji => hskip j hj fun hj => hnone j hj (by omega), hloop⟩

/-- No run is long enough for a length that is negative as an `int`. -/
theorem get_free_page_loop_large (bitmap : Bytes) {len : Nat} (hlen : ¬ len < 2 ^ 31)
    (n : Nat) (pos : Nat × Nat) (a : Nat) : getFreePageLoop bitmap len n pos a = none := by
  have hzero : ∀ pos, linear bitmap pos len = 0 := fun _ => if_neg hlen
  induction n generalizing pos a with
  | zero => rfl
  | succ n ih =>
      rw [getFreePageLoop, hzero, if_neg fun h => by omega, ih]

/-- The scan of `get_busy_page_size` inside a block: it counts the continuation marks up to the
next boundary. -/
theorem get_busy_loop_tail {n page k a : Nat} (hfuel : k < n)
    (htail : ∀ q, page ≤ q → q < page + k → mark bitmap q = 3#2)
    (hend : mark bitmap (page + k) ≠ 2#2 ∧ mark bitmap (page + k) ≠ 3#2) :
    getBusyPageSizeLoop bitmap n (markPos page) true a = some (a + k) := by
  induction k generalizing n page a with
  | zero =>
      obtain ⟨n, rfl⟩ : ∃ m, n = m + 1 := ⟨n - 1, by omega⟩
      rw [getBusyPageSizeLoop, if_pos ((mark_boundary_iff bitmap page).mpr hend)]
      simp
  | succ k ih =>
      obtain ⟨n, rfl⟩ : ∃ m, n = m + 1 := ⟨n - 1, by omega⟩
      have hpage := htail page le_rfl (by omega)
      rw [getBusyPageSizeLoop, if_neg fun h => ((mark_boundary_iff bitmap page).mp h).2 hpage,
        next_mark_pos, ih (by omega) (fun q hq hlt => htail q (by omega) (by omega))
          (by rwa [Nat.add_assoc, Nat.add_comm 1 k])]
      congr 1
      omega

/-- `get_busy_page_size` at a head mark: the length up to the next boundary. -/
theorem get_busy_page_size_eq {page len : Nat} (hpos : 0 < len) (hfit : page + len < markCount)
    (hhead : mark bitmap page = 1#2)
    (htail : ∀ q, page < q → q < page + len → mark bitmap q = 3#2)
    (hend : mark bitmap (page + len) ≠ 2#2 ∧ mark bitmap (page + len) ≠ 3#2) :
    getBusyPageSize bitmap page = some len := by
  obtain ⟨n, hn⟩ : ∃ n, markCount - page = n + 1 := ⟨markCount - page - 1, by omega⟩
  obtain ⟨k, rfl⟩ : ∃ k, len = k + 1 := ⟨len - 1, by omega⟩
  have hboundary := (mark_boundary_iff bitmap page).mpr (by rw [hhead]; decide)
  have hcont : ∀ q, page + 1 ≤ q → q < page + 1 + k → mark bitmap q = 3#2 :=
    fun q hq hlt => htail q hq (by omega)
  have hloop := get_busy_loop_tail (a := 1) (show k < n by omega) hcont
    (by rwa [Nat.add_assoc, Nat.add_comm 1 k])
  rw [getBusyPageSize, hn]
  change getBusyPageSizeLoop bitmap (n + 1) (markPos page) false 0 = some (k + 1)
  rw [getBusyPageSizeLoop, if_pos hboundary, next_mark_pos]
  simpa [Nat.add_comm] using hloop

end Sirius.Memory
