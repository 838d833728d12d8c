import Sirius.Memory.PageBitmap

/-!
# Frames and page table entries

`frameBit` is the bit of a frame in `RAM_BITMAP`. `FramesInv` says that the present entries of the
allocation window own distinct frames that are taken. The loops of `alloc_pages` and `free_pages`
keep it, and the lemmas say exactly which entries and which frames they change.
-/

namespace Sirius.Memory

open Library

/-- The bit of a frame. -/
def frameBit (ram : Bytes) (f : Nat) : Bool := (ram (f / 8)).getLsbD (f % 8)

/-- The frames `alloc_frame` hands out: those from 128 MiB up to the limit of its scan. -/
def FrameRange (f : Nat) : Prop := 4096 * 8 ≤ f ∧ f < 512 * 1024 / 4 * 8

/-- The bitmap after taking a frame. -/
def setFrame (ram : Bytes) (f : Nat) : Bytes :=
  Function.update ram (f / 8) (ram (f / 8) ||| (1#8 <<< (f % 8)))

/-- The bitmap after releasing a frame. -/
def clearFrame (ram : Bytes) (f : Nat) : Bytes :=
  Function.update ram (f / 8) (ram (f / 8) &&& ~~~(1#8 <<< (f % 8)))

theorem one_shift_bit (i : Nat) {j : Nat} (hj : j < 8) :
    (1#8 <<< i).getLsbD j = decide (j = i) := by
  rw [BitVec.getLsbD_shiftLeft, BitVec.getLsbD_one, Bool.eq_iff_iff]
  simp only [Bool.and_eq_true, Bool.not_eq_true', decide_eq_true_eq, decide_eq_false_iff_not]
  omega

section Bits

variable (ram : Bytes) (f g : Nat)

theorem frame_bit_set : frameBit (setFrame ram f) g = (decide (g = f) || frameBit ram g) := by
  unfold frameBit setFrame
  by_cases hbyte : g / 8 = f / 8
  · have hbit : decide (g % 8 = f % 8) = decide (g = f) := decide_eq_decide.mpr (by omega)
    rw [hbyte, Function.update_self, BitVec.getLsbD_or, one_shift_bit _ (by omega), hbit,
      Bool.or_comm]
  · have hne : g ≠ f := fun h => hbyte (by rw [h])
    rw [Function.update_of_ne hbyte]
    simp [hne]

theorem frame_bit_clear :
    frameBit (clearFrame ram f) g = (!decide (g = f) && frameBit ram g) := by
  unfold frameBit clearFrame
  by_cases hbyte : g / 8 = f / 8
  · have hbit : decide (g % 8 = f % 8) = decide (g = f) := decide_eq_decide.mpr (by omega)
    have hlt : g % 8 < 8 := by omega
    rw [hbyte, Function.update_self, BitVec.getLsbD_and, BitVec.getLsbD_not,
      one_shift_bit _ hlt, hbit, decide_eq_true hlt, Bool.true_and, Bool.and_comm]
  · have hne : g ≠ f := fun h => hbyte (by rw [h])
    rw [Function.update_of_ne hbyte]
    simp [hne]

end Bits

/-! ### `alloc_frame` and `free_frame` -/

theorem clear_bit_spec : ∀ b : Byte,
    (∃ t : Fin 8, clearBit b 8 = some t.val ∧ b.getLsbD t = false ∧
        ∀ j : Fin 8, j < t → b.getLsbD j = true) ∨
      (clearBit b 8 = none ∧ ∀ j : Fin 8, b.getLsbD j = true) := by
  decide +kernel

/-- The search finds the first free frame, or there is none. -/
theorem search_frame_spec (ram : Bytes) (n i : Nat) :
    (∃ f, i * 8 ≤ f ∧ f < (i + n) * 8 ∧ frameBit ram f = false ∧
        (∀ g, i * 8 ≤ g → g < f → frameBit ram g = true) ∧
        searchFrame ram n i = some (f / 8, f % 8)) ∨
      ((∀ g, i * 8 ≤ g → g < (i + n) * 8 → frameBit ram g = true) ∧
        searchFrame ram n i = none) := by
  induction n generalizing i with
  | zero => exact .inr ⟨fun g hg hlt => by omega, rfl⟩
  | succ n ih =>
      rcases clear_bit_spec (ram i) with ⟨t, hsome, hclear, hfirst⟩ | ⟨hnone, hall⟩
      · have hdiv : (i * 8 + t.val) / 8 = i := by omega
        have hmod : (i * 8 + t.val) % 8 = t.val := by omega
        refine .inl ⟨i * 8 + t.val, by omega, by omega, ?_, fun g hg hlt => ?_, ?_⟩
        · rwa [frameBit, hdiv, hmod]
        · have hbyte : g / 8 = i := by omega
          have hbit := hfirst ⟨g % 8, by omega⟩ (by
            rw [Fin.lt_def]
            simp only
            omega)
          rwa [frameBit, hbyte]
        · simp only [searchFrame, hsome, hdiv, hmod]
      · have hbyte : ∀ g, i * 8 ≤ g → g < (i + 1) * 8 → frameBit ram g = true := fun g hg hlt => by
          have hdiv : g / 8 = i := by omega
          rw [frameBit, hdiv]
          exact hall ⟨g % 8, by omega⟩
        have hrest : searchFrame ram (n + 1) i = searchFrame ram n (i + 1) := by
          simp only [searchFrame, hnone]
        rw [hrest]
        rcases ih (i + 1) with ⟨f, hf, hlt, hclear, hfirst, hfound⟩ | ⟨hfull, hfound⟩
        · refine .inl ⟨f, by omega, by omega, hclear, fun g hg hgf => ?_, hfound⟩
          rcases Nat.lt_or_ge g ((i + 1) * 8) with hlow | hhigh
          · exact hbyte g hg hlow
          · exact hfirst g hhigh hgf
        · refine .inr ⟨fun g hg hlt => ?_, hfound⟩
          rcases Nat.lt_or_ge g ((i + 1) * 8) with hlow | hhigh
          · exact hbyte g hg hlow
          · exact hfull g hhigh (by omega)

/-- The first frame of the scan whose bit is clear. -/
structure FirstFreeFrame (ram : Bytes) (f : Nat) : Prop where
  range : FrameRange f
  clear : frameBit ram f = false
  least : ∀ g, FrameRange g → g < f → frameBit ram g = true

/-- `alloc_frame` takes the first free frame; it returns 0 when none is left. -/
theorem alloc_frame_first (s : Mm) :
    (∃ f, FirstFreeFrame s.ramBitmap f ∧
        allocFrame s = (f * 0x1000, { s with ramBitmap := setFrame s.ramBitmap f })) ∨
      ((∀ f, FrameRange f → frameBit s.ramBitmap f = true) ∧ allocFrame s = (0, s)) := by
  rcases search_frame_spec s.ramBitmap (512 * 1024 / 4 - 4096) 4096 with
    ⟨f, hlow, hhigh, hclear, hleast, hfound⟩ | ⟨hfull, hfound⟩
  · refine .inl ⟨f, ⟨⟨hlow, by omega⟩, hclear, fun g hg hlt => hleast g hg.1 hlt⟩, ?_⟩
    have haddr : (f / 8 * 8 + f % 8) * 0x1000 % 2 ^ 32 = f * 0x1000 := by omega
    simp only [allocFrame, hfound, haddr, setFrame]
  · refine .inr ⟨fun f hf => hfull f hf.1 (by have := hf.2; omega), ?_⟩
    simp only [allocFrame, hfound]

theorem FirstFreeFrame.unique {ram : Bytes} {f g : Nat} (hf : FirstFreeFrame ram f)
    (hg : FirstFreeFrame ram g) : f = g := by
  rcases Nat.lt_trichotomy f g with hlt | heq | hgt
  · have hset := hg.least f hf.range hlt
    rw [hf.clear] at hset
    cases hset
  · exact heq
  · have hset := hf.least g hg.range hgt
    rw [hg.clear] at hset
    cases hset

/-- The result of `alloc_frame` when the first free frame is known. -/
theorem alloc_frame_of_first {s : Mm} {f : Nat} (hf : FirstFreeFrame s.ramBitmap f) :
    allocFrame s = (f * 0x1000, { s with ramBitmap := setFrame s.ramBitmap f }) := by
  rcases alloc_frame_first s with ⟨g, hg, heq⟩ | ⟨hfull, -⟩
  · rw [heq, hg.unique hf]
  · have hset := hfull f hf.range
    rw [hf.clear] at hset
    cases hset

/-- `free_frame` of an allocated frame clears its bit. -/
theorem free_frame_eq (s : Mm) {f : Nat} (hf : FrameRange f) :
    (freeFrame s (f <<< 12 % 2 ^ 40)).2 =
      { s with ramBitmap := clearFrame s.ramBitmap f } := by
  obtain ⟨hlow, hhigh⟩ := hf
  have haddr : f <<< 12 % 2 ^ 40 = f * 0x1000 := by
    rw [Nat.shiftLeft_eq]
    omega
  have hblock : f * 0x1000 / 0x1000 % 2 ^ 32 = f := by omega
  have hkernel : ¬ (f * 0x1000 = 0 ∨ f * 0x1000 < 0x8000000) := by omega
  rw [haddr, freeFrame, if_neg hkernel]
  simp only [hblock, clearFrame]

/-- The frame number an entry stores for the address of a frame. -/
theorem stored_frame_eq {f : Nat} (hf : FrameRange f) :
    (((f * 0x1000) >>> 12) &&& 0xffffffffffff) % 2 ^ 40 = f := by
  obtain ⟨hlow, hhigh⟩ := hf
  have hmask := Nat.and_two_pow_sub_one_eq_mod ((f * 0x1000) >>> 12) 48
  rw [show (2 ^ 48 - 1 : Nat) = 0xffffffffffff from by norm_num] at hmask
  rw [hmask, Nat.shiftRight_eq_div_pow]
  omega

/-! ### Entries and frames together -/

/-- Present entries own distinct frames that are taken, and the other entries are cleared. -/
structure FramesInv (s : Mm) : Prop where
  range : ∀ page < pteCount, (s.allocPte page).p = true → FrameRange (s.allocPte page).frames
  taken : ∀ page < pteCount, (s.allocPte page).p = true →
    frameBit s.ramBitmap (s.allocPte page).frames = true
  distinct : ∀ page < pteCount, ∀ other < pteCount, (s.allocPte page).p = true →
    (s.allocPte other).p = true → (s.allocPte page).frames = (s.allocPte other).frames →
    page = other
  absent : ∀ page < pteCount, (s.allocPte page).p = false →
    (s.allocPte page).us = false ∧ (s.allocPte page).frames = 0

/-- One iteration of `alloc_pages`: the entry of `page` gets the frame `f`. -/
def givePage (type page f : Nat) (s : Mm) : Mm :=
  { s with
    ramBitmap := setFrame s.ramBitmap f
    allocPte := Function.update s.allocPte page { s.allocPte page with
      p := true
      us := if type ≠ 0 then true else (s.allocPte page).us
      frames := f } }

/-- One iteration of `free_pages`: the entry of `page` is cleared and its frame released. -/
def takePage (page : Nat) (s : Mm) : Mm :=
  { s with
    ramBitmap := clearFrame s.ramBitmap (s.allocPte page).frames
    allocPte := Function.update s.allocPte page
      { s.allocPte page with p := false, us := false, frames := 0 } }

/-- An iteration of `alloc_pages` gives a page a free frame, unless no frame is left. -/
theorem alloc_pages_loop_succ (type n page : Nat) (s : Mm) :
    (∃ f, FirstFreeFrame s.ramBitmap f ∧
        allocPagesLoop type (n + 1) page s =
          allocPagesLoop type n (page + 1) (givePage type page f s)) ∨
      ((∀ f, FrameRange f → frameBit s.ramBitmap f = true) ∧
        allocPagesLoop type (n + 1) page s = none) := by
  rcases alloc_frame_first s with ⟨f, hf, halloc⟩ | ⟨hfull, halloc⟩
  · refine .inl ⟨f, hf, ?_⟩
    have hzero : f * 0x1000 ≠ 0 := by
      have := hf.range.1
      omega
    simp only [allocPagesLoop, halloc, if_neg hzero, stored_frame_eq hf.range, givePage]
  · refine .inr ⟨hfull, ?_⟩
    simp only [allocPagesLoop, halloc, if_true]

/-- An iteration of `free_pages` on a present entry. -/
theorem free_pages_loop_succ {n page : Nat} {s : Mm} (hf : FrameRange (s.allocPte page).frames) :
    freePagesLoop (n + 1) page s = freePagesLoop n (page + 1) (takePage page s) := by
  have hfree := free_frame_eq s hf
  rw [freePagesLoop]
  generalize freeFrame s ((s.allocPte page).frames <<< 12 % 2 ^ 40) = r at hfree
  obtain ⟨r, s'⟩ := r
  obtain rfl : s' = _ := hfree
  rfl

section GivePage

variable {s : Mm} {type page f : Nat}

theorem give_page_self :
    (givePage type page f s).allocPte page = { s.allocPte page with
      p := true
      us := if type ≠ 0 then true else (s.allocPte page).us
      frames := f } :=
  Function.update_self ..

theorem give_page_other {other : Nat} (h : other ≠ page) :
    (givePage type page f s).allocPte other = s.allocPte other :=
  Function.update_of_ne h ..

theorem give_page_bit (g : Nat) :
    frameBit (givePage type page f s).ramBitmap g = (decide (g = f) || frameBit s.ramBitmap g) :=
  frame_bit_set ..

/-- Giving an absent page a free frame keeps the invariant. -/
theorem give_page_inv (h : FramesInv s) (hf : FrameRange f)
    (hfree : frameBit s.ramBitmap f = false) : FramesInv (givePage type page f s) := by
  -- a present entry cannot own the frame that was free
  have hother : ∀ q < pteCount, (s.allocPte q).p = true → (s.allocPte q).frames ≠ f := by
    intro q hq hp heq
    have htaken := h.taken q hq hp
    rw [heq, hfree] at htaken
    cases htaken
  constructor
  · intro q hq hp
    by_cases heq : q = page
    · rw [heq, give_page_self]
      exact hf
    · rw [give_page_other heq] at hp ⊢
      exact h.range q hq hp
  · intro q hq hp
    rw [give_page_bit]
    by_cases heq : q = page
    · rw [heq, give_page_self]
      simp
    · rw [give_page_other heq] at hp ⊢
      rw [h.taken q hq hp, Bool.or_true]
  · intro q hq r hr hp hp' hframes
    by_cases heq : q = page <;> by_cases heq' : r = page
    · rw [heq, heq']
    · rw [heq, give_page_self, give_page_other heq'] at hframes
      rw [give_page_other heq'] at hp'
      exact absurd hframes.symm (hother r hr hp')
    · rw [heq', give_page_self, give_page_other heq] at hframes
      rw [give_page_other heq] at hp
      exact absurd hframes (hother q hq hp)
    · rw [give_page_other heq] at hp hframes
      rw [give_page_other heq'] at hp' hframes
      exact h.distinct q hq r hr hp hp' hframes
  · intro q hq hp
    by_cases heq : q = page
    · rw [heq, give_page_self] at hp
      cases hp
    · rw [give_page_other heq] at hp ⊢
      exact h.absent q hq hp

end GivePage

section TakePage

variable {s : Mm} {page : Nat}

theorem take_page_self :
    (takePage page s).allocPte page =
      { s.allocPte page with p := false, us := false, frames := 0 } :=
  Function.update_self ..

theorem take_page_other {other : Nat} (h : other ≠ page) :
    (takePage page s).allocPte other = s.allocPte other :=
  Function.update_of_ne h ..

theorem take_page_bit (g : Nat) :
    frameBit (takePage page s).ramBitmap g =
      (!decide (g = (s.allocPte page).frames) && frameBit s.ramBitmap g) :=
  frame_bit_clear ..

/-- Taking a present page away keeps the invariant. -/
theorem take_page_inv (h : FramesInv s) (hpage : page < pteCount)
    (hpresent : (s.allocPte page).p = true) : FramesInv (takePage page s) := by
  constructor
  · intro q hq hp
    by_cases heq : q = page
    · rw [heq, take_page_self] at hp
      cases hp
    · rw [take_page_other heq] at hp ⊢
      exact h.range q hq hp
  · intro q hq hp
    by_cases heq : q = page
    · rw [heq, take_page_self] at hp
      cases hp
    · rw [take_page_other heq] at hp ⊢
      have hne : (s.allocPte q).frames ≠ (s.allocPte page).frames := fun hframes =>
        heq (h.distinct q hq page hpage hp hpresent hframes)
      rw [take_page_bit, h.taken q hq hp]
      simp [hne]
  · intro q hq r hr hp hp' hframes
    by_cases heq : q = page
    · rw [heq, take_page_self] at hp
      cases hp
    · by_cases heq' : r = page
      · rw [heq', take_page_self] at hp'
        cases hp'
      · rw [take_page_other heq] at hp hframes
        rw [take_page_other heq'] at hp' hframes
        exact h.distinct q hq r hr hp hp' hframes
  · intro q hq hp
    by_cases heq : q = page
    · rw [heq, take_page_self]
      exact ⟨rfl, rfl⟩
    · rw [take_page_other heq] at hp ⊢
      exact h.absent q hq hp

end TakePage

/-- The machine with clear memory before `ram_setup`. -/
def clearMachine : Mm :=
  ⟨fun _ => 0#8, fun _ => 0#8, fun _ => ⟨false, false, false, 0⟩, 0⟩

end Sirius.Memory
