import Sirius.Library.Bytes
import Sirius.Library.Unsigned

/-!
# Painting the desktop

`paint_desktop` copies the pixels of the windows on the paint list, row by row, into the bank buffer
of the screen. The model records every byte that is written, with the byte of the window it comes
from. Positions and sizes of a window are unsigned 32-bit numbers; a negative position is one that
is negative as an `int`. `pos` and the offset of a row are computed in `unsigned int`. The spinlocks
and the count of painted windows are left out, and the row counter does not overflow.

The address of a row is rounded down to 16 bytes before the copy, nothing is clipped at the left
and upper border, and the task bar limit is not tested for the launcher (`gid` 0).
-/

namespace Sirius.Gui

open Library

def taskBarra : Nat := 36
def sseMmregSize : Nat := 16

/-- The screen. The bank buffer is memory from `alloc_pages`, so it starts at a page boundary, and
is smaller than 4 GiB. -/
structure Screen where
  pixelsPerScanLine : BitVec 32
  verticalResolution : BitVec 32
  bankBuffer : Nat
  aligned : bankBuffer % sseMmregSize = 0
  small : pixelsPerScanLine.toNat * verticalResolution.toNat * 4 < 2 ^ 32

/-- A window, with the address `start` of its pixels. -/
structure Window where
  posX : BitVec 32
  posY : BitVec 32
  width : BitVec 32
  height : BitVec 32
  style : BitVec 32
  gid : BitVec 32
  visibility : BitVec 32
  start : Nat

/-- A byte that is written for a window. -/
structure Store where
  w : Window
  dst : Nat
  src : Nat

/-- The memory, with the bytes written so far. -/
structure Canvas where
  mem : Bytes
  stores : List Store

/-! ### Copies -/

/-- One byte. -/
def storeByte (w : Window) (dst src : Nat) (value : Byte) (c : Canvas) : Canvas :=
  ⟨Function.update c.mem dst value, ⟨w, dst, src⟩ :: c.stores⟩

/-- `n` bytes, the lowest first. -/
def smallMemcpy (w : Window) (dst src : Nat) : Nat → Canvas → Canvas
  | 0, c => c
  | n + 1, c => smallMemcpy w (dst + 1) (src + 1) n (storeByte w dst src (c.mem src) c)

/-- `sse_memcpy`. `rep movsq` leaves the variables `dst` and `src` where they were, so without
alignment the bytes behind the last quadword are taken from the start again. -/
def sseMemcpy (w : Window) (s1 s2 len : Nat) (c : Canvas) : Canvas :=
  if s1 % sseMmregSize ≠ 0 ∨ s2 % sseMmregSize ≠ 0 then
    smallMemcpy w s1 s2 (len % 8) (smallMemcpy w s1 s2 (8 * (len / 8)) c)
  else
    smallMemcpy w (s1 + 64 * (len / 64)) (s2 + 64 * (len / 64)) (len % 64)
      (smallMemcpy w s1 s2 (64 * (len / 64)) c)

/-- One byte of the screen at a third of its brightness. -/
def dimByte (w : Window) (dst src : Nat) (c : Canvas) : Canvas :=
  storeByte w dst src (BitVec.ofNat 8 ((c.mem dst).toNat / 3)) c

/-- `p` pixels: those with the highest bit set darken what is on the screen. -/
def transPixels (w : Window) (dst src : Nat) : Nat → Canvas → Canvas
  | 0, c => c
  | p + 1, c =>
      transPixels w (dst + 4) (src + 4) p
        (if readWord c.mem src ≥ 0x80000000 then
          dimByte w (dst + 2) (src + 2) (dimByte w (dst + 1) (src + 1) (dimByte w dst src c))
        else smallMemcpy w dst src 4 c)

def transMemcpy (w : Window) (s1 s2 n : Nat) : Canvas → Canvas := transPixels w s1 s2 (n / 4)

/-! ### Windows -/

namespace Window

variable (scr : Screen) (w : Window)

/-- `pos` in pixels: it is computed in `unsigned int` and shifted by 2. -/
def pos : Nat :=
  (w.posY.toNat * scr.pixelsPerScanLine.toNat + w.posX.toNat) % 2 ^ 30

/-- The pixels of a row up to the right border. -/
def len : Nat :=
  if w.posX.toNat + w.width.toNat > scr.pixelsPerScanLine.toNat then
    w.width.toNat - (w.posX.toNat + w.width.toNat - scr.pixelsPerScanLine.toNat)
  else w.width.toNat

/-- The tests before the row `i` is copied. -/
def rowTest (i : Nat) : Bool :=
  if w.gid ≠ 0 then i + w.posY.toNat < sub32 scr.verticalResolution.toNat taskBarra
  else i < scr.verticalResolution.toNat

/-- The window is transparent; the launcher never is. -/
def transparent : Bool := w.gid ≠ 0 ∧ w.style.toNat ≥ 0x80000000

/-- The row `i` of a window. -/
def paintRow (c : Canvas) (i : Nat) : Canvas :=
  let src := w.start + i * (w.width.toNat * 4)
  let dst := scr.bankBuffer + 4 * (i * scr.pixelsPerScanLine.toNat % 2 ^ 30) + 4 * w.pos scr
  let dst := dst - dst % sseMmregSize
  if w.rowTest scr i then
    if w.transparent then transMemcpy w dst src (w.len scr * 4 % 2 ^ 32) c
    else sseMemcpy w dst src (w.len scr * 4) c
  else c

/-- One window. -/
def paint (c : Canvas) : Canvas :=
  if w.visibility = 0 ∨ w.posX.toNat > scr.pixelsPerScanLine.toNat then c
  else (List.range w.height.toNat).foldl (w.paintRow scr) c

end Window

/-- The place of the row `i`, in pixels from the start of the bank buffer, before it is rounded. -/
def Window.rowPlace (scr : Screen) (w : Window) (i : Nat) : Nat :=
  i * scr.pixelsPerScanLine.toNat % 2 ^ 30 + w.pos scr

/-- The pixels of the row `i` that reach the screen: an odd last one does not, when the pixels of
the row are not aligned. -/
def Window.rowPixels (scr : Screen) (w : Window) (i : Nat) : Nat :=
  if w.transparent then w.len scr % 2 ^ 30
  else if (w.start + i * (w.width.toNat * 4)) % sseMmregSize ≠ 0 ∧ w.len scr % 2 = 1 ∧
      3 ≤ w.len scr then w.len scr - 1
  else w.len scr

/-- `paint_desktop` for the windows of the paint list. -/
def paintDesktop (scr : Screen) (windows : List Window) (c : Canvas) : Canvas :=
  windows.foldl (fun c w => w.paint scr c) c

variable {scr : Screen} {w : Window} {c : Canvas} {s : Store} {dst src n i : Nat}

/-! ### What a copy writes -/

theorem mem_small_memcpy : s ∈ (smallMemcpy w dst src n c).stores ↔
    s ∈ c.stores ∨ ∃ k < n, s = ⟨w, dst + k, src + k⟩ := by
  induction n generalizing dst src c with
  | zero => simp [smallMemcpy]
  | succ n ih =>
      rw [smallMemcpy, ih]
      simp only [storeByte, List.mem_cons]
      constructor
      · rintro ((rfl | hs) | ⟨k, hk, rfl⟩)
        · exact Or.inr ⟨0, Nat.succ_pos n, rfl⟩
        · exact Or.inl hs
        · refine Or.inr ⟨k + 1, Nat.succ_lt_succ hk, ?_⟩
          rw [Nat.add_assoc, Nat.add_assoc, Nat.add_comm 1 k]
      · rintro (hs | ⟨k, hk, rfl⟩)
        · exact Or.inl (Or.inr hs)
        · rcases Nat.eq_zero_or_pos k with rfl | hpos
          · exact Or.inl (Or.inl rfl)
          · refine Or.inr ⟨k - 1, by omega, ?_⟩
            rw [Nat.add_assoc, Nat.add_assoc, Nat.add_sub_cancel' hpos]

/-- The copy of `n` pixels to an aligned address: an odd last one is lost without alignment of the
source. -/
theorem mem_sse_memcpy (hdst : dst % sseMmregSize = 0) :
    s ∈ (sseMemcpy w dst src (n * 4) c).stores ↔ s ∈ c.stores ∨
      ∃ k < (if src % sseMmregSize ≠ 0 ∧ n % 2 = 1 ∧ 3 ≤ n then n - 1 else n) * 4,
        s = ⟨w, dst + k, src + k⟩ := by
  unfold sseMemcpy
  by_cases hsrc : src % sseMmregSize = 0
  · rw [if_neg (by simp [hdst, hsrc]), if_neg (fun h => h.1 hsrc), mem_small_memcpy,
      mem_small_memcpy]
    constructor
    · rintro ((hs | ⟨k, hk, rfl⟩) | ⟨k, hk, rfl⟩)
      · exact Or.inl hs
      · exact Or.inr ⟨k, by omega, rfl⟩
      · exact Or.inr ⟨64 * (n * 4 / 64) + k, by omega, by rw [Nat.add_assoc, Nat.add_assoc]⟩
    · rintro (hs | ⟨k, hk, rfl⟩)
      · exact Or.inl (Or.inl hs)
      · by_cases hlow : k < 64 * (n * 4 / 64)
        · exact Or.inl (Or.inr ⟨k, hlow, rfl⟩)
        · refine Or.inr ⟨k - 64 * (n * 4 / 64), by omega, ?_⟩
          rw [Nat.add_assoc, Nat.add_assoc, Nat.add_sub_cancel' (Nat.not_lt.mp hlow)]
  · rw [if_pos (Or.inr hsrc), mem_small_memcpy, mem_small_memcpy]
    -- an odd number of pixels leaves four bytes behind the quadwords
    have hbytes : ∀ k, (k < 8 * (n * 4 / 8) ∨ k < n * 4 % 8) ↔
        k < (if src % sseMmregSize ≠ 0 ∧ n % 2 = 1 ∧ 3 ≤ n then n - 1 else n) * 4 := by
      intro k
      split
      · omega
      · have : ¬ (n % 2 = 1 ∧ 3 ≤ n) := fun h => ‹¬ (_ ∧ _ ∧ _)› ⟨hsrc, h⟩
        omega
    constructor
    · rintro ((hs | ⟨k, hk, rfl⟩) | ⟨k, hk, rfl⟩)
      · exact Or.inl hs
      · exact Or.inr ⟨k, (hbytes k).mp (Or.inl hk), rfl⟩
      · exact Or.inr ⟨k, (hbytes k).mp (Or.inr hk), rfl⟩
    · rintro (hs | ⟨k, hk, rfl⟩)
      · exact Or.inl (Or.inl hs)
      · rcases (hbytes k).mpr hk with hk | hk
        · exact Or.inl (Or.inr ⟨k, hk, rfl⟩)
        · exact Or.inr ⟨k, hk, rfl⟩

/-- The bytes of one pixel, copied or darkened: darkening leaves the fourth one alone. -/
theorem mem_trans_pixel :
    (s ∈ (if readWord c.mem src ≥ 0x80000000 then
        dimByte w (dst + 2) (src + 2) (dimByte w (dst + 1) (src + 1) (dimByte w dst src c))
      else smallMemcpy w dst src 4 c).stores →
      s ∈ c.stores ∨ ∃ k < 4, s = ⟨w, dst + k, src + k⟩) ∧
    ((s ∈ c.stores ∨ ∃ k < 3, s = ⟨w, dst + k, src + k⟩) →
      s ∈ (if readWord c.mem src ≥ 0x80000000 then
        dimByte w (dst + 2) (src + 2) (dimByte w (dst + 1) (src + 1) (dimByte w dst src c))
      else smallMemcpy w dst src 4 c).stores) := by
  split
  · simp only [dimByte, storeByte, List.mem_cons]
    refine ⟨?_, ?_⟩
    · rintro (rfl | rfl | rfl | hs)
      · exact Or.inr ⟨2, by decide, rfl⟩
      · exact Or.inr ⟨1, by decide, rfl⟩
      · exact Or.inr ⟨0, by decide, rfl⟩
      · exact Or.inl hs
    · rintro (hs | ⟨k, hk, rfl⟩)
      · exact Or.inr (Or.inr (Or.inr hs))
      · interval_cases k
        · exact Or.inr (Or.inr (Or.inl rfl))
        · exact Or.inr (Or.inl rfl)
        · exact Or.inl rfl
  · rw [mem_small_memcpy]
    refine ⟨id, ?_⟩
    rintro (hs | ⟨k, hk, rfl⟩)
    · exact Or.inl hs
    · exact Or.inr ⟨k, by omega, rfl⟩

theorem mem_trans_pixels (h : s ∈ (transPixels w dst src n c).stores) :
    s ∈ c.stores ∨ ∃ k < n * 4, s = ⟨w, dst + k, src + k⟩ := by
  induction n generalizing dst src c with
  | zero => exact Or.inl h
  | succ n ih =>
      rw [transPixels] at h
      rcases ih h with h | ⟨k, hk, rfl⟩
      · rcases mem_trans_pixel.1 h with h | ⟨k, hk, rfl⟩
        · exact Or.inl h
        · exact Or.inr ⟨k, by omega, rfl⟩
      · exact Or.inr ⟨4 + k, by omega, by rw [Nat.add_assoc, Nat.add_assoc]⟩

theorem trans_pixels_cover
    (h : s ∈ c.stores ∨ ∃ t < n, ∃ k < 3, s = ⟨w, dst + (4 * t + k), src + (4 * t + k)⟩) :
    s ∈ (transPixels w dst src n c).stores := by
  induction n generalizing dst src c with
  | zero =>
      rcases h with h | ⟨t, ht, -⟩
      · exact h
      · exact absurd ht (Nat.not_lt_zero t)
  | succ n ih =>
      rw [transPixels]
      refine ih ?_
      rcases h with h | ⟨t, ht, k, hk, rfl⟩
      · exact Or.inl (mem_trans_pixel.2 (Or.inl h))
      · rcases Nat.eq_zero_or_pos t with rfl | hpos
        · exact Or.inl (mem_trans_pixel.2 (Or.inr ⟨k, hk, by rw [Nat.mul_zero, Nat.zero_add]⟩))
        · refine Or.inr ⟨t - 1, by omega, k, hk, ?_⟩
          have ht : 4 + (4 * (t - 1) + k) = 4 * t + k := by omega
          rw [Nat.add_assoc, Nat.add_assoc, ht]

/-! ### What a window writes -/

/-- The byte `k` of the row `i`. -/
def Window.rowByte (scr : Screen) (w : Window) (i k : Nat) : Store :=
  ⟨w, scr.bankBuffer + 4 * (w.rowPlace scr i - w.rowPlace scr i % 4) + k,
    w.start + i * (w.width.toNat * 4) + k⟩

theorem Window.len_le (scr : Screen) (w : Window) : w.len scr ≤ w.width.toNat := by
  unfold Window.len
  split <;> omega

theorem Window.row_pixels_le (scr : Screen) (w : Window) (i : Nat) :
    w.rowPixels scr i ≤ w.len scr := by
  unfold Window.rowPixels
  split
  · exact Nat.mod_le ..
  · split <;> omega

/-- The row with its address rounded down. -/
theorem paint_row_eq (hrow : w.rowTest scr i = true) :
    w.paintRow scr c i =
      if w.transparent then
        transMemcpy w (w.rowByte scr i 0).dst (w.rowByte scr i 0).src (w.len scr * 4 % 2 ^ 32) c
      else sseMemcpy w (w.rowByte scr i 0).dst (w.rowByte scr i 0).src (w.len scr * 4) c := by
  have haligned := scr.aligned
  have hdst : scr.bankBuffer + 4 * (i * scr.pixelsPerScanLine.toNat % 2 ^ 30) + 4 * w.pos scr -
      (scr.bankBuffer + 4 * (i * scr.pixelsPerScanLine.toNat % 2 ^ 30) + 4 * w.pos scr) %
        sseMmregSize =
      scr.bankBuffer + 4 * (w.rowPlace scr i - w.rowPlace scr i % 4) := by
    unfold Window.rowPlace
    unfold sseMmregSize at haligned ⊢
    generalize i * scr.pixelsPerScanLine.toNat % 2 ^ 30 = a
    generalize w.pos scr = b
    omega
  unfold Window.paintRow
  rw [if_pos hrow, hdst]
  rfl

theorem row_aligned (scr : Screen) (w : Window) (i : Nat) :
    (w.rowByte scr i 0).dst % sseMmregSize = 0 := by
  have haligned := scr.aligned
  show (scr.bankBuffer + 4 * (w.rowPlace scr i - w.rowPlace scr i % 4) + 0) % sseMmregSize = 0
  unfold sseMmregSize at haligned ⊢
  omega

/-- The pixels that a transparent row has in 32 bits. -/
theorem trans_count (n : Nat) : n * 4 % 2 ^ 32 / 4 = n % 2 ^ 30 := by omega

theorem mem_paint_row (h : s ∈ (w.paintRow scr c i).stores) :
    s ∈ c.stores ∨ (w.rowTest scr i = true ∧ ∃ k < w.rowPixels scr i * 4, s = w.rowByte scr i k) := by
  by_cases hrow : w.rowTest scr i = true
  · rw [paint_row_eq hrow] at h
    by_cases htrans : w.transparent = true
    · rw [if_pos htrans] at h
      have hpixels : w.rowPixels scr i = w.len scr * 4 % 2 ^ 32 / 4 := by
        rw [trans_count, Window.rowPixels, if_pos htrans]
      rcases mem_trans_pixels h with h | ⟨k, hk, rfl⟩
      · exact Or.inl h
      · exact Or.inr ⟨hrow, k, hpixels ▸ hk, rfl⟩
    · rw [if_neg htrans] at h
      rcases (mem_sse_memcpy (row_aligned scr w i)).mp h with h | ⟨k, hk, rfl⟩
      · exact Or.inl h
      · refine Or.inr ⟨hrow, k, ?_, rfl⟩
        rw [Window.rowPixels, if_neg htrans]
        exact hk
  · rw [Window.paintRow, if_neg hrow] at h
    exact Or.inl h

theorem paint_row_cover (h : s ∈ c.stores ∨ (w.rowTest scr i = true ∧
      ∃ t < w.rowPixels scr i, ∃ k < 3, s = w.rowByte scr i (4 * t + k))) :
    s ∈ (w.paintRow scr c i).stores := by
  by_cases hrow : w.rowTest scr i = true
  · rw [paint_row_eq hrow]
    by_cases htrans : w.transparent = true
    · rw [if_pos htrans]
      have hpixels : w.rowPixels scr i = w.len scr * 4 % 2 ^ 32 / 4 := by
        rw [trans_count, Window.rowPixels, if_pos htrans]
      refine trans_pixels_cover ?_
      rcases h with h | ⟨-, t, ht, k, hk, rfl⟩
      · exact Or.inl h
      · exact Or.inr ⟨t, hpixels ▸ ht, k, hk, rfl⟩
    · rw [if_neg htrans, mem_sse_memcpy (row_aligned scr w i)]
      rcases h with h | ⟨-, t, ht, k, hk, rfl⟩
      · exact Or.inl h
      · refine Or.inr ⟨4 * t + k, ?_, rfl⟩
        rw [Window.rowPixels, if_neg htrans] at ht
        have hlt : 4 * t + k < (t + 1) * 4 := by omega
        exact Nat.lt_of_lt_of_le hlt (Nat.mul_le_mul_right 4 ht)
  · rw [Window.paintRow, if_neg hrow]
    rcases h with h | ⟨h, -⟩
    · exact h
    · exact absurd h hrow

/-- The window is painted at all. -/
def Window.Painted (scr : Screen) (w : Window) : Prop :=
  w.visibility ≠ 0 ∧ w.posX.toNat ≤ scr.pixelsPerScanLine.toNat

theorem mem_paint_rows (rows : List Nat) (h : s ∈ (rows.foldl (w.paintRow scr) c).stores) :
    s ∈ c.stores ∨ ∃ i ∈ rows, w.rowTest scr i = true ∧
      ∃ k < w.rowPixels scr i * 4, s = w.rowByte scr i k := by
  induction rows generalizing c with
  | nil => exact Or.inl h
  | cons i rows ih =>
      rcases ih h with h | ⟨j, hj, hstore⟩
      · rcases mem_paint_row h with h | hstore
        · exact Or.inl h
        · exact Or.inr ⟨i, List.mem_cons_self, hstore⟩
      · exact Or.inr ⟨j, List.mem_cons_of_mem i hj, hstore⟩

theorem paint_rows_cover (rows : List Nat) (h : s ∈ c.stores ∨ ∃ i ∈ rows,
      w.rowTest scr i = true ∧ ∃ t < w.rowPixels scr i, ∃ k < 3, s = w.rowByte scr i (4 * t + k)) :
    s ∈ (rows.foldl (w.paintRow scr) c).stores := by
  induction rows generalizing c with
  | nil =>
      rcases h with h | ⟨i, hi, -⟩
      · exact h
      · exact absurd hi (List.not_mem_nil)
  | cons i rows ih =>
      refine ih ?_
      rcases h with h | ⟨j, hj, hstore⟩
      · exact Or.inl (paint_row_cover (Or.inl h))
      · rcases List.mem_cons.mp hj with rfl | hj
        · exact Or.inl (paint_row_cover (Or.inr hstore))
        · exact Or.inr ⟨j, hj, hstore⟩

theorem mem_paint (h : s ∈ (w.paint scr c).stores) :
    s ∈ c.stores ∨ (w.Painted scr ∧ ∃ i < w.height.toNat, w.rowTest scr i = true ∧
      ∃ k < w.rowPixels scr i * 4, s = w.rowByte scr i k) := by
  unfold Window.paint at h
  split at h
  · exact Or.inl h
  · rename_i hskip
    rw [not_or, Nat.not_lt] at hskip
    rcases mem_paint_rows _ h with h | ⟨i, hi, hstore⟩
    · exact Or.inl h
    · exact Or.inr ⟨hskip, i, List.mem_range.mp hi, hstore⟩

theorem paint_cover (h : s ∈ c.stores ∨ (w.Painted scr ∧ ∃ i < w.height.toNat,
      w.rowTest scr i = true ∧ ∃ t < w.rowPixels scr i, ∃ k < 3, s = w.rowByte scr i (4 * t + k))) :
    s ∈ (w.paint scr c).stores := by
  unfold Window.paint
  split
  · rename_i hskip
    rcases h with h | ⟨⟨hvisible, hx⟩, -⟩
    · exact h
    · rcases hskip with hskip | hskip
      · exact absurd hskip hvisible
      · exact absurd hx (Nat.not_le.mpr hskip)
  · refine paint_rows_cover _ ?_
    rcases h with h | ⟨-, i, hi, hstore⟩
    · exact Or.inl h
    · exact Or.inr ⟨i, List.mem_range.mpr hi, hstore⟩

/-! ### What the desktop writes -/

theorem mem_paint_desktop (windows : List Window)
    (h : s ∈ (paintDesktop scr windows c).stores) :
    s ∈ c.stores ∨ (s.w ∈ windows ∧ s.w.Painted scr ∧ ∃ i < s.w.height.toNat,
      s.w.rowTest scr i = true ∧ ∃ k < s.w.rowPixels scr i * 4, s = s.w.rowByte scr i k) := by
  induction windows generalizing c with
  | nil => exact Or.inl h
  | cons w windows ih =>
      rcases ih h with h | ⟨hmem, hstore⟩
      · rcases mem_paint h with h | ⟨hpainted, i, hi, hrow, k, hk, rfl⟩
        · exact Or.inl h
        · exact Or.inr ⟨List.mem_cons_self, hpainted, i, hi, hrow, k, hk, rfl⟩
      · exact Or.inr ⟨List.mem_cons_of_mem w hmem, hstore⟩

theorem paint_desktop_cover (windows : List Window) (h : s ∈ c.stores ∨ (s.w ∈ windows ∧
      s.w.Painted scr ∧ ∃ i < s.w.height.toNat, s.w.rowTest scr i = true ∧
        ∃ t < s.w.rowPixels scr i, ∃ k < 3, s = s.w.rowByte scr i (4 * t + k))) :
    s ∈ (paintDesktop scr windows c).stores := by
  induction windows generalizing c with
  | nil =>
      rcases h with h | ⟨hmem, -⟩
      · exact h
      · exact absurd hmem (List.not_mem_nil)
  | cons w windows ih =>
      refine ih ?_
      rcases h with h | ⟨hmem, hstore⟩
      · exact Or.inl (paint_cover (Or.inl h))
      · rcases List.mem_cons.mp hmem with rfl | hmem
        · exact Or.inl (paint_cover (Or.inr hstore))
        · exact Or.inr ⟨hmem, hstore⟩

/-! ### The screen -/

/-- The pixel in row `i` and column `j` of a window lies on the screen, above the task bar. -/
def Window.VisibleAt (scr : Screen) (w : Window) (i j : Nat) : Prop :=
  i < w.height.toNat ∧ j < w.width.toNat ∧ 0 ≤ w.posX.toInt + j ∧
    w.posX.toInt + j < scr.pixelsPerScanLine.toNat ∧ 0 ≤ w.posY.toInt + i ∧
    w.posY.toInt + i + taskBarra < scr.verticalResolution.toNat

/-- The byte `s` is the byte `k` of the pixel in row `i` and column `j`, at its own position on the
screen. -/
structure Window.OwnPosition (scr : Screen) (w : Window) (i j k : Nat) (s : Store) : Prop where
  window : s.w = w
  dst : (s.dst : Int) = scr.bankBuffer +
    4 * ((w.posY.toInt + i) * scr.pixelsPerScanLine.toNat + (w.posX.toInt + j)) + k
  src : s.src = w.start + 4 * (i * w.width.toNat + j) + k

/-- Every byte lies in the bank buffer, and the three colors of every pixel that is to be seen are
written at their position. -/
structure PaintsWithin (scr : Screen) (windows : List Window) (stores : List Store) : Prop where
  inside : ∀ s ∈ stores, scr.bankBuffer ≤ s.dst ∧ s.dst < scr.bankBuffer +
    scr.pixelsPerScanLine.toNat * scr.verticalResolution.toNat * 4
  visible : ∀ w ∈ windows, w.visibility ≠ 0 → ∀ i j, w.VisibleAt scr i j → ∀ k < 3,
    ∃ s ∈ stores, w.OwnPosition scr i j k s

/-- When the painting of a window keeps to the screen: nothing of a window that begins left of the
screen or above it is to be seen; the rows to be seen start at a multiple of 16 bytes and lose no
odd pixel; and the rows that are painted, rounded down, end in the bank buffer (a matter of the
launcher, and of screens lower than the task bar). -/
structure Window.Clean (scr : Screen) (w : Window) : Prop where
  corner : w.posX.toInt < 0 ∨ w.posY.toInt < 0 → ∀ i j, ¬ w.VisibleAt scr i j
  rows : 0 ≤ w.posX.toInt → 0 ≤ w.posY.toInt → ∀ i < w.height.toNat, 0 < w.width.toNat →
    w.posX.toNat < scr.pixelsPerScanLine.toNat →
    w.posY.toNat + i + taskBarra < scr.verticalResolution.toNat →
    ((w.posY.toNat + i) * scr.pixelsPerScanLine.toNat + w.posX.toNat) % 4 = 0 ∧
      w.rowPixels scr i = w.len scr
  inside : w.posX.toNat ≤ scr.pixelsPerScanLine.toNat → ∀ i < w.height.toNat,
    w.rowTest scr i = true → w.rowPixels scr i = 0 ∨
      w.rowPlace scr i - w.rowPlace scr i % 4 + w.rowPixels scr i ≤
        scr.pixelsPerScanLine.toNat * scr.verticalResolution.toNat

theorem toInt_nonneg {x : BitVec 32} (h : 0 ≤ x.toInt) : x.toInt = x.toNat := by
  rw [BitVec.toInt_eq_toNat_cond] at h ⊢
  split
  · rfl
  · rename_i hneg
    rw [if_neg hneg] at h
    have := x.isLt
    omega

theorem toInt_neg {x : BitVec 32} (h : x.toInt < 0) :
    x.toInt = (x.toNat : Int) - 2 ^ 32 ∧ 2 ^ 31 ≤ x.toNat := by
  rw [BitVec.toInt_eq_toNat_cond] at h ⊢
  split
  · rename_i hpos
    rw [if_pos hpos] at h
    omega
  · exact ⟨rfl, by omega⟩

/-- On the screen the place of a row is computed without overflow. -/
theorem row_place_eq (hx : w.posX.toNat < scr.pixelsPerScanLine.toNat)
    (hy : w.posY.toNat + i < scr.verticalResolution.toNat) :
    w.rowPlace scr i =
      (w.posY.toNat + i) * scr.pixelsPerScanLine.toNat + w.posX.toNat := by
  have hsmall := scr.small
  unfold Window.rowPlace Window.pos
  generalize scr.pixelsPerScanLine.toNat = p at *
  generalize scr.verticalResolution.toNat = v at *
  have hrows : (w.posY.toNat + i + 1) * p ≤ v * p := Nat.mul_le_mul_right p hy
  rw [Nat.mul_comm v p] at hrows
  have hsplit : (w.posY.toNat + i) * p = w.posY.toNat * p + i * p := Nat.add_mul ..
  rw [Nat.add_mul, hsplit, Nat.one_mul] at hrows
  rw [hsplit, Nat.mod_eq_of_lt (by omega), Nat.mod_eq_of_lt (by omega)]
  omega

theorem len_of_lt {j : Nat} (hj : j < w.width.toNat)
    (hx : w.posX.toNat + j < scr.pixelsPerScanLine.toNat) : j < w.len scr := by
  unfold Window.len
  split <;> omega

theorem len_pos (hwidth : 0 < w.width.toNat) (hx : w.posX.toNat < scr.pixelsPerScanLine.toNat) :
    0 < w.len scr ∧ w.posX.toNat + (w.len scr - 1) < scr.pixelsPerScanLine.toNat := by
  unfold Window.len
  split <;> omega

theorem row_test_of_visible (h : w.posY.toNat + i + taskBarra < scr.verticalResolution.toNat) :
    w.rowTest scr i = true := by
  unfold Window.rowTest
  split
  · rw [sub32_of_le (by omega), decide_eq_true_iff]
    omega
  · rw [decide_eq_true_iff]
    omega

/-- A clean window stays in the bank buffer. -/
theorem clean_inside (h : w.Clean scr) (hpainted : w.Painted scr) (hi : i < w.height.toNat)
    (hrow : w.rowTest scr i = true) {k : Nat} (hk : k < w.rowPixels scr i * 4) :
    scr.bankBuffer ≤ (w.rowByte scr i k).dst ∧ (w.rowByte scr i k).dst <
      scr.bankBuffer + scr.pixelsPerScanLine.toNat * scr.verticalResolution.toNat * 4 := by
  have hplace := (h.inside hpainted.2 i hi hrow).resolve_left (by omega)
  unfold Window.rowByte
  dsimp only
  generalize scr.pixelsPerScanLine.toNat * scr.verticalResolution.toNat = size at *
  omega

/-- A clean window shows its pixels at their position. -/
theorem clean_visible (h : w.Clean scr) {j : Nat} (hvis : w.VisibleAt scr i j) (k : Nat) :
    w.rowTest scr i = true ∧ w.posX.toNat ≤ scr.pixelsPerScanLine.toNat ∧
      j < w.rowPixels scr i ∧ w.OwnPosition scr i j k (w.rowByte scr i (4 * j + k)) := by
  have hx : 0 ≤ w.posX.toInt := Int.not_lt.mp fun hneg => h.corner (Or.inl hneg) i j hvis
  have hy : 0 ≤ w.posY.toInt := Int.not_lt.mp fun hneg => h.corner (Or.inr hneg) i j hvis
  obtain ⟨hi, hj, -, hcol, -, hline⟩ := hvis
  have hposX := toInt_nonneg hx
  have hposY := toInt_nonneg hy
  rw [hposX] at hcol
  rw [hposY] at hline
  obtain ⟨halign, hpixels⟩ := h.rows hx hy i hi (by omega) (by omega) (by omega)
  have hplace := @row_place_eq scr w i (by omega) (by unfold taskBarra at hline; omega)
  refine ⟨row_test_of_visible (by omega), by omega, ?_, rfl, ?_, ?_⟩
  · rw [hpixels]
    exact len_of_lt hj (by omega)
  · rw [Window.rowByte, hplace, hposX, hposY]
    dsimp only
    rw [halign, Nat.sub_zero]
    push_cast
    ring
  · rw [Window.rowByte]
    dsimp only
    ring

/-- A byte at the position of a pixel is that byte of the pixel's row. -/
theorem own_position_row {j i' k' : Nat} (hj : j < w.width.toNat)
    (hk' : k' < w.rowPixels scr i' * 4)
    (hown : w.OwnPosition scr i j 0 (w.rowByte scr i' k')) :
    i' = i ∧ k' = 4 * j ∧
      (w.posY.toInt + i) * scr.pixelsPerScanLine.toNat + w.posX.toInt =
        ((w.rowPlace scr i - w.rowPlace scr i % 4 : Nat) : Int) := by
  have hle : w.rowPixels scr i' ≤ w.width.toNat :=
    Nat.le_trans (w.row_pixels_le scr i') (w.len_le scr)
  have hsrc : i' * (w.width.toNat * 4) + k' = 4 * (i * w.width.toNat + j) := by
    have h := hown.src
    unfold Window.rowByte at h
    dsimp only at h
    omega
  have hrow : i' = i := by
    have hleft : i' * (w.width.toNat * 4) = 4 * (i' * w.width.toNat) := by ring
    have hdiv : i' * w.width.toNat + k' / 4 = i * w.width.toNat + j := by omega
    have hone := congrArg (· / w.width.toNat) hdiv
    have hwidth : 0 < w.width.toNat := Nat.zero_lt_of_lt hj
    rw [Nat.mul_comm, Nat.mul_add_div hwidth, Nat.div_eq_of_lt (by omega), Nat.mul_comm,
      Nat.mul_add_div hwidth, Nat.div_eq_of_lt hj] at hone
    exact hone
  subst hrow
  have hk : k' = 4 * j := by
    have hleft : i' * (w.width.toNat * 4) = 4 * (i' * w.width.toNat) := by ring
    omega
  subst hk
  refine ⟨rfl, rfl, ?_⟩
  have h := hown.dst
  unfold Window.rowByte at h
  dsimp only at h
  push_cast at h
  omega

/-- Above the screen the place of a row is computed modulo `2 ^ 30`, which takes it out of it. -/
theorem row_place_above {p v x y k : Nat} (hsmall : p * v * 4 < 2 ^ 32) (hx : x < p)
    (hy : y + k = 2 ^ 32) (hk : 0 < k) (hki : k ≤ i) (hi : i < v) :
    (i - k) * p + x + 3 < i * p % 2 ^ 30 + (y * p + x) % 2 ^ 30 := by
  have hrows : (i + 1) * p ≤ v * p := Nat.mul_le_mul_right p hi
  rw [Nat.mul_comm v p, Nat.add_mul, Nat.one_mul] at hrows
  have hrow : i * p = (i - k) * p + k * p := by
    rw [← Nat.add_mul, Nat.sub_add_cancel hki]
  have hone : p ≤ k * p := Nat.le_mul_of_pos_left p hk
  have hwrap : y * p + x = 2 ^ 30 - (k * p - x) + (4 * p - 1) * 2 ^ 30 := by
    have htotal : y * p + k * p = 2 ^ 32 * p := by rw [← Nat.add_mul, hy]
    omega
  rw [Nat.mod_eq_of_lt (show i * p < 2 ^ 30 by omega), hwrap, Nat.add_mul_mod_self_right,
    Nat.mod_eq_of_lt (show 2 ^ 30 - (k * p - x) < 2 ^ 30 by omega)]
  omega

/-- A window that begins left of the screen or above it shows no pixel at its position. -/
theorem corner_not_shown (hneg : w.posX.toInt < 0 ∨ w.posY.toInt < 0) {j : Nat}
    (hvis : w.VisibleAt scr i j) (hpainted : w.posX.toNat ≤ scr.pixelsPerScanLine.toNat)
    (hrow : w.rowTest scr i = true) :
    ¬ (w.posY.toInt + i) * scr.pixelsPerScanLine.toNat + w.posX.toInt =
        ((w.rowPlace scr i - w.rowPlace scr i % 4 : Nat) : Int) := by
  obtain ⟨-, -, hleft, hcol, htop, hline⟩ := hvis
  have hsmall := scr.small
  by_cases hx : w.posX.toInt < 0
  · -- a painted window left of the screen would need a line of 2 ^ 31 pixels
    obtain ⟨-, hlarge⟩ := toInt_neg hx
    have hpos : 0 < scr.verticalResolution.toNat := by omega
    have hline := Nat.le_mul_of_pos_right scr.pixelsPerScanLine.toNat hpos
    omega
  · have hposX := toInt_nonneg (Int.not_lt.mp hx)
    obtain ⟨hposY, hlarge⟩ := toInt_neg (hneg.resolve_left hx)
    have hlt := w.posY.isLt
    rw [hposY] at htop
    unfold Window.rowTest at hrow
    split at hrow
    · rw [decide_eq_true_iff] at hrow
      have := sub32_lt scr.verticalResolution.isLt taskBarra
      omega
    · rw [decide_eq_true_iff] at hrow
      intro hplace
      have habove : (i - (2 ^ 32 - w.posY.toNat)) * scr.pixelsPerScanLine.toNat + w.posX.toNat + 3 <
          w.rowPlace scr i :=
        row_place_above hsmall (by omega) (by omega) (by omega) (by omega) hrow
      have hshift : w.posY.toInt + i = ((i - (2 ^ 32 - w.posY.toNat) : Nat) : Int) := by omega
      rw [hshift, hposX] at hplace
      have hplace : (i - (2 ^ 32 - w.posY.toNat)) * scr.pixelsPerScanLine.toNat + w.posX.toNat =
          w.rowPlace scr i - w.rowPlace scr i % 4 := by
        exact_mod_cast hplace
      omega

/-- A screen of 640 by 480 pixels. -/
def vgaScreen : Screen := ⟨640, 480, 0x400000, rfl, by decide⟩

/-- A launcher whose second line lies below the screen. -/
def lowLauncher : Window := ⟨0, 479, 1, 2, 0, 0, 1, 0x800000⟩

/-- A window of one pixel in the second column. -/
def secondColumn : Window := ⟨1, 0, 1, 1, 0, 1, 1, 0x800000⟩

end Sirius.Gui
