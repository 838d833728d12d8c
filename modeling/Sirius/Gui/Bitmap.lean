import Mathlib.Tactic
import Sirius.Library.Bytes

/-!
# Drawing a bitmap file

`BitMAP` and `BitMAP2` of `user/gui/bmp.c`. The memory starts with the file; what lies behind the
file is not part of it. One index runs over all pixels of the file, so the bytes that pad a row are
taken for pixels of the next one, and a pixel of three bytes is read with four. An `int` that
overflows has no result. Magnification is by one in both directions.
-/

namespace Sirius.Gui

open Library

/-! ### The header -/

abbrev bmpType (m : Bytes) : Nat := readHalf m 0
abbrev bmpOffsetBits (m : Bytes) : Nat := readWord m 10
abbrev bmpInfoSize (m : Bytes) : Nat := readWord m 14
abbrev bmpWidth (m : Bytes) : Nat := readWord m 18
abbrev bmpHeight (m : Bytes) : Nat := readWord m 22
abbrev bmpCount (m : Bytes) : Nat := readHalf m 28
abbrev bmpCompress (m : Bytes) : Nat := readWord m 30
abbrev bmpClrUsed (m : Bytes) : Nat := readWord m 46

/-! ### The loops -/

/-- One `put_pixel` with the reads before it, each with its number of bytes. -/
structure Stroke where
  reads : List (Nat × Nat)
  (x y color : BitVec 32)
  deriving DecidableEq

/-- `factor * i++` in `int`. -/
def nextIndex (factor i : Nat) : Option Nat :=
  if factor * i < 2 ^ 31 ∧ i + 1 < 2 ^ 31 then some (factor * i) else none

/-- The color of the pixel with index `i` and the reads for it; no color for a format that is not
supported. -/
def bmpColor (m : Bytes) (i : Nat) : Option (Option (List (Nat × Nat) × BitVec 32)) :=
  let paleta := 40 + 14
  let dataArea := bmpOffsetBits m
  if bmpCount m ≤ 8 then
    if bmpCount m = 4 then some none
    else (nextIndex 1 i).map fun k =>
      let entry := paleta + 4 * (m (dataArea + k)).toNat
      some ([(dataArea + k, 1), (entry, 4)], BitVec.ofNat 32 (readWord m entry) &&& 0xffffff#32)
  else if bmpCount m = 24 then
    (nextIndex 3 i).map fun k =>
      some ([(dataArea + k, 4)], BitVec.ofNat 32 (readWord m (dataArea + k)) &&& 0xffffff#32)
  else if bmpCount m = 32 then
    (nextIndex 4 i).map fun k =>
      some ([(dataArea + k, 4)], BitVec.ofNat 32 (readWord m (dataArea + k)) &&& 0xffffffff#32)
  else some none

section Loops

variable (m : Bytes) (paint : BitVec 32 → BitVec 32) (X Y : BitVec 32)

/-- The loop over `x` with `left` pixels to go: whether the function returns, the index and the
strokes. -/
def bmpColumns (y : Nat) : (left x i : Nat) → Option (Bool × Nat × List Stroke)
  | 0, _, i => some (false, i, [])
  | left + 1, x, i =>
      match bmpColor m i with
      | none => none
      | some none => some (true, i, [])
      | some (some (reads, color)) => do
          let (stop, i, strokes) ← bmpColumns y left (x + 1) (i + 1)
          pure (stop, i, ⟨reads, X + BitVec.ofNat 32 x, Y + BitVec.ofNat 32 y, paint color⟩ :: strokes)

/-- The loop over `y`, from the height down to 1. -/
def bmpRows : (y i : Nat) → Option (Int × List Stroke)
  | 0, _ => some (0, [])
  | y + 1, i => do
      let (stop, i, strokes) ← bmpColumns m paint X Y (y + 1) (bmpWidth m) 0 i
      if stop then pure (2, strokes)
      else
        let (r, rest) ← bmpRows y i
        pure (r, strokes ++ rest)

/-- The two functions, which differ in the color they draw. A height is an `int`. -/
def drawBitmap : Option (Int × List Stroke) :=
  if bmpType m ≠ 0x4D42 then some (-1, [])
  else bmpRows m paint X Y (if bmpHeight m < 2 ^ 31 then bmpHeight m else 0) 0

end Loops

/-- `BitMAP` -/
def bitMAP (m : Bytes) (X Y bg : BitVec 32) : Option (Int × List Stroke) :=
  drawBitmap m (fun color => if color ≠ 0#32 then color else bg) X Y

/-- `BitMAP2` -/
def bitMAP2 (m : Bytes) (X Y fg bg : BitVec 32) : Option (Int × List Stroke) :=
  drawBitmap m (fun color => if color ≠ 0#32 then fg else bg) X Y

/-! ### Files -/

/-- The bytes of a pixel, and of a row with its padding. -/
abbrev bmpPixelSize (m : Bytes) : Nat := bmpCount m / 8
abbrev bmpRowSize (m : Bytes) : Nat := (bmpWidth m * bmpPixelSize m + 3) / 4 * 4

/-- The color that the bytes at `place` stand for, with the palette at `palette`. -/
def colorAt (m : Bytes) (palette place : Nat) : BitVec 32 :=
  if bmpCount m = 8 then
    BitVec.ofNat 32 (readWord m (palette + 4 * (m place).toNat)) &&& 0xffffff#32
  else if bmpCount m = 24 then
    BitVec.ofNat 32 ((m place).toNat + 2 ^ 8 * (m (place + 1)).toNat +
      2 ^ 16 * (m (place + 2)).toNat)
  else BitVec.ofNat 32 (readWord m place)

/-- The color of pixel `x` of image row `r`, from the bottom row on. -/
def fileColor (m : Bytes) (r x : Nat) : BitVec 32 :=
  colorAt m (14 + bmpInfoSize m) (bmpOffsetBits m + r * bmpRowSize m + bmpPixelSize m * x)

/-- An uncompressed bottom-up file of `size` bytes with 8, 24 or 32 bits per pixel. -/
structure BmpFile (m : Bytes) (size : Nat) : Prop where
  type : bmpType m = 0x4D42
  info : 40 ≤ bmpInfoSize m ∧ 14 + bmpInfoSize m ≤ bmpOffsetBits m
  count : bmpCount m = 8 ∨ bmpCount m = 24 ∨ bmpCount m = 32
  compress : bmpCompress m = 0
  width : 0 < bmpWidth m ∧ bmpWidth m < 2 ^ 31
  height : 0 < bmpHeight m ∧ bmpHeight m < 2 ^ 31
  pixels : bmpOffsetBits m + bmpRowSize m * bmpHeight m ≤ size
  palette : bmpCount m = 8 → ∃ colors, colors = (if bmpClrUsed m = 0 then 256 else bmpClrUsed m) ∧
    14 + bmpInfoSize m + 4 * colors ≤ bmpOffsetBits m ∧
    ∀ r < bmpHeight m, ∀ x < bmpWidth m,
      (m (bmpOffsetBits m + r * bmpRowSize m + x)).toNat < colors

/-- The picture of the file: the pixels of image row `r` in the row `height - r`. -/
def picture (m : Bytes) (paint : BitVec 32 → BitVec 32) (X Y : BitVec 32) :
    List (BitVec 32 × BitVec 32 × BitVec 32) :=
  (List.range (bmpHeight m)).flatMap fun r => (List.range (bmpWidth m)).map fun x =>
    (X + BitVec.ofNat 32 x, Y + BitVec.ofNat 32 (bmpHeight m - r), paint (fileColor m r x))

/-- The function reads bytes of the file only, and draws the picture, each pixel once. -/
def DrawsFile (m : Bytes) (size : Nat) (paint : BitVec 32 → BitVec 32) (X Y : BitVec 32)
    (result : Option (Int × List Stroke)) : Prop :=
  ∃ strokes, result = some (0, strokes) ∧
    (∀ s ∈ strokes, ∀ a ∈ s.reads, a.1 + a.2 ≤ size) ∧
    strokes.map (fun s => (s.x, s.y, s.color)) = picture m paint X Y

/-- The index stays an `int`; behind the last pixel of three bytes the file has another byte; and
the palette entries of the first bytes, as many as there are pixels, are in the file. -/
structure BmpReadable (m : Bytes) (size : Nat) : Prop where
  index : bmpHeight m * bmpWidth m < 2 ^ 31 ∧
    bmpPixelSize m * (bmpHeight m * bmpWidth m - 1) < 2 ^ 31
  behind : bmpCount m = 24 → bmpOffsetBits m + 3 * (bmpHeight m * bmpWidth m) < size
  palette : bmpCount m = 8 → ∀ k < bmpHeight m * bmpWidth m,
    54 + 4 * (m (bmpOffsetBits m + k)).toNat + 4 ≤ size

/-- The pixels look the same when the rows are taken without their padding and the palette behind a
header of 40 bytes. -/
def LooksUnpadded (m : Bytes) (paint : BitVec 32 → BitVec 32) : Prop :=
  ∀ r < bmpHeight m, ∀ x < bmpWidth m,
    paint (colorAt m 54 (bmpOffsetBits m + bmpPixelSize m * (r * bmpWidth m + x))) =
      paint (fileColor m r x)

variable {m : Bytes} {size i k left x y : Nat} {paint : BitVec 32 → BitVec 32} {X Y bg : BitVec 32}

/-! ### One pixel -/

/-- The reads for the pixel with index `i`. -/
def codeReads (m : Bytes) (i : Nat) : List (Nat × Nat) :=
  let place := bmpOffsetBits m + bmpPixelSize m * i
  if bmpCount m = 8 then [(place, 1), (54 + 4 * (m place).toNat, 4)] else [(place, 4)]

/-- The color that is read for it. -/
def codeColor (m : Bytes) (i : Nat) : BitVec 32 :=
  colorAt m 54 (bmpOffsetBits m + bmpPixelSize m * i)

/-- The index is counted on. -/
def IndexFits (m : Bytes) (i : Nat) : Prop := bmpPixelSize m * i < 2 ^ 31 ∧ i + 1 < 2 ^ 31

theorem low_three_bytes (a : Nat) : BitVec.ofNat 32 (readWord m a) &&& 0xffffff#32 =
    BitVec.ofNat 32 ((m a).toNat + 2 ^ 8 * (m (a + 1)).toNat + 2 ^ 16 * (m (a + 2)).toNat) := by
  have h₀ := (m a).isLt
  have h₁ := (m (a + 1)).isLt
  have h₂ := (m (a + 2)).isLt
  have h₃ := (m (a + 3)).isLt
  apply BitVec.eq_of_toNat_eq
  rw [BitVec.toNat_and, BitVec.toNat_ofNat, BitVec.toNat_ofNat, BitVec.toNat_ofNat]
  change readWord m a % 2 ^ 32 &&& (2 ^ 24 - 1) % 2 ^ 32 = _
  rw [Nat.mod_eq_of_lt (show 2 ^ 24 - 1 < 2 ^ 32 by decide), Nat.and_two_pow_sub_one_eq_mod]
  unfold readWord
  omega

theorem bmp_color_eq (h : BmpFile m size) :
    bmpColor m i = if bmpPixelSize m * i < 2 ^ 31 ∧ i + 1 < 2 ^ 31 then
      some (some (codeReads m i, codeColor m i)) else none := by
  have hcount := h.count
  unfold bmpColor codeReads codeColor colorAt nextIndex bmpPixelSize
  generalize bmpCount m = count at hcount
  rcases hcount with rfl | rfl | rfl
  · simp
  · simp [low_three_bytes]
  · have hall : ∀ c : BitVec 32, c &&& 0xffffffff#32 = c := fun c => BitVec.and_allOnes
    simp [hall]

theorem bmp_color_fits (h : BmpFile m size) (hfits : IndexFits m i) :
    bmpColor m i = some (some (codeReads m i, codeColor m i)) :=
  (bmp_color_eq h).trans (if_pos hfits)

theorem bmp_color_overflow (h : BmpFile m size) (hfits : ¬ IndexFits m i) : bmpColor m i = none :=
  (bmp_color_eq h).trans (if_neg hfits)

/-! ### The loops -/

/-- The stroke for the pixel with index `i` at `(x, y)`. -/
def codeStroke (m : Bytes) (paint : BitVec 32 → BitVec 32) (X Y : BitVec 32) (y x i : Nat) :
    Stroke :=
  ⟨codeReads m i, X + BitVec.ofNat 32 x, Y + BitVec.ofNat 32 y, paint (codeColor m i)⟩

theorem bmp_columns_eq (h : BmpFile m size) (hfits : ∀ k < left, IndexFits m (i + k)) :
    bmpColumns m paint X Y y left x i = some (false, i + left,
      (List.range left).map fun k => codeStroke m paint X Y y (x + k) (i + k)) := by
  induction left generalizing x i with
  | zero => rfl
  | succ left ih =>
      have hrest : ∀ k < left, IndexFits m (i + 1 + k) := fun k hk => by
        have := hfits (k + 1) (Nat.succ_lt_succ hk)
        rwa [show i + (k + 1) = i + 1 + k by omega] at this
      rw [bmpColumns, bmp_color_fits h (show IndexFits m i from hfits 0 (Nat.succ_pos left))]
      simp only [Option.bind_eq_bind]
      rw [ih hrest, Option.bind_some, List.range_succ_eq_map, List.map_cons, List.map_map]
      refine congrArg some (Prod.ext rfl (Prod.ext (by dsimp only; omega) ?_))
      refine congrArg₂ List.cons rfl (List.map_congr_left fun k _ => ?_)
      dsimp only [Function.comp_apply]
      rw [show x + 1 + k = x + (k + 1) by omega, show i + 1 + k = i + (k + 1) by omega]

/-- An index that overflows in a row. -/
theorem bmp_columns_overflow (h : BmpFile m size) (hk : k < left)
    (hfits : ¬ IndexFits m (i + k)) : bmpColumns m paint X Y y left x i = none := by
  induction left generalizing x i k with
  | zero => exact absurd hk (Nat.not_lt_zero k)
  | succ left ih =>
      rw [bmpColumns]
      by_cases hfirst : IndexFits m i
      · rw [bmp_color_fits h hfirst]
        cases k with
        | zero => exact absurd hfirst hfits
        | succ k =>
            rw [show i + (k + 1) = i + 1 + k by omega] at hfits
            simp only [Option.bind_eq_bind]
            rw [ih (Nat.lt_of_succ_lt_succ hk) hfits, Option.bind_none]
      · rw [bmp_color_overflow h hfirst]

/-- The strokes of `height` rows from the index `i` on. -/
def codeStrokes (m : Bytes) (paint : BitVec 32 → BitVec 32) (X Y : BitVec 32) (height i : Nat) :
    List Stroke :=
  (List.range height).flatMap fun r => (List.range (bmpWidth m)).map fun x =>
    codeStroke m paint X Y (height - r) x (i + r * bmpWidth m + x)

theorem bmp_rows_eq (h : BmpFile m size)
    (hfits : ∀ k < y * bmpWidth m, IndexFits m (i + k)) :
    bmpRows m paint X Y y i = some (0, codeStrokes m paint X Y y i) := by
  induction y generalizing i with
  | zero => rfl
  | succ y ih =>
      rw [Nat.succ_mul] at hfits
      have hrest : ∀ k < y * bmpWidth m, IndexFits m (i + bmpWidth m + k) := fun k hk => by
        have := hfits (bmpWidth m + k) (by omega)
        rwa [← Nat.add_assoc] at this
      rw [bmpRows, bmp_columns_eq h fun k hk => hfits k (by omega)]
      simp only [Option.bind_eq_bind, Option.bind_some, Bool.false_eq_true, if_false]
      rw [ih hrest, Option.bind_some, codeStrokes, codeStrokes, List.range_succ_eq_map,
        List.flatMap_cons, List.flatMap_map]
      refine congrArg some (Prod.ext rfl (congrArg₂ (· ++ ·) ?_ ?_))
      · refine List.map_congr_left fun x _ => ?_
        rw [Nat.zero_add, Nat.zero_mul, Nat.sub_zero]
        rfl
      · refine List.flatMap_congr fun r _ => List.map_congr_left fun x _ => ?_
        rw [Nat.succ_mul, Nat.succ_sub_succ, show i + bmpWidth m + r * bmpWidth m + x =
          i + (r * bmpWidth m + bmpWidth m) + x by omega]

/-- An index that overflows. -/
theorem bmp_rows_overflow (h : BmpFile m size) (hk : k < y * bmpWidth m)
    (hfits : ¬ IndexFits m (i + k)) : bmpRows m paint X Y y i = none := by
  induction y generalizing i k with
  | zero => exact absurd hk (by rw [Nat.zero_mul]; exact Nat.not_lt_zero k)
  | succ y ih =>
      rw [bmpRows]
      by_cases hrow : ∀ j < bmpWidth m, IndexFits m (i + j)
      · rw [bmp_columns_eq h hrow]
        simp only [Option.bind_eq_bind, Option.bind_some, Bool.false_eq_true, if_false]
        have hbehind : bmpWidth m ≤ k := by
          by_contra hlt
          exact hfits (hrow k (Nat.not_le.mp hlt))
        rw [Nat.succ_mul] at hk
        rw [show i + k = i + bmpWidth m + (k - bmpWidth m) by omega] at hfits
        rw [ih (k := k - bmpWidth m) (by omega) hfits, Option.bind_none]
      · obtain ⟨j, hj⟩ := not_forall.mp hrow
        obtain ⟨hj, hoverflow⟩ := Classical.not_imp.mp hj
        rw [bmp_columns_overflow h hj hoverflow]
        rfl

/-- Two tables with the same rows and columns are equal when their entries are. -/
theorem table_eq_iff {α : Type} {f g : Nat → Nat → α} {height width : Nat} :
    ((List.range height).flatMap fun r => (List.range width).map (f r)) =
        ((List.range height).flatMap fun r => (List.range width).map (g r)) ↔
      ∀ r < height, ∀ x < width, f r x = g r x := by
  constructor
  · intro heq
    induction height with
    | zero => exact fun r hr => absurd hr (Nat.not_lt_zero r)
    | succ height ih =>
        rw [List.range_succ, List.flatMap_append, List.flatMap_append, List.flatMap_singleton,
          List.flatMap_singleton] at heq
        obtain ⟨hfront, hlast⟩ := List.append_inj' heq (by simp)
        intro r hr x hx
        rcases Nat.lt_succ_iff_lt_or_eq.mp hr with hr | rfl
        · exact ih hfront r hr x hx
        · exact List.map_inj_left.mp hlast x (List.mem_range.mpr hx)
  · intro hall
    exact List.flatMap_congr fun r hr => List.map_congr_left fun x hx =>
      hall r (List.mem_range.mp hr) x (List.mem_range.mp hx)

/-! ### The picture -/

theorem row_size_ge (m : Bytes) : bmpWidth m * bmpPixelSize m ≤ bmpRowSize m := by
  unfold bmpRowSize
  omega

/-- The bytes of a pixel by its index are among the pixels of the file. -/
theorem pixel_inside (h : BmpFile m size) (hk : k < bmpHeight m * bmpWidth m) :
    bmpOffsetBits m + bmpPixelSize m * k + bmpPixelSize m ≤ size := by
  have hbytes : bmpPixelSize m * (k + 1) ≤ bmpRowSize m * bmpHeight m :=
    calc bmpPixelSize m * (k + 1) ≤ bmpPixelSize m * (bmpHeight m * bmpWidth m) :=
          Nat.mul_le_mul_left _ hk
      _ = bmpWidth m * bmpPixelSize m * bmpHeight m := by ring
      _ ≤ bmpRowSize m * bmpHeight m := Nat.mul_le_mul_right _ (row_size_ge m)
  have := h.pixels
  rw [Nat.mul_succ] at hbytes
  omega

/-- The reads for a pixel are in the file. -/
theorem code_reads_iff (h : BmpFile m size) (hk : k < bmpHeight m * bmpWidth m) :
    (∀ a ∈ codeReads m k, a.1 + a.2 ≤ size) ↔
      (bmpCount m = 24 → bmpOffsetBits m + 3 * (k + 1) < size) ∧
      (bmpCount m = 8 → 54 + 4 * (m (bmpOffsetBits m + k)).toNat + 4 ≤ size) := by
  have hinside := pixel_inside h hk
  have hcount := h.count
  unfold codeReads bmpPixelSize at *
  generalize bmpCount m = count at *
  rcases hcount with rfl | rfl | rfl
  · simp only [Nat.reduceDiv, Nat.one_mul] at *
    simp
    omega
  · simp only [Nat.reduceDiv] at *
    simp
    omega
  · simp only [Nat.reduceDiv] at *
    simp
    omega

/-- A condition on all pixels, by their index. -/
theorem forall_index_iff {p : Nat → Prop} {height width : Nat} (hwidth : 0 < width) :
    (∀ r < height, ∀ x < width, p (r * width + x)) ↔ ∀ k < height * width, p k := by
  constructor
  · intro h k hk
    have hrow := h (k / width) (Nat.div_lt_of_lt_mul (by rwa [Nat.mul_comm])) (k % width)
      (Nat.mod_lt k hwidth)
    rwa [Nat.div_add_mod'] at hrow
  · intro h r hr x hx
    refine h _ ?_
    calc r * width + x < r * width + width := Nat.add_lt_add_left hx _
      _ = (r + 1) * width := (Nat.succ_mul r width).symm
      _ ≤ height * width := Nat.mul_le_mul_right width hr

/-- The indices stay in an `int` exactly when the last one does. -/
theorem index_fits_iff (h : BmpFile m size) :
    (∀ k < bmpHeight m * bmpWidth m, IndexFits m k) ↔ bmpHeight m * bmpWidth m < 2 ^ 31 ∧
      bmpPixelSize m * (bmpHeight m * bmpWidth m - 1) < 2 ^ 31 := by
  have hpos : 0 < bmpHeight m * bmpWidth m := Nat.mul_pos h.height.1 h.width.1
  constructor
  · intro hall
    obtain ⟨hbytes, hindex⟩ := hall (bmpHeight m * bmpWidth m - 1) (by omega)
    exact ⟨by omega, hbytes⟩
  · rintro ⟨hindex, hbytes⟩ k hk
    exact ⟨(Nat.mul_le_mul_left _ (by omega)).trans_lt hbytes, by omega⟩

/-- The reads for all pixels are in the file. -/
theorem reads_iff (h : BmpFile m size) :
    (∀ k < bmpHeight m * bmpWidth m, ∀ a ∈ codeReads m k, a.1 + a.2 ≤ size) ↔
      (bmpCount m = 24 → bmpOffsetBits m + 3 * (bmpHeight m * bmpWidth m) < size) ∧
      (bmpCount m = 8 → ∀ k < bmpHeight m * bmpWidth m,
        54 + 4 * (m (bmpOffsetBits m + k)).toNat + 4 ≤ size) := by
  have hpos : 0 < bmpHeight m * bmpWidth m := Nat.mul_pos h.height.1 h.width.1
  constructor
  · intro hall
    refine ⟨fun hcount => ?_, fun hcount k hk => ((code_reads_iff h hk).mp (hall k hk)).2 hcount⟩
    have hlast := ((code_reads_iff h (Nat.sub_one_lt_of_lt hpos)).mp
      (hall _ (Nat.sub_one_lt_of_lt hpos))).1 hcount
    rwa [Nat.sub_add_cancel hpos] at hlast
  · rintro ⟨hbehind, hpalette⟩ k hk
    refine (code_reads_iff h hk).mpr ⟨fun hcount => ?_, fun hcount => hpalette hcount k hk⟩
    have := hbehind hcount
    omega

theorem draw_bitmap_eq (h : BmpFile m size) :
    drawBitmap m paint X Y = bmpRows m paint X Y (bmpHeight m) 0 := by
  rw [drawBitmap, if_neg (not_not.mpr h.type), if_pos h.height.2]

/-- The strokes draw the picture when the pixels look the same without the padding. -/
theorem code_strokes_picture_iff :
    (codeStrokes m paint X Y (bmpHeight m) 0).map (fun s => (s.x, s.y, s.color)) =
      picture m paint X Y ↔ LooksUnpadded m paint := by
  have hmap : (codeStrokes m paint X Y (bmpHeight m) 0).map (fun s => (s.x, s.y, s.color)) =
      (List.range (bmpHeight m)).flatMap fun r => (List.range (bmpWidth m)).map fun x =>
        (X + BitVec.ofNat 32 x, Y + BitVec.ofNat 32 (bmpHeight m - r),
          paint (codeColor m (0 + r * bmpWidth m + x))) := by
    rw [codeStrokes, List.map_flatMap]
    refine List.flatMap_congr fun r _ => ?_
    rw [List.map_map]
    rfl
  rw [hmap, picture, table_eq_iff, LooksUnpadded]
  refine forall₂_congr fun r _ => forall₂_congr fun x _ => ?_
  rw [Nat.zero_add]
  exact ⟨fun heq => congrArg (fun p => p.2.2) heq, fun heq => by rw [← heq]; rfl⟩

/-- The two functions draw the file exactly when it can be read and looks the same without its
padding. -/
theorem draw_bitmap_iff (h : BmpFile m size) :
    DrawsFile m size paint X Y (drawBitmap m paint X Y) ↔
      BmpReadable m size ∧ LooksUnpadded m paint := by
  have hreads : (∀ s ∈ codeStrokes m paint X Y (bmpHeight m) 0,
      ∀ a ∈ s.reads, a.1 + a.2 ≤ size) ↔
      ∀ k < bmpHeight m * bmpWidth m, ∀ a ∈ codeReads m k, a.1 + a.2 ≤ size := by
    rw [← forall_index_iff h.width.1]
    simp only [codeStrokes, List.mem_flatMap, List.mem_map, List.mem_range]
    constructor
    · intro hall r hr x hx
      exact (Nat.zero_add (r * bmpWidth m)) ▸ hall _ ⟨r, hr, x, hx, rfl⟩
    · rintro hall _ ⟨r, hr, x, hx, rfl⟩
      exact (Nat.zero_add (r * bmpWidth m)).symm ▸ hall r hr x hx
  rw [draw_bitmap_eq h]
  constructor
  · rintro ⟨strokes, hresult, hinside, hpicture⟩
    have hfits : ∀ k < bmpHeight m * bmpWidth m, IndexFits m k := by
      intro k hk
      by_contra hoverflow
      rw [← Nat.zero_add k] at hoverflow
      rw [bmp_rows_overflow h hk hoverflow] at hresult
      cases hresult
    cases (bmp_rows_eq h fun k hk => (Nat.zero_add k).symm ▸ hfits k hk).symm.trans hresult
    obtain ⟨hbehind, hpalette⟩ := (reads_iff h).mp (hreads.mp hinside)
    exact ⟨⟨(index_fits_iff h).mp hfits, hbehind, hpalette⟩,
      code_strokes_picture_iff.mp hpicture⟩
  · rintro ⟨⟨hindex, hbehind, hpalette⟩, hlooks⟩
    have hfits := (index_fits_iff h).mpr hindex
    exact ⟨_, bmp_rows_eq h fun k hk => (Nat.zero_add k).symm ▸ hfits k hk,
      hreads.mpr ((reads_iff h).mpr ⟨hbehind, hpalette⟩), code_strokes_picture_iff.mpr hlooks⟩

/-- Rows without padding look so, as does a single row, when the header has 40 bytes. -/
theorem looks_unpadded (hinfo : bmpInfoSize m = 40)
    (hrows : bmpWidth m * bmpPixelSize m % 4 = 0 ∨ bmpHeight m = 1) : LooksUnpadded m paint := by
  intro r hr x _
  have hplace : bmpOffsetBits m + bmpPixelSize m * (r * bmpWidth m + x) =
      bmpOffsetBits m + r * bmpRowSize m + bmpPixelSize m * x := by
    rcases hrows with hpadding | hone
    · have hsize : bmpRowSize m = bmpWidth m * bmpPixelSize m := by
        unfold bmpRowSize
        omega
      rw [hsize]
      ring
    · have hzero : r = 0 := by omega
      rw [hzero]
      ring
  rw [fileColor, hinfo, hplace]

/-- A small file with a header of 40 bytes and no palette. -/
def bmpBytes (size width height count : Byte) (pixels : List Byte) : Bytes := fun i =>
  ([0x42#8, 0x4d#8, size, 0#8, 0#8, 0#8, 0#8, 0#8, 0#8, 0#8, 54#8, 0#8, 0#8, 0#8,
    40#8, 0#8, 0#8, 0#8, width, 0#8, 0#8, 0#8, height, 0#8, 0#8, 0#8, 1#8, 0#8, count] ++
    List.replicate 25 0#8 ++ pixels).getD i 0#8

end Sirius.Gui
