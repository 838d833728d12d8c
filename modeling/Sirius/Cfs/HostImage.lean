import Sirius.Cfs.HostTool

/-!
# The layout of an image

The host tool puts the allocation table at byte 1024, block `b` at `1024 + 8192 * b`, and the root
directory into the block behind the table. Here are the addresses that the functions of the tool
compute, and what each of its writes does to the image.
-/

namespace Sirius.Cfs.Host

open Library

/-- The super block of an image below 4 GiB: the allocation table ends before the root
directory. -/
structure Layout (f : SuperBlock) : Prop where
  hidden : f.hidden = 0
  rsv : f.rsv = 2
  bytePerSector : f.bytePerSector = 512
  sectorPerBlk : f.sectorPerBlk = 16
  table : 4 * f.numOfBlk ≤ 8192 * f.rootBlk
  root : f.rootBlk ≤ f.numOfBlk
  small : 1024 + 8192 * (f.numOfBlk + 1) < 2 ^ 32

variable {f : SuperBlock} {bytes bytes' : Bytes} {fd : HostFile} {b i k : Nat}

theorem Layout.formatted (h : Layout f) : Formatted f where
  bytePerSector := h.bytePerSector
  sectorPerBlk := h.sectorPerBlk
  dataSector := by
    rw [h.hidden, h.rsv]
  sectors := by
    have hsmall := h.small
    rw [h.hidden, h.rsv]
    omega

theorem Layout.data_sector (h : Layout f) : f.dataSector = 2 := by
  rw [h.formatted.data_sector, h.hidden, h.rsv]

/-- Where the entry of a block is in the image. -/
theorem Layout.fat_eq (h : Layout f) : fat bytes f b = readWord bytes (1024 + 4 * b) := by
  rw [fat, h.data_sector]

/-- Where the data of a block is in the image. -/
theorem Layout.block_address (h : Layout f) (hb : b ≤ f.numOfBlk) :
    f.firstSector b * 512 = 1024 + 8192 * b := by
  have hsmall := h.small
  rw [SuperBlock.firstSector, h.sectorPerBlk, h.data_sector, Nat.mod_eq_of_lt (by omega)]
  omega

/-- `copy` computes the same address. -/
theorem Layout.data_offset (h : Layout f) (hb : b ≤ f.numOfBlk) :
    dataOffset f b = 1024 + 8192 * b := by
  have hsmall := h.small
  rw [dataOffset, h.rsv, h.sectorPerBlk, h.bytePerSector,
    Nat.mod_eq_of_lt (a := 2 + b * 16) (by omega), Nat.mod_eq_of_lt (by omega)]
  omega

/-- The address of entry `i` of the root directory. -/
def entryAddr (f : SuperBlock) (i : Nat) : Nat := 1024 + 8192 * f.rootBlk + 128 * i

theorem Layout.entry_offset (h : Layout f) (hi : i < 64) : entryOffset f i = entryAddr f i := by
  have hsmall := h.small
  have hroot := h.root
  rw [entryOffset, rootSector, h.rsv, h.sectorPerBlk, h.bytePerSector,
    Nat.mod_eq_of_lt (a := 2 + f.rootBlk * 16) (by omega), Nat.mod_eq_of_lt (by omega), entryAddr]
  omega

/-! ### Reading and writing the image -/

/-- `fwrite` of an `unsigned` variable. -/
theorem copy_word_bytes (m : Bytes) (a v : Nat) :
    copyBytes m a (wordBytes v) 0 4 = writeWord m a v := by
  funext i
  unfold copyBytes writeWord
  by_cases hi : a ≤ i ∧ i < a + 4
  · rw [if_pos hi, if_pos hi, wordBytes, writeWord, if_pos (by omega), Nat.zero_add, Nat.sub_zero]
  · rw [if_neg hi, if_neg hi]

/-- `fwrite` of a word inside the image. -/
theorem fwrite_word (v : Nat) (h : fd.pos + 4 ≤ fd.len) :
    fd.fwrite (wordBytes v) 4 =
      { bytes := writeWord fd.bytes fd.pos v, len := fd.len, pos := fd.pos + 4 } := by
  rw [HostFile.fwrite, copy_word_bytes, Nat.max_eq_left h]

/-- `fread` of a word inside the image. -/
theorem fread_word (fd : HostFile) (blk : Bytes) (h : fd.pos + 4 ≤ fd.len) :
    readWord (fd.fread blk 4).1 0 = readWord fd.bytes fd.pos ∧
      (fd.fread blk 4).2 = { fd with pos := fd.pos + 4 } := by
  have hread : min 4 (fd.len - fd.pos) = 4 := by omega
  rw [HostFile.fread, hread]
  refine ⟨read_word_congr fun k hk => ?_, rfl⟩
  exact copy_bytes_inside hk

/-- `b` is the first free block. -/
structure FirstFree (bytes : Bytes) (f : SuperBlock) (b : Nat) : Prop where
  range : b < f.numOfBlk
  free : fat bytes f b = 0
  first : ∀ c < b, fat bytes f c ≠ 0

theorem FirstFree.unique {c : Nat} (h : FirstFree bytes f b) (h' : FirstFree bytes f c) :
    b = c := by
  by_contra hne
  cases Nat.lt_or_gt_of_ne hne with
  | inl hlt => exact h'.first b hlt h.free
  | inr hlt => exact h.first c hlt h'.free

/-- One round of the loop of `search_blk_null`. -/
theorem search_loop_succ (hf : Layout f) {len n index : Nat} (blk : Bytes)
    (hlen : 1024 + 4 * f.numOfBlk ≤ len) (hindex : index < f.numOfBlk) :
    ∃ blk', searchLoop (n + 1) index (1024 + 4 * index) blk ⟨bytes, len, 1024 + 4 * index⟩ =
      if fat bytes f index = 0 then
        (index, ⟨writeWord bytes (1024 + 4 * index) endMark, len, 0⟩)
      else searchLoop n (index + 1) (1024 + 4 * (index + 1)) blk'
        ⟨bytes, len, 1024 + 4 * (index + 1)⟩ := by
  have hsmall := hf.small
  have hin : 1024 + 4 * index + 4 ≤ len := by omega
  have hnext : 1024 + 4 * index + 4 = 1024 + 4 * (index + 1) := by omega
  obtain ⟨hread, hfd⟩ := fread_word ⟨bytes, len, 1024 + 4 * index⟩ blk hin
  have hentry : readWord (HostFile.fread ⟨bytes, len, 1024 + 4 * index⟩ blk 4).1 0 =
      fat bytes f index := by
    rw [hread, hf.fat_eq]
  refine ⟨(HostFile.fread ⟨bytes, len, 1024 + 4 * index⟩ blk 4).1, ?_⟩
  rw [searchLoop]
  simp only [hentry]
  rw [hfd, HostFile.fseek, fwrite_word _ hin, Nat.mod_eq_of_lt (by omega), hnext]
  rfl

/-- The loop of `search_blk_null` marks the first free block. The induction is on the entries that
are left. -/
theorem search_loop_spec (hf : Layout f) (hfree : FirstFree bytes f b) {len : Nat}
    (hlen : 1024 + 4 * f.numOfBlk ≤ len) (n : Nat) : ∀ (index : Nat) (blk : Bytes),
    index + n = f.numOfBlk → index ≤ b →
    searchLoop n index (1024 + 4 * index) blk ⟨bytes, len, 1024 + 4 * index⟩ =
      (b, ⟨writeWord bytes (1024 + 4 * b) endMark, len, 0⟩) := by
  have hrange := hfree.range
  induction n with
  | zero =>
      intro index blk hn hle
      omega
  | succ n ih =>
      intro index blk hn hle
      obtain ⟨blk', hround⟩ := search_loop_succ hf blk hlen (show index < f.numOfBlk by omega)
      rw [hround]
      by_cases hzero : fat bytes f index = 0
      · -- the entry is free, so it is the first free one
        have hb : index = b := by
          by_contra hne
          exact hfree.first index (by omega) hzero
        rw [if_pos hzero, hb]
      · have hne : index ≠ b := fun heq => hzero (heq ▸ hfree.free)
        rw [if_neg hzero]
        exact ih (index + 1) blk' (by omega) (by omega)

/-- `search_blk_null` marks the first free block as a chain of its own. -/
theorem search_blk_null_spec (hf : Layout f) (hfree : FirstFree fd.bytes f b)
    (hlen : 1024 + 4 * f.numOfBlk ≤ fd.len) :
    searchBlkNull fd f =
      (b, ⟨writeWord fd.bytes (1024 + 4 * b) endMark, fd.len, 0⟩) := by
  have hloop := search_loop_spec hf hfree hlen f.numOfBlk 0 (fun _ => 0#8) (by omega) (by omega)
  rw [searchBlkNull, hf.rsv, hf.bytePerSector]
  exact hloop

/-- Without a free block the loop returns -1. -/
theorem search_loop_none (hf : Layout f) {len : Nat} (hlen : 1024 + 4 * f.numOfBlk ≤ len)
    (n : Nat) : ∀ (index : Nat) (blk : Bytes), index + n = f.numOfBlk →
    (∀ c, index ≤ c → c < index + n → fat bytes f c ≠ 0) →
    searchLoop n index (1024 + 4 * index) blk ⟨bytes, len, 1024 + 4 * index⟩ =
      (endMark, ⟨bytes, len, 0⟩) := by
  induction n with
  | zero => exact fun _ _ _ _ => rfl
  | succ n ih =>
      intro index blk hn hused
      obtain ⟨blk', hround⟩ := search_loop_succ hf blk hlen (show index < f.numOfBlk by omega)
      rw [hround, if_neg (hused index (le_refl index) (by omega))]
      exact ih (index + 1) blk' (by omega) fun c hc hlt => hused c (by omega) (by omega)

/-- `search_blk_null` marks the first free block, or returns -1 when there is none. -/
theorem search_blk_null_cases (hf : Layout f) (hlen : 1024 + 4 * f.numOfBlk ≤ fd.len) :
    (∃ b, FirstFree fd.bytes f b ∧ searchBlkNull fd f =
      (b, ⟨writeWord fd.bytes (1024 + 4 * b) endMark, fd.len, 0⟩)) ∨
    searchBlkNull fd f = (endMark, ⟨fd.bytes, fd.len, 0⟩) := by
  by_cases h : ∃ b, b < f.numOfBlk ∧ fat fd.bytes f b = 0
  · have hfirst : FirstFree fd.bytes f (Nat.find h) :=
      ⟨(Nat.find_spec h).1, (Nat.find_spec h).2, fun c hc hzero =>
        Nat.find_min h hc ⟨hc.trans (Nat.find_spec h).1, hzero⟩⟩
    exact .inl ⟨_, hfirst, search_blk_null_spec hf hfirst hlen⟩
  · have hloop := search_loop_none hf hlen f.numOfBlk 0 (fun _ => 0#8) (by omega)
      fun c _ hc hzero => h ⟨c, by omega, hzero⟩
    rw [searchBlkNull, hf.rsv, hf.bytePerSector]
    exact .inr hloop

/-- `write_blk` links a block to another one. -/
theorem write_blk_spec (fd : HostFile) (hf : Layout f) (hb : b < f.numOfBlk) (newBlk : Nat)
    (hlen : 1024 + 4 * f.numOfBlk ≤ fd.len) :
    writeBlk newBlk b fd f = ⟨writeWord fd.bytes (1024 + 4 * b) newBlk, fd.len, 0⟩ := by
  have hsmall := hf.small
  have hoff : (f.rsv * f.bytePerSector + 4 * b) % 2 ^ 32 = 1024 + 4 * b := by
    rw [hf.rsv, hf.bytePerSector, Nat.mod_eq_of_lt (by omega)]
  rw [writeBlk]
  simp only [hoff]
  rw [HostFile.fseek, fwrite_word _ (show 1024 + 4 * b + 4 ≤ fd.len by omega)]
  rfl

/-- `fputc` stores one byte. -/
theorem fputc_spec (fd : HostFile) (c : Byte) :
    (fd.fputc c).bytes = Function.update fd.bytes fd.pos c ∧
      (fd.fputc c).pos = fd.pos + 1 ∧ fd.len ≤ (fd.fputc c).len := by
  refine ⟨funext fun i => ?_, rfl, Nat.le_max_left _ _⟩
  show copyBytes fd.bytes fd.pos (fun _ => c) 0 1 i = _
  by_cases hi : i = fd.pos
  · rw [hi, Function.update_self, copyBytes, if_pos (by omega)]
  · rw [Function.update_of_ne hi]
    exact copy_bytes_outside (by omega)

/-- Entry `k` is the first entry of the root directory that is not busy. -/
structure FirstEntry (bytes : Bytes) (f : SuperBlock) (k : Nat) : Prop where
  range : k < 64
  free : busy bytes (entryAddr f k) = 0#8
  first : ∀ i < k, busy bytes (entryAddr f i) ≠ 0#8

/-- The loop of `create_file` stops at the first free entry and leaves the image alone. -/
theorem entry_loop_spec (hf : Layout f) (hfirst : FirstEntry bytes f k) {len : Nat}
    (hlen : entryAddr f 64 ≤ len) (n : Nat) : ∀ (index pos : Nat) (dir2 : Bytes),
    index + n = 64 → index ≤ k →
    ∃ pos', entryLoop f n index dir2 ⟨bytes, len, pos⟩ = (k, ⟨bytes, len, pos'⟩) := by
  have hrange := hfirst.range
  induction n with
  | zero =>
      intro index pos dir2 hn hle
      omega
  | succ n ih =>
      intro index pos dir2 hn hle
      have hread : min 128 (len - entryAddr f index) = 128 := by
        unfold entryAddr at hlen ⊢
        omega
      have hbusy : busy (copyBytes dir2 0 bytes (entryAddr f index) 128) 0 =
          busy bytes (entryAddr f index) := by
        have hcopy : copyBytes dir2 0 bytes (entryAddr f index) 128 (0 + 97) =
            bytes (entryAddr f index + 97) := copy_bytes_inside (by omega)
        exact hcopy
      rw [entryLoop, HostFile.fseek, hf.entry_offset (by omega), HostFile.fread]
      simp only [hread, hbusy]
      by_cases hfree : busy bytes (entryAddr f index) = 0#8
      · have hk : index = k := by
          by_contra hne
          exact hfirst.first index (by omega) hfree
        rw [if_pos hfree, hk]
        exact ⟨_, rfl⟩
      · have hne : index ≠ k := fun heq => hfree (heq ▸ hfirst.free)
        rw [if_neg hfree]
        exact ih (index + 1) _ _ (by omega) (by omega)

/-- When all entries are busy the loop stops behind the last one. -/
theorem entry_loop_full (hf : Layout f) (hfull : ∀ i < 64, busy bytes (entryAddr f i) ≠ 0#8)
    {len : Nat} (hlen : entryAddr f 64 ≤ len) (n : Nat) : ∀ (index pos : Nat) (dir2 : Bytes),
    index + n = 64 →
    ∃ pos', entryLoop f n index dir2 ⟨bytes, len, pos⟩ = (64, ⟨bytes, len, pos'⟩) := by
  induction n with
  | zero =>
      intro index pos dir2 hn
      obtain rfl : index = 64 := by omega
      exact ⟨pos, rfl⟩
  | succ n ih =>
      intro index pos dir2 hn
      have hread : min 128 (len - entryAddr f index) = 128 := by
        unfold entryAddr at hlen ⊢
        omega
      have hbusy : busy (copyBytes dir2 0 bytes (entryAddr f index) 128) 0 ≠ 0#8 := by
        have hcopy : copyBytes dir2 0 bytes (entryAddr f index) 128 (0 + 97) =
            bytes (entryAddr f index + 97) := copy_bytes_inside (by omega)
        exact fun hzero => hfull index (by omega) (hcopy.symm.trans hzero)
      rw [entryLoop, HostFile.fseek, hf.entry_offset (by omega), HostFile.fread]
      simp only [hread, if_neg hbusy]
      exact ih (index + 1) _ _ (by omega)

end Sirius.Cfs.Host
