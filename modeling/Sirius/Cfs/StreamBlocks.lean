import Sirius.Cfs.Stream

/-!
# The blocks of an open file

A placed stream has its blocks apart from each other, from the super block and from its directory
block. Writing one block, or flushing the stream, then changes no other byte of the file.
-/

namespace Sirius.Cfs

open Library Stdio

/-! ### The file on the disk -/

/-- The address of byte `j` of the file of a stream. -/
def byteAddr (fp : File) (j : Nat) : Nat := fp.blocks (j / 8192) * 512 + j % 8192

/-- The flags of a stream that was opened with `r+`. -/
def streamFlags (loaded written : Bool) : BitVec 32 :=
  0x6#32 ||| (if loaded then 0x10#32 else 0#32) ||| (if written then 0x80#32 else 0#32)

/-- The first sector of the directory block that `update_directory_entry` rewrites. -/
def dirSector (fp : File) (disk : Disk) : Nat :=
  (superBlockAt disk.bytes 512).firstSector fp.dirCluster

/-- The sectors of two blocks do not overlap. -/
def Apart (a b : Nat) : Prop := a + 16 ≤ b ∨ b + 16 ≤ a

/-- A stream whose blocks are apart from each other, from the directory block and from the super
block, on a disk without faults. -/
structure Placed (fp : File) (disk : Disk) : Prop where
  ok : disk.fails = []
  bsize : fp.bsize = 8192
  count : fp.count = 16
  mode : fp.mode = 2
  size : fp.fsize ≤ fp.numOfBlocks * 8192
  small : fp.fsize < 2 ^ 32
  apart : ∀ a b, a < fp.numOfBlocks → b < fp.numOfBlocks → a ≠ b →
    Apart (fp.blocks a) (fp.blocks b)
  above : ∀ a < fp.numOfBlocks, 2 ≤ fp.blocks a
  geometry : (superBlockAt disk.bytes 512).sectorPerBlk = 16
  directory : ∀ a < fp.numOfBlocks, Apart (fp.blocks a) (dirSector fp disk)
  dirAbove : 2 ≤ dirSector fp disk

variable {fp fp' : File} {disk disk' : Disk} {j k : Nat}

/-- The fields that no operation on the file changes. -/
structure SameFile (fp fp' : File) : Prop where
  bsize : fp'.bsize = fp.bsize
  count : fp'.count = fp.count
  mode : fp'.mode = fp.mode
  fsize : fp'.fsize = fp.fsize
  numOfBlocks : fp'.numOfBlocks = fp.numOfBlocks
  blocks : fp'.blocks = fp.blocks
  dirCluster : fp'.dirCluster = fp.dirCluster

/-- The disks have the same super block and no faults. -/
structure SameSuper (disk disk' : Disk) : Prop where
  ok : disk'.fails = disk.fails
  bytes : ∀ i, 512 ≤ i → i < 1024 → disk'.bytes i = disk.bytes i

theorem SameSuper.refl : SameSuper disk disk := ⟨rfl, fun _ _ _ => rfl⟩

theorem SameSuper.trans {disk'' : Disk} (h : SameSuper disk disk') (h' : SameSuper disk' disk'') :
    SameSuper disk disk'' :=
  ⟨h'.ok.trans h.ok, fun i hi hlt => (h'.bytes i hi hlt).trans (h.bytes i hi hlt)⟩

theorem SameSuper.super_block (h : SameSuper disk disk') :
    superBlockAt disk'.bytes 512 = superBlockAt disk.bytes 512 :=
  super_block_congr fun _ _ => h.bytes _ (by omega) (by omega)

/-- A stream stays placed while the fields and the super block stay. -/
theorem Placed.frame (h : Placed fp disk) (hfile : SameFile fp fp') (hdisk : SameSuper disk disk') :
    Placed fp' disk' := by
  have hsector : dirSector fp' disk' = dirSector fp disk := by
    rw [dirSector, hdisk.super_block, hfile.dirCluster]
    rfl
  refine ⟨hdisk.ok.trans h.ok, hfile.bsize.trans h.bsize, hfile.count.trans h.count,
    hfile.mode.trans h.mode, ?_, ?_, ?_, ?_, ?_, ?_, ?_⟩
  · rw [hfile.fsize, hfile.numOfBlocks]
    exact h.size
  · rw [hfile.fsize]
    exact h.small
  · rw [hfile.numOfBlocks, hfile.blocks]
    exact h.apart
  · rw [hfile.numOfBlocks, hfile.blocks]
    exact h.above
  · rw [hdisk.super_block]
    exact h.geometry
  · rw [hfile.numOfBlocks, hfile.blocks, hsector]
    exact h.directory
  · rw [hsector]
    exact h.dirAbove

theorem Placed.block_lt (h : Placed fp disk) (hj : j < fp.fsize) : j / 8192 < fp.numOfBlocks := by
  have hsize := h.size
  omega

/-! ### What the disk operations change -/

/-- Block `k` of the file is written from the buffer; the other bytes of the file and the super
block stay. -/
structure WritesBlock (fp : File) (disk : Disk) (k : Nat) (disk' : Disk) : Prop where
  super : SameSuper disk disk'
  inside : ∀ j < fp.fsize, j / 8192 = k → disk'.bytes (byteAddr fp j) = fp.buffer (j % 8192)
  outside : ∀ j < fp.fsize, j / 8192 ≠ k →
    disk'.bytes (byteAddr fp j) = disk.bytes (byteAddr fp j)

/-- The bytes of the blocks after `file_write_block`. -/
theorem file_write_block_at (h : Placed fp disk) {a b r : Nat} (ha : a < fp.numOfBlocks)
    (hr : r < 8192) : (fileWriteBlock fp b disk).2.bytes (fp.blocks a * 512 + r) =
      if a = b then fp.buffer r else disk.bytes (fp.blocks a * 512 + r) := by
  unfold fileWriteBlock
  by_cases hb : fp.numOfBlocks ≤ b
  · rw [if_pos hb, if_neg (by omega)]
  rw [if_neg hb, write_sector_ok h.ok, h.count]
  by_cases hsame : a = b
  · subst hsame
    rw [if_pos rfl]
    exact copy_bytes_start (by omega)
  · rw [if_neg hsame]
    have hapart := h.apart a b ha (by omega) hsame
    refine copy_bytes_outside ?_
    obtain hbefore | hbehind := hapart
    · exact Or.inl (by omega)
    · exact Or.inr (by omega)

/-- The bytes outside the blocks stay. -/
theorem file_write_block_outside (hok : disk.fails = []) (hcount : fp.count = 16) {b i : Nat}
    (hi : ∀ a < fp.numOfBlocks, i < fp.blocks a * 512 ∨ (fp.blocks a + 16) * 512 ≤ i) :
    (fileWriteBlock fp b disk).2.bytes i = disk.bytes i := by
  unfold fileWriteBlock
  by_cases hb : fp.numOfBlocks ≤ b
  · rw [if_pos hb]
  · rw [if_neg hb, write_sector_ok hok, hcount]
    have hblock := hi b (by omega)
    exact copy_bytes_outside (by omega)

theorem file_write_block_super (h : Placed fp disk) (k : Nat) :
    SameSuper disk (fileWriteBlock fp k disk).2 := by
  refine ⟨?_, fun i hi hlt => file_write_block_outside h.ok h.count fun a ha => .inl ?_⟩
  · unfold fileWriteBlock
    split
    · rfl
    · rw [write_sector_ok h.ok]
  · have habove := h.above a ha
    omega

/-- `update_directory_entry` writes to the directory block at most. -/
theorem update_directory_entry_outside (fp : File) {f : SuperBlock} (hok : disk.fails = [])
    (hf : f.sectorPerBlk = 16) :
    (updateDirectoryEntry f fp disk).2.fails = [] ∧
      ∀ i, (i < f.firstSector fp.dirCluster * 512 ∨
          (f.firstSector fp.dirCluster + 16) * 512 ≤ i) →
        (updateDirectoryEntry f fp disk).2.bytes i = disk.bytes i := by
  unfold updateDirectoryEntry
  by_cases hlow : fp.dirEntry < 1
  · rw [if_pos hlow]
    exact ⟨hok, fun _ _ => rfl⟩
  by_cases hhigh : 64 < fp.dirEntry
  · rw [if_neg hlow, if_pos hhigh]
    exact ⟨hok, fun _ _ => rfl⟩
  rw [if_neg hlow, if_neg hhigh]
  simp only [read_sector_ok hok, ne_eq, not_true_eq_false, if_false, write_sector_ok hok, hf]
  exact ⟨hok, fun i hi => copy_bytes_outside (by omega)⟩

/-- `file_update` writes to the directory block at most. -/
theorem file_update_outside (h : Placed fp disk) {i : Nat}
    (hi : i < dirSector fp disk * 512 ∨ (dirSector fp disk + 16) * 512 ≤ i) :
    (fileUpdate fp disk).2.bytes i = disk.bytes i := by
  simp only [fileUpdate, read_super_block_ok h.ok, ne_eq, not_true_eq_false, if_false]
  exact (update_directory_entry_outside fp h.ok h.geometry).2 i hi

/-- `file_update` does not change the blocks. -/
theorem file_update_at (h : Placed fp disk) {a r : Nat} (ha : a < fp.numOfBlocks) (hr : r < 8192) :
    (fileUpdate fp disk).2.bytes (fp.blocks a * 512 + r) = disk.bytes (fp.blocks a * 512 + r) := by
  have hapart := h.directory a ha
  refine file_update_outside h ?_
  obtain hbefore | hbehind := hapart
  · exact Or.inl (by omega)
  · exact Or.inr (by omega)

theorem file_update_super (h : Placed fp disk) : SameSuper disk (fileUpdate fp disk).2 := by
  have habove := h.dirAbove
  refine ⟨?_, fun i hi hlt => file_update_outside h (.inl (by omega))⟩
  simp only [fileUpdate, read_super_block_ok h.ok, ne_eq, not_true_eq_false, if_false]
  exact (update_directory_entry_outside fp h.ok h.geometry).1.trans h.ok.symm

/-- `flush_r` of a stream that was written to writes the block and the directory entry. -/
theorem flush_r_eq (h : Placed fp disk) {loaded : Bool}
    (hflags : fp.flags = streamFlags loaded true) :
    (flushR fp disk).2 = (fileUpdate fp (fileWriteBlock fp (fp.off / 8192) disk).2).2 := by
  have hbits : fp.flags &&& 0x6#32 ≠ 0#32 ∧ fp.flags &&& 0x80#32 ≠ 0#32 ∧
      fp.flags &&& 0x40#32 = 0#32 := by
    rw [hflags]
    cases loaded <;> decide
  simp only [flushR, hbits, h.mode, h.bsize, ne_eq, not_true_eq_false, or_self, if_false, if_true]

/-- The bytes of the blocks after `flush_r`. -/
theorem flush_r_at (h : Placed fp disk) {loaded : Bool} (hflags : fp.flags = streamFlags loaded true)
    {a r : Nat} (ha : a < fp.numOfBlocks) (hr : r < 8192) :
    (flushR fp disk).2.bytes (fp.blocks a * 512 + r) =
      if a = fp.off / 8192 then fp.buffer r else disk.bytes (fp.blocks a * 512 + r) := by
  have hplaced : Placed fp (fileWriteBlock fp (fp.off / 8192) disk).2 :=
    h.frame ⟨rfl, rfl, rfl, rfl, rfl, rfl, rfl⟩ (file_write_block_super h _)
  rw [flush_r_eq h hflags, file_update_at hplaced ha hr, file_write_block_at h ha hr]

/-- `flush_r` of a stream that was written to: the buffer goes to the block of the position. -/
theorem flush_r_written (h : Placed fp disk) {loaded : Bool}
    (hflags : fp.flags = streamFlags loaded true) :
    WritesBlock fp disk (fp.off / 8192) (flushR fp disk).2 := by
  have hwrite := file_write_block_super h (fp.off / 8192)
  have hplaced : Placed fp (fileWriteBlock fp (fp.off / 8192) disk).2 :=
    h.frame ⟨rfl, rfl, rfl, rfl, rfl, rfl, rfl⟩ hwrite
  refine ⟨?_, fun j hj hblock => ?_, fun j hj hblock => ?_⟩
  · rw [flush_r_eq h hflags]
    exact hwrite.trans (file_update_super hplaced)
  · rw [byteAddr, flush_r_at h hflags (h.block_lt hj) (by omega), if_pos hblock]
  · rw [byteAddr, flush_r_at h hflags (h.block_lt hj) (by omega), if_neg hblock]

/-- `flush_r` of a stream that was only read does nothing. -/
theorem flush_r_unwritten {loaded : Bool} (hflags : fp.flags = streamFlags loaded false)
    (hmode : fp.mode = 2) : (flushR fp disk).2 = disk := by
  have hbits : fp.flags &&& 0x6#32 ≠ 0#32 ∧ fp.flags &&& 0x80#32 = 0#32 := by
    rw [hflags]
    cases loaded <;> decide
  simp only [flushR, hbits, hmode, ne_eq, not_true_eq_false, or_self, if_false, if_true]

/-- `flush_r` changes the block of the position at most. -/
theorem flush_r_outside (h : Placed fp disk) {loaded written : Bool}
    (hflags : fp.flags = streamFlags loaded written) :
    SameSuper disk (flushR fp disk).2 ∧ ∀ j < fp.fsize, j / 8192 ≠ fp.off / 8192 →
      (flushR fp disk).2.bytes (byteAddr fp j) = disk.bytes (byteAddr fp j) := by
  cases written with
  | true =>
      have hwrite := flush_r_written h hflags
      exact ⟨hwrite.super, hwrite.outside⟩
  | false =>
      rw [flush_r_unwritten hflags h.mode]
      exact ⟨SameSuper.refl, fun _ _ _ => rfl⟩

end Sirius.Cfs
