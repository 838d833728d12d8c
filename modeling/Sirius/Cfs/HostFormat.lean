import Sirius.Cfs.HostCopy

/-!
# Formatting an image

`main` with `-f` writes the allocation table, clears the root directory, and writes the boot sector
and the super block. The image that it leaves is a volume without files.
-/

namespace Sirius.Cfs.Host

open Library

variable {f : SuperBlock} {bytes : Bytes} {fd : HostFile} {b i k : Nat}

/-! ### The position of the image -/

@[simp] theorem fseek_bytes (off : Nat) : (fd.fseek off).bytes = fd.bytes := rfl
@[simp] theorem fseek_len (off : Nat) : (fd.fseek off).len = fd.len := rfl
@[simp] theorem fseek_pos (off : Nat) : (fd.fseek off).pos = off := rfl
@[simp] theorem rewind_bytes : fd.rewind.bytes = fd.bytes := rfl
@[simp] theorem rewind_len : fd.rewind.len = fd.len := rfl
@[simp] theorem rewind_pos : fd.rewind.pos = 0 := rfl

/-! ### The loops -/

/-- A loop that writes `n` zero words clears `4 * n` bytes. The induction is on the words that are
left. -/
theorem clear_loop_spec (n : Nat) : ∀ fd : HostFile,
    (clearLoop n fd).bytes = fillBytes fd.bytes fd.pos (4 * n) 0#8 ∧
      fd.len ≤ (clearLoop n fd).len ∧ (0 < n → fd.pos + 4 * n ≤ (clearLoop n fd).len) := by
  induction n with
  | zero =>
      intro fd
      refine ⟨funext fun x => ?_, le_refl _, fun hn => absurd hn (Nat.lt_irrefl 0)⟩
      rw [fill_bytes_outside (by omega)]
      rfl
  | succ n ih =>
      intro fd
      obtain ⟨hbytes, hlen, hend⟩ := ih (fd.fwrite (wordBytes 0) 4)
      have hfirst : (fd.fwrite (wordBytes 0) 4).bytes = writeWord fd.bytes fd.pos 0 :=
        copy_word_bytes _ _ _
      have hnext : (fd.fwrite (wordBytes 0) 4).pos = fd.pos + 4 := rfl
      have hgrow : fd.len ≤ (fd.fwrite (wordBytes 0) 4).len := Nat.le_max_left _ _
      have hwritten : fd.pos + 4 ≤ (fd.fwrite (wordBytes 0) 4).len := Nat.le_max_right _ _
      rw [clearLoop]
      refine ⟨funext fun x => ?_, hgrow.trans hlen, fun _ => ?_⟩
      · rw [hbytes, hfirst, hnext, fillBytes, fillBytes]
        by_cases hin : fd.pos ≤ x ∧ x < fd.pos + 4 * (n + 1)
        · rw [if_pos hin]
          by_cases hword : x < fd.pos + 4
          · rw [if_neg (by omega), writeWord, if_pos (by omega), Nat.zero_div]
          · rw [if_pos (by omega)]
        · rw [if_neg hin, if_neg (by omega), write_word_outside (by omega)]
      · cases n with
        | zero => omega
        | succ n =>
            have hlast := hend (Nat.succ_pos n)
            omega

/-- The word that `format_blk` writes for block `i`. -/
def tableWord (fs : SuperBlock) (i : Nat) : Nat := if i < fs.sizeOfFat then 0x8fffffff else 0

/-- The loop of `format_blk` writes the words of the table one after the other. The induction is on
the words that are left. -/
theorem format_loop_spec (fs : SuperBlock) (n : Nat) : ∀ (i : Nat) (fd : HostFile),
    fd.pos ≤ fd.len →
    (∀ j < n, readWord (formatLoop fs n i fd).bytes (fd.pos + 4 * j) = tableWord fs (i + j)) ∧
      (∀ x < fd.pos, (formatLoop fs n i fd).bytes x = fd.bytes x) ∧
      fd.len ≤ (formatLoop fs n i fd).len ∧ fd.pos + 4 * n ≤ (formatLoop fs n i fd).len := by
  induction n with
  | zero =>
      intro i fd hpos
      exact ⟨fun j hj => absurd hj (Nat.not_lt_zero j), fun _ _ => rfl, le_refl _, hpos⟩
  | succ n ih =>
      intro i fd hpos
      have hstep : (fd.fwrite (wordBytes (tableWord fs i)) 4).pos ≤
          (fd.fwrite (wordBytes (tableWord fs i)) 4).len := Nat.le_max_right _ _
      obtain ⟨hwords, hbefore, hlen, hend⟩ :=
        ih (i + 1) (fd.fwrite (wordBytes (tableWord fs i)) 4) hstep
      have hfirst : (fd.fwrite (wordBytes (tableWord fs i)) 4).bytes =
          writeWord fd.bytes fd.pos (tableWord fs i) := copy_word_bytes _ _ _
      have hnext : (fd.fwrite (wordBytes (tableWord fs i)) 4).pos = fd.pos + 4 := rfl
      have hgrow : fd.len ≤ (fd.fwrite (wordBytes (tableWord fs i)) 4).len := Nat.le_max_left _ _
      have hloop : formatLoop fs (n + 1) i fd =
          formatLoop fs n (i + 1) (fd.fwrite (wordBytes (tableWord fs i)) 4) := rfl
      rw [hnext] at hwords hbefore hend
      rw [hloop]
      refine ⟨fun j hj => ?_, fun x hx => ?_, hgrow.trans hlen, by omega⟩
      · cases j with
        | zero =>
            have hsmall : tableWord fs i < 2 ^ 32 := by
              unfold tableWord
              split <;> decide
            have hsame : readWord (formatLoop fs n (i + 1)
                (fd.fwrite (wordBytes (tableWord fs i)) 4)).bytes (fd.pos + 4 * 0) =
                  readWord (writeWord fd.bytes fd.pos (tableWord fs i)) fd.pos :=
              read_word_congr fun k hk => by
                simp only [Nat.mul_zero, Nat.add_zero]
                rw [hbefore _ (by omega), hfirst]
            rw [hsame, read_write_word_same hsmall, Nat.add_zero]
        | succ j =>
            have hword := hwords j (by omega)
            have haddr : fd.pos + 4 * (j + 1) = fd.pos + 4 + 4 * j := by omega
            have hindex : i + (j + 1) = i + 1 + j := by omega
            rw [haddr, hindex]
            exact hword
      · rw [hbefore x (by omega), hfirst, write_word_outside (by omega)]

/-- The loop of `format_blk` writes nothing else. -/
theorem format_loop_outside (fs : SuperBlock) (n : Nat) {x : Nat} : ∀ (i : Nat) (fd : HostFile),
    (x < fd.pos ∨ fd.pos + 4 * n ≤ x) → (formatLoop fs n i fd).bytes x = fd.bytes x := by
  induction n with
  | zero => exact fun _ _ _ => rfl
  | succ n ih =>
      intro i fd hx
      have hfirst : (fd.fwrite (wordBytes (tableWord fs i)) 4).bytes =
          writeWord fd.bytes fd.pos (tableWord fs i) := copy_word_bytes _ _ _
      have hnext : (fd.fwrite (wordBytes (tableWord fs i)) 4).pos = fd.pos + 4 := rfl
      have hrest := ih (i + 1) (fd.fwrite (wordBytes (tableWord fs i)) 4) (by omega)
      rw [hfirst, write_word_outside (by omega)] at hrest
      exact hrest

/-! ### The super block -/

/-- The numbers of the super block fit into their words. -/
structure SmallFields (f : SuperBlock) : Prop where
  hidden : f.hidden < 2 ^ 32
  rsv : f.rsv < 2 ^ 32
  bytePerSector : f.bytePerSector < 2 ^ 32
  sectorPerBlk : f.sectorPerBlk < 2 ^ 32
  numOfBlk : f.numOfBlk < 2 ^ 32
  sizeOfFat : f.sizeOfFat < 2 ^ 32
  rootBlk : f.rootBlk < 2 ^ 32
  numOfSectors : f.numOfSectors < 2 ^ 32

/-- A super block that was written is read back. -/
theorem super_bytes_read (h : SmallFields f) : superBlockAt (superBytes f) 0 = f := by
  have hskip : ∀ (m : Bytes) (a v : Nat) {c : Nat}, c + 4 ≤ a →
      readWord (writeWord m a v) c = readWord m c := fun m a v c hc =>
    read_write_word_other (Or.inl hc)
  cases f with
  | mk hidden rsv bytePerSector sectorPerBlk numOfBlk sizeOfFat rootBlk numOfSectors =>
      simp only [superBlockAt, superBytes, SuperBlock.mk.injEq, Nat.zero_add]
      refine ⟨?_, ?_, ?_, ?_, ?_, ?_, ?_, ?_⟩
      · iterate 7 rw [hskip _ _ _ (by omega)]
        exact read_write_word_same h.hidden
      · iterate 6 rw [hskip _ _ _ (by omega)]
        exact read_write_word_same h.rsv
      · iterate 5 rw [hskip _ _ _ (by omega)]
        exact read_write_word_same h.bytePerSector
      · iterate 4 rw [hskip _ _ _ (by omega)]
        exact read_write_word_same h.sectorPerBlk
      · iterate 3 rw [hskip _ _ _ (by omega)]
        exact read_write_word_same h.numOfBlk
      · iterate 2 rw [hskip _ _ _ (by omega)]
        exact read_write_word_same h.sizeOfFat
      · rw [hskip _ _ _ (by omega)]
        exact read_write_word_same h.rootBlk
      · exact read_write_word_same h.numOfSectors

/-! ### The formatted image -/

/-- The super block before the number of blocks is known. -/
def emptySuper (len : Nat) : SuperBlock :=
  { hidden := 0, rsv := 2, bytePerSector := 512, sectorPerBlk := 16, numOfBlk := 0,
    sizeOfFat := 0, rootBlk := 0, numOfSectors := len % 2 ^ 32 / 512 }

/-- The number of blocks of an image. -/
theorem format_blocks {len : Nat} (hlow : 1024 ≤ len) (hhigh : len < 2 ^ 31) :
    numOfBlk (emptySuper len) = (len / 512 - 2) / 16 := by
  simp only [numOfBlk, emptySuper]
  rw [Nat.mod_eq_of_lt (a := len) (by omega)]
  omega

/-- The number of blocks of the allocation table. -/
theorem format_root {fs : SuperBlock} {n : Nat} (hblocks : numOfBlk fs = n)
    (hsmall : n < 2 ^ 20) (hbyte : fs.bytePerSector = 512) (hsector : fs.sectorPerBlk = 16) :
    sizeOfBlk fs = (n + 2047) / 2048 := by
  simp only [sizeOfBlk, hblocks, hbyte, hsector]
  rw [Nat.mod_eq_of_lt (a := n * 4) (by omega)]
  split <;> omega

/-- The super block when `-f` starts to write. -/
def tableSuper (len : Nat) : SuperBlock :=
  let fs := emptySuper len
  let fs := { fs with numOfBlk := numOfBlk fs }
  { fs with sizeOfFat := sizeOfBlk fs }

/-- The super block of an image below 2 GiB with room for the boot sector and the super block. -/
theorem table_super_sizes {len : Nat} (hlow : 1024 ≤ len) (hhigh : len < 2 ^ 31) :
    ∃ n ≤ 2 ^ 18, n = (len / 512 - 2) / 16 ∧ (tableSuper len).numOfBlk = n ∧
      (tableSuper len).sizeOfFat = (n + 2047) / 2048 := by
  have hblocks := format_blocks hlow hhigh
  have hnum : (tableSuper len).numOfBlk = numOfBlk (emptySuper len) := by simp only [tableSuper]
  have hsame : numOfBlk { emptySuper len with numOfBlk := numOfBlk (emptySuper len) } =
      numOfBlk (emptySuper len) := by simp only [numOfBlk]
  have hfat : (tableSuper len).sizeOfFat =
      sizeOfBlk { emptySuper len with numOfBlk := numOfBlk (emptySuper len) } := by
    simp only [tableSuper]
  refine ⟨(len / 512 - 2) / 16, by omega, rfl, hnum.trans hblocks, hfat.trans ?_⟩
  exact format_root (hsame.trans hblocks) (by omega) rfl rfl

theorem table_super_layout {len : Nat} (hlow : 1024 ≤ len) (hhigh : len < 2 ^ 31) :
    Layout { tableSuper len with rootBlk := (tableSuper len).sizeOfFat } := by
  obtain ⟨n, hsmall, -, hblocks, hroot⟩ := table_super_sizes hlow hhigh
  generalize hfs : tableSuper len = fs at *
  have hnums : fs.hidden = 0 ∧ fs.rsv = 2 ∧ fs.bytePerSector = 512 ∧ fs.sectorPerBlk = 16 := by
    rw [← hfs]
    exact ⟨rfl, rfl, rfl, rfl⟩
  exact ⟨hnums.1, hnums.2.1, hnums.2.2.1, hnums.2.2.2,
    show 4 * fs.numOfBlk ≤ 8192 * fs.sizeOfFat by omega,
    show fs.sizeOfFat ≤ fs.numOfBlk by omega,
    show 1024 + 8192 * (fs.numOfBlk + 1) < 2 ^ 32 by omega⟩

theorem table_super_small {len : Nat} (hlow : 1024 ≤ len) (hhigh : len < 2 ^ 31) :
    SmallFields { tableSuper len with rootBlk := (tableSuper len).sizeOfFat } := by
  obtain ⟨n, hsmall, -, hblocks, hroot⟩ := table_super_sizes hlow hhigh
  have hlayout := table_super_layout hlow hhigh
  have hsectors : (tableSuper len).numOfSectors = len % 2 ^ 32 / 512 := rfl
  generalize tableSuper len = fs at *
  refine ⟨?_, ?_, ?_, ?_, show fs.numOfBlk < 2 ^ 32 by omega, show fs.sizeOfFat < 2 ^ 32 by omega,
    show fs.sizeOfFat < 2 ^ 32 by omega, show fs.numOfSectors < 2 ^ 32 by omega⟩
  · rw [hlayout.hidden]
    omega
  · rw [hlayout.rsv]
    omega
  · rw [hlayout.bytePerSector]
    omega
  · rw [hlayout.sectorPerBlk]
    omega

/-- `root_dir` marks the block of the root directory and clears it. -/
theorem root_dir_spec {fs : SuperBlock} (hf : Layout { fs with rootBlk := fs.sizeOfFat })
    (fd : HostFile) :
    let root := 1024 + 8192 * fs.sizeOfFat
    (rootDir fd fs).2 = { fs with rootBlk := fs.sizeOfFat } ∧ (rootDir fd fs).1.pos = 0 ∧
      fd.len ≤ (rootDir fd fs).1.len ∧ root + 8192 ≤ (rootDir fd fs).1.len ∧
      (rootDir fd fs).1.bytes = fillBytes (fillBytes
        (writeWord fd.bytes (1024 + 4 * fs.sizeOfFat) endMark) root 8192 0#8) root 8192 0#8 := by
  have hrsv : fs.rsv = 2 := hf.rsv
  have hbyte : fs.bytePerSector = 512 := hf.bytePerSector
  have hsector : fs.sectorPerBlk = 16 := hf.sectorPerBlk
  have hroot : fs.sizeOfFat ≤ fs.numOfBlk := hf.root
  have hsmall : 1024 + 8192 * (fs.numOfBlk + 1) < 2 ^ 32 := hf.small
  have htable : fs.rsv * fs.bytePerSector + fs.sizeOfFat * 4 = 1024 + 4 * fs.sizeOfFat := by
    rw [hrsv, hbyte]
    omega
  have hblock : fs.rsv * fs.bytePerSector + fs.sectorPerBlk * fs.bytePerSector * fs.sizeOfFat =
      1024 + 8192 * fs.sizeOfFat := by
    rw [hrsv, hbyte, hsector]
  have hclean : (fs.rsv + fs.sizeOfFat * fs.sectorPerBlk) % 2 ^ 32 * fs.bytePerSector % 2 ^ 32 =
      1024 + 8192 * fs.sizeOfFat := by
    rw [hrsv, hbyte, hsector, Nat.mod_eq_of_lt (a := 2 + fs.sizeOfFat * 16) (by omega),
      Nat.mod_eq_of_lt (by omega)]
    omega
  have hwords : fs.sectorPerBlk * fs.bytePerSector / 4 = 2048 := by
    rw [hbyte, hsector]
  have hwords' : fs.bytePerSector * fs.sectorPerBlk / 4 = 2048 := by
    rw [hbyte, hsector]
  simp only [rootDir, cleanBlkEnter, htable, hblock, hclean, hwords, hwords']
  generalize hmarked : (fd.fseek (1024 + 4 * fs.sizeOfFat)).fwrite (wordBytes endMark) 4 = fd₁
  have hbytes₁ : fd₁.bytes = writeWord fd.bytes (1024 + 4 * fs.sizeOfFat) endMark := by
    rw [← hmarked]
    exact copy_word_bytes _ _ _
  have hlen₁ : fd.len ≤ fd₁.len := by
    rw [← hmarked]
    exact Nat.le_max_left _ _
  obtain ⟨hbytes₂, hlen₂, -⟩ := clear_loop_spec 2048 (fd₁.fseek (1024 + 8192 * fs.sizeOfFat))
  generalize clearLoop 2048 (fd₁.fseek (1024 + 8192 * fs.sizeOfFat)) = fd₂ at *
  obtain ⟨hbytes₃, hlen₃, hend₃⟩ :=
    clear_loop_spec 2048 (fd₂.rewind.fseek (1024 + 8192 * fs.sizeOfFat))
  generalize clearLoop 2048 (fd₂.rewind.fseek (1024 + 8192 * fs.sizeOfFat)) = fd₃ at *
  have hsize : 4 * 2048 = 8192 := by omega
  simp only [fseek_bytes, fseek_len, fseek_pos, rewind_bytes, rewind_len, hsize, hbytes₁, hbytes₂]
    at hbytes₂ hlen₂ hbytes₃ hlen₃ hend₃ ⊢
  exact ⟨trivial, rewind_pos, (hlen₁.trans hlen₂).trans hlen₃, hend₃ (by omega), hbytes₃⟩

/-- The boot sector and the super block go to the start of the image. -/
theorem write_boot_spec (fd : HostFile) (boot super : Bytes) (hpos : fd.pos = 0) :
    ((fd.fwrite boot 512).fwrite super 52).rewind.bytes =
        copyBytes (copyBytes fd.bytes 0 boot 0 512) 512 super 0 52 ∧
      fd.len ≤ ((fd.fwrite boot 512).fwrite super 52).rewind.len := by
  refine ⟨?_, (Nat.le_max_left _ _).trans (Nat.le_max_left _ _)⟩
  simp only [rewind_bytes, HostFile.fwrite, hpos, Nat.zero_add]

/-- `format_blk` writes the allocation table. -/
theorem format_blk_spec (fd : HostFile) {fs : SuperBlock}
    (hf : Layout { fs with rootBlk := fs.sizeOfFat })
    (hlen : 1024 ≤ fd.len) :
    (∀ b < fs.numOfBlk, readWord (formatBlk fd fs).bytes (1024 + 4 * b) = tableWord fs b) ∧
      fd.len ≤ (formatBlk fd fs).len ∧ 1024 + 4 * fs.numOfBlk ≤ (formatBlk fd fs).len := by
  have hstart : fs.rsv * fs.bytePerSector = 1024 := by
    rw [show fs.rsv = 2 from hf.rsv, show fs.bytePerSector = 512 from hf.bytePerSector]
  obtain ⟨hwords, -, hgrow, hend⟩ := format_loop_spec fs fs.numOfBlk 0 (fd.fseek 1024) hlen
  rw [formatBlk, hstart]
  generalize formatLoop fs fs.numOfBlk 0 (fd.fseek 1024) = fd₁ at *
  simp only [fseek_pos, Nat.zero_add] at hwords hend
  exact ⟨hwords, hgrow, hend⟩

/-- `format_blk` writes into the allocation table only. -/
theorem format_blk_outside (fd : HostFile) {fs : SuperBlock}
    (hf : Layout { fs with rootBlk := fs.sizeOfFat }) :
    SameOutside fd.bytes (formatBlk fd fs).bytes 1024 (4 * fs.numOfBlk) := by
  intro x hx
  have hstart : fs.rsv * fs.bytePerSector = 1024 := by
    rw [show fs.rsv = 2 from hf.rsv, show fs.bytePerSector = 512 from hf.bytePerSector]
  rw [formatBlk, hstart]
  exact format_loop_outside fs fs.numOfBlk 0 (fd.fseek 1024) hx

/-- `root_dir` writes into the entry and the block of the root directory only. -/
theorem root_dir_outside (fd : HostFile) {fs : SuperBlock}
    (hf : Layout { fs with rootBlk := fs.sizeOfFat }) {x : Nat}
    (hentry : x < 1024 + 4 * fs.sizeOfFat ∨ 1024 + 4 * fs.sizeOfFat + 4 ≤ x)
    (hblock : x < 1024 + 8192 * fs.sizeOfFat ∨ 1024 + 8192 * fs.sizeOfFat + 8192 ≤ x) :
    (rootDir fd fs).1.bytes x = fd.bytes x := by
  obtain ⟨-, -, -, -, hbytes⟩ := root_dir_spec hf fd
  rw [hbytes, fill_bytes_outside hblock, fill_bytes_outside hblock, write_word_outside hentry]

section Image

variable {fs : SuperBlock} (hf : Layout { fs with rootBlk := fs.sizeOfFat }) (boot : Bytes)
  {image : HostFile} (himage : image = (((rootDir (formatBlk fd fs) fs).1.fwrite boot 512).fwrite
    (superBytes { fs with rootBlk := fs.sizeOfFat }) 52).rewind)

include hf himage

/-- Behind the boot sector and the super block the image is that of `format_blk` and `root_dir`. -/
theorem format_behind {x : Nat} (hx : 564 ≤ x) :
    image.bytes x = (rootDir (formatBlk fd fs) fs).1.bytes x := by
  obtain ⟨-, hpos, -⟩ := root_dir_spec hf (formatBlk fd fs)
  rw [himage, (write_boot_spec _ boot _ hpos).1, copy_bytes_outside (by omega),
    copy_bytes_outside (by omega)]

/-- The bytes between the super block and the allocation table. -/
theorem format_front {x : Nat} (hx : 564 ≤ x) (htable : x < 1024) :
    image.bytes x = fd.bytes x := by
  rw [format_behind hf boot himage hx, root_dir_outside _ hf (.inl (by omega)) (.inl (by omega))]
  exact format_blk_outside fd hf x (.inl htable)

/-- The super block in the image. -/
theorem format_super (hfields : SmallFields { fs with rootBlk := fs.sizeOfFat }) :
    superBlockAt image.bytes 512 = { fs with rootBlk := fs.sizeOfFat } := by
  obtain ⟨-, hpos, -⟩ := root_dir_spec hf (formatBlk fd fs)
  refine (super_block_fields fun i hi => ?_).trans (super_bytes_read hfields)
  rw [himage, (write_boot_spec _ boot _ hpos).1, Nat.zero_add, copy_bytes_inside hi, Nat.zero_add]

/-- The allocation table in the image. -/
theorem format_table (hlen : 1024 ≤ fd.len) (hb : b < fs.numOfBlk) :
    fat image.bytes { fs with rootBlk := fs.sizeOfFat } b =
      if b = fs.sizeOfFat then endMark else tableWord fs b := by
  have htable : 4 * fs.numOfBlk ≤ 8192 * fs.sizeOfFat := hf.table
  obtain ⟨hwords, -⟩ := format_blk_spec fd hf hlen
  obtain ⟨-, -, -, -, hbytes⟩ := root_dir_spec hf (formatBlk fd fs)
  have hword : fat image.bytes { fs with rootBlk := fs.sizeOfFat } b =
      readWord (writeWord (formatBlk fd fs).bytes (1024 + 4 * fs.sizeOfFat) endMark)
        (1024 + 4 * b) := by
    rw [hf.fat_eq]
    refine read_word_congr fun k hk => ?_
    rw [format_behind hf boot himage (by omega), hbytes, fill_bytes_outside (by omega),
      fill_bytes_outside (by omega)]
  rw [hword]
  by_cases hroot : b = fs.sizeOfFat
  · rw [if_pos hroot, hroot, read_write_word_same (by decide)]
  · rw [if_neg hroot, read_write_word_other (by omega), hwords b hb]

/-- The root directory in the image is cleared. -/
theorem format_root_cleared {k : Nat} (hk : k < 8192) :
    image.bytes (1024 + 8192 * fs.sizeOfFat + k) = 0#8 := by
  obtain ⟨-, -, -, -, hbytes⟩ := root_dir_spec hf (formatBlk fd fs)
  rw [format_behind hf boot himage (by omega), hbytes, fillBytes, if_pos (by omega)]

/-- The image does not get shorter, and it has room for the table and the root directory. -/
theorem format_long (hlen : 1024 ≤ fd.len) :
    fd.len ≤ image.len ∧ LongEnough image { fs with rootBlk := fs.sizeOfFat } := by
  have hroot : entryAddr { fs with rootBlk := fs.sizeOfFat } 64 =
      1024 + 8192 * fs.sizeOfFat + 128 * 64 := rfl
  obtain ⟨-, hblk, htable⟩ := format_blk_spec fd hf hlen
  obtain ⟨-, hpos, hlong, hdir, -⟩ := root_dir_spec hf (formatBlk fd fs)
  have hgrow := (write_boot_spec _ boot (superBytes { fs with rootBlk := fs.sizeOfFat }) hpos).2
  rw [← himage] at hgrow
  refine ⟨(hblk.trans hlong).trans hgrow, (htable.trans hlong).trans hgrow, ?_⟩
  rw [hroot]
  omega

/-- The image after the steps of `-f` holds the super block and is a volume without files. -/
theorem format_volume (hfields : SmallFields { fs with rootBlk := fs.sizeOfFat })
    (hlen : 1024 ≤ fd.len) :
    Volume image.bytes { fs with rootBlk := fs.sizeOfFat } (fun _ => none) ∧
      ∀ b, fs.sizeOfFat < b → b < fs.numOfBlk →
        fat image.bytes { fs with rootBlk := fs.sizeOfFat } b = 0 := by
  have hword : ∀ b < fs.numOfBlk, _ := fun b hb => format_table hf boot himage hlen hb
  refine ⟨⟨hf, format_super hf boot himage hfields, fun b hb hblk => ?_, fun i hi _ k hk => ?_, ?_,
    ?_, ?_⟩, fun b hroot hb => ?_⟩
  · have hbroot : b ≤ fs.sizeOfFat := hb
    rw [hword b hblk]
    split
    case isTrue => decide
    case isFalse hne =>
      rw [tableWord, if_pos (by omega)]
      decide
  · have hat : entryAddr { fs with rootBlk := fs.sizeOfFat } i + k =
        1024 + 8192 * fs.sizeOfFat + (128 * i + k) := Nat.add_assoc ..
    rw [rootEntry, hat, format_root_cleared hf boot himage (by omega)]
  · exact fun i _ s hs => by cases hs
  · exact fun i _ s hs => by cases hs
  · exact fun i _ j _ s t _ hs => by cases hs
  · rw [hword b hb, if_neg (by omega), tableWord, if_neg (by omega)]

end Image

theorem format_eq (fd : HostFile) (boot : Bytes) :
    format fd boot =
      (((rootDir (formatBlk fd.rewind (tableSuper fd.len)) (tableSuper fd.len)).1.fwrite boot
        512).fwrite (superBytes
          (rootDir (formatBlk fd.rewind (tableSuper fd.len)) (tableSuper fd.len)).2) 52).rewind :=
  rfl

/-- Formatting an image below 2 GiB with room for the boot sector and the super block: a volume
without files, in which all blocks behind the root directory are free. The image does not get shorter,
and the rest of the sector of the super block stays. -/
theorem format_spec (fd : HostFile) (boot : Bytes) (hlow : 1024 ≤ fd.len) (hhigh : fd.len < 2 ^ 31) :
    ∃ f, Volume (format fd boot).bytes f (fun _ => none) ∧ LongEnough (format fd boot) f ∧
      f.numOfBlk = (fd.len / 512 - 2) / 16 ∧ f.rootBlk = (f.numOfBlk + 2047) / 2048 ∧
      (∀ b, f.rootBlk < b → b < f.numOfBlk → fat (format fd boot).bytes f b = 0) ∧
      fd.len ≤ (format fd boot).len ∧
      ∀ x, 564 ≤ x → x < 1024 → (format fd boot).bytes x = fd.bytes x := by
  have hlayout := table_super_layout hlow hhigh
  have hfields := table_super_small hlow hhigh
  obtain ⟨n, -, hn, hblocks, hroot⟩ := table_super_sizes hlow hhigh
  have himage := format_eq fd boot
  rw [(root_dir_spec hlayout (formatBlk fd.rewind (tableSuper fd.len))).1] at himage
  obtain ⟨hvolume, hfree⟩ := format_volume hlayout boot himage hfields hlow
  obtain ⟨hgrow, hlong⟩ := format_long hlayout boot himage hlow
  have hfront : ∀ x, 564 ≤ x → x < 1024 → (format fd boot).bytes x = fd.rewind.bytes x :=
    fun x => format_front hlayout boot himage
  generalize tableSuper fd.len = fs at *
  exact ⟨_, hvolume, hlong, hblocks.trans hn, hroot.trans (by rw [← hblocks]), hfree, hgrow, hfront⟩

/-! ### The geometry -/

/-- The geometry of a formatted image of `len` bytes: its blocks fit behind the reserved sectors, the
first ones hold the allocation table and are marked, the next one is an empty root directory, and the
others are free. -/
structure FormatGeometry (bytes : Bytes) (len : Nat) (f : SuperBlock) : Prop where
  fits : f.rsv * f.bytePerSector + f.numOfBlk * (f.sectorPerBlk * f.bytePerSector) ≤ len
  table : 4 * f.numOfBlk ≤ f.sizeOfFat * (f.sectorPerBlk * f.bytePerSector)
  marked : ∀ b < f.numOfBlk, fat bytes f b = 0x8fffffff ↔ b < f.sizeOfFat
  behind : f.sizeOfFat ≤ f.rootBlk
  range : f.rootBlk < f.numOfBlk
  chain : Chain bytes f f.rootBlk [f.rootBlk]
  cleared : ∀ k < f.sectorPerBlk * f.bytePerSector, bytes (dataOffset f f.rootBlk + k) = 0#8
  free : ∀ b < f.numOfBlk, f.sizeOfFat ≤ b → b ≠ f.rootBlk → fat bytes f b = 0

/-- The image after the steps of `-f` has this geometry, when it has a block for files. -/
theorem image_geometry {fs : SuperBlock} (hf : Layout { fs with rootBlk := fs.sizeOfFat })
    (boot : Bytes) {image : HostFile} (himage : image = (((rootDir (formatBlk fd fs) fs).1.fwrite
      boot 512).fwrite (superBytes { fs with rootBlk := fs.sizeOfFat }) 52).rewind)
    (hlen : 1024 ≤ fd.len) {len : Nat} (hfits : 1024 + 8192 * fs.numOfBlk ≤ len)
    (hrange : fs.sizeOfFat < fs.numOfBlk) :
    FormatGeometry image.bytes len { fs with rootBlk := fs.sizeOfFat } := by
  have hword : ∀ b < fs.numOfBlk, _ := fun b hb => format_table hf boot himage hlen hb
  have hsmall : 1024 + 8192 * (fs.numOfBlk + 1) < 2 ^ 32 := hf.small
  have htable : 4 * fs.numOfBlk ≤ 8192 * fs.sizeOfFat := hf.table
  have hsector : fs.sectorPerBlk = 16 := hf.sectorPerBlk
  have hbyte : fs.bytePerSector = 512 := hf.bytePerSector
  have hrsv : fs.rsv = 2 := hf.rsv
  refine ⟨?_, ?_, fun b hb => ?_, le_rfl, hrange, ?_, fun k hk => ?_, fun b hb hsize hne => ?_⟩
  · show fs.rsv * fs.bytePerSector + fs.numOfBlk * (fs.sectorPerBlk * fs.bytePerSector) ≤ len
    rw [hrsv, hbyte, hsector]
    omega
  · show 4 * fs.numOfBlk ≤ fs.sizeOfFat * (fs.sectorPerBlk * fs.bytePerSector)
    rw [hbyte, hsector]
    omega
  · show _ ↔ b < fs.sizeOfFat
    rw [hword b hb, tableWord]
    by_cases hroot : b = fs.sizeOfFat
    · rw [if_pos hroot]
      exact iff_of_false (by decide) (by omega)
    · rw [if_neg hroot]
      by_cases hlow : b < fs.sizeOfFat
      · rw [if_pos hlow]
        exact iff_of_true rfl hlow
      · rw [if_neg hlow]
        exact iff_of_false (by decide) hlow
  · have hend : fs.sizeOfFat ≠ endMark := by
      unfold endMark
      omega
    exact ⟨rfl, hend, (hword _ hrange).trans (if_pos rfl)⟩
  · have hk' : k < fs.sectorPerBlk * fs.bytePerSector := hk
    rw [hsector, hbyte] at hk'
    show image.bytes (dataOffset _ fs.sizeOfFat + k) = 0#8
    rw [hf.data_offset hf.root]
    exact format_root_cleared hf boot himage hk'
  · have hsize' : fs.sizeOfFat ≤ b := hsize
    rw [hword b hb, if_neg hne, tableWord, if_neg (by omega)]

/-- Formatting an image from 1 MiB to below 2 GiB. The super block in the image describes its
geometry; `format_blk` writes into the allocation table only, and `root_dir` into the entry and the
block of the root directory only. -/
theorem format_geometry (fd : HostFile) (boot : Bytes) (hlow : 2 ^ 20 ≤ fd.len)
    (hhigh : fd.len < 2 ^ 31) :
    ∃ f, superBlockAt (format fd boot).bytes 512 = f ∧
      FormatGeometry (format fd boot).bytes fd.len f ∧
      (∀ image, SameOutside image.bytes (formatBlk image (tableSuper fd.len)).bytes 1024
        (4 * f.numOfBlk)) ∧
      ∀ image x, (x < 1024 + 4 * f.rootBlk ∨ 1024 + 4 * f.rootBlk + 4 ≤ x) →
        (x < dataOffset f f.rootBlk ∨ dataOffset f f.rootBlk + 8192 ≤ x) →
        (rootDir image (tableSuper fd.len)).1.bytes x = image.bytes x := by
  have hlayout := table_super_layout (by omega) hhigh
  have hfields := table_super_small (by omega) hhigh
  obtain ⟨n, hsmall, hn, hblocks, hroot⟩ := table_super_sizes (by omega) hhigh
  have himage := format_eq fd boot
  rw [(root_dir_spec hlayout (formatBlk fd.rewind (tableSuper fd.len))).1] at himage
  have hlen : 1024 ≤ fd.rewind.len := by
    show 1024 ≤ fd.len
    omega
  generalize tableSuper fd.len = fs at *
  refine ⟨_, format_super hlayout boot himage hfields,
    image_geometry hlayout boot himage hlen (by omega) (by omega),
    fun image => format_blk_outside image hlayout, fun image x hentry hblock => ?_⟩
  have hblock' : x < dataOffset { fs with rootBlk := fs.sizeOfFat } fs.sizeOfFat ∨
      dataOffset { fs with rootBlk := fs.sizeOfFat } fs.sizeOfFat + 8192 ≤ x := hblock
  rw [hlayout.data_offset hlayout.root] at hblock'
  exact root_dir_outside image hlayout hentry hblock'

theorem format_geometry_one_mib : ∃ f, FormatGeometry
    (format ⟨fun _ => 0#8, 2 ^ 20, 0⟩ fun _ => 0#8).bytes (2 ^ 20) f := by
  obtain ⟨f, -, hgeometry, -⟩ := format_geometry ⟨fun _ => 0#8, 2 ^ 20, 0⟩ (fun _ => 0#8)
    (le_refl (2 ^ 20)) (by decide)
  exact ⟨f, hgeometry⟩

end Sirius.Cfs.Host
