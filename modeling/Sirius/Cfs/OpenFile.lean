import Sirius.Cfs.Disk
import Sirius.Library.Linked
import Sirius.Stdio.File

/-!
# Opening a file of the disk

`open_file_r` has the same text in the user library and in the kernel. It follows the chain of a
file through the allocation table, one cached sector at a time, and stores the first sector of
every block in the stream.
-/

namespace Sirius.Cfs

open Library Stdio

/-- `EOF` as an unsigned number: the end mark of a chain in the allocation table. -/
def endMark : Nat := 2 ^ 32 - 1

/-- The entry of block `b` in the allocation table. -/
def fat (bytes : Bytes) (f : SuperBlock) (b : Nat) : Nat :=
  readWord bytes (f.dataSector * 512 + 4 * b)

/-- `start`: the sector that holds the entry of a block in the allocation table. -/
def SuperBlock.fatSector (f : SuperBlock) (index : Nat) : Nat :=
  (index * 4 % 2 ^ 32 / f.bytePerSector + f.dataSector) % 2 ^ 32

/-- The two nested loops of `open_file_r`, for at most `n` more blocks. `numOfBlocks` counts with
the loops, so it is also where `blocks` is stored to. -/
def openBlocks (f : SuperBlock) : (n index flgStart : Nat) → (blk : Bytes) → File → Disk →
    Option File × Disk
  | 0, _, _, _, fp, disk => (some fp, disk)
  | n + 1, index, flgStart, blk, fp, disk =>
      let fp := { fp with
        blocks := Function.update fp.blocks fp.numOfBlocks (f.firstSector index)
        numOfBlocks := fp.numOfBlocks + 1 }
      let start := f.fatSector index
      let (r, blk, disk) :=
        if flgStart ≠ start then readSector disk 1 start blk else (0, blk, disk)
      if r ≠ 0 then (none, disk)
      else
        let index := readWord blk (index % (f.bytePerSector / 4) * 4)
        if index = endMark then (some fp, disk) else openBlocks f n index start blk fp disk

/-- `open_file_r` of the user library and the kernel, with the memory that `malloc` returns for the
two buffers. `none` is the result `NULL`. -/
def openFileR (d : Bytes) (f : SuperBlock) (heap blk : Bytes) (disk : Disk) :
    Option File × Disk :=
  let fp := { File.cleared heap with
    bsize := f.bytePerSector * f.sectorPerBlk % 2 ^ 32
    fsize := fileSize d 0
    bytePerSector := f.bytePerSector
    count := f.sectorPerBlk }
  openBlocks f (1024 * 1024) (firstBlk d 0) endMark blk fp disk

/-- `file_read_block`, the same text in the two programs: the status and the buffer. -/
def fileReadBlock (fp : File) (addr : Nat) (disk : Disk) : Int × Bytes × Disk :=
  if fp.numOfBlocks ≤ addr then (-1, fp.buffer, disk)
  else readSector disk fp.count (fp.blocks addr) fp.buffer

/-! ### Geometries -/

/-- The entry of the block in the allocation table can be addressed with 32 bits. -/
def SuperBlock.InRange (f : SuperBlock) (b : Nat) : Prop :=
  4 * b < 2 ^ 32 ∧ f.rsv + f.hidden + b / 128 < 2 ^ 32 - 1

/-- The geometry that the host tool formats a disk with: sectors of 512 bytes, blocks of 16
sectors, and all blocks within the range of 32-bit sector numbers. -/
structure Formatted (f : SuperBlock) : Prop where
  bytePerSector : f.bytePerSector = 512
  sectorPerBlk : f.sectorPerBlk = 16
  dataSector : 2 ≤ f.rsv + f.hidden
  sectors : f.rsv + f.hidden + 16 * f.numOfBlk < 2 ^ 32

variable {f : SuperBlock} {fp : File} {disk : Disk} {b i : Nat} {l done : List Nat}

theorem Formatted.data_sector (h : Formatted f) : f.dataSector = f.rsv + f.hidden := by
  have hlt := h.sectors
  exact Nat.mod_eq_of_lt (by omega)

/-- The first sector of a block does not wrap around. -/
theorem Formatted.first_sector (h : Formatted f) (hb : b < f.numOfBlk) :
    f.firstSector b = 16 * b + f.dataSector := by
  have hlt := h.sectors
  have hdata := h.data_sector
  rw [SuperBlock.firstSector, h.sectorPerBlk, Nat.mod_eq_of_lt (by omega)]
  omega

theorem Formatted.in_range (h : Formatted f) (hb : b < f.numOfBlk) : f.InRange b := by
  have hlt := h.sectors
  exact ⟨by omega, by omega⟩

/-- The sector of an entry of the allocation table does not wrap around. -/
theorem fat_sector_eq (hsize : f.bytePerSector = 512) (hb : f.InRange b) :
    f.fatSector b = b / 128 + f.dataSector := by
  obtain ⟨hentry, hsector⟩ := hb
  have hdata : f.dataSector = f.rsv + f.hidden := Nat.mod_eq_of_lt (by omega)
  rw [SuperBlock.fatSector, hsize, Nat.mod_eq_of_lt (a := b * 4) (by omega),
    Nat.mod_eq_of_lt (by omega)]
  omega

theorem fat_sector_ne_end (hsize : f.bytePerSector = 512) (hb : f.InRange b) :
    f.fatSector b ≠ endMark := by
  have hdata : f.dataSector = f.rsv + f.hidden := Nat.mod_eq_of_lt (by have := hb.2; omega)
  rw [fat_sector_eq hsize hb, hdata, endMark]
  have := hb.2
  omega

/-! ### The cached sector of the allocation table -/

/-- The buffer holds sector `start` of the disk. -/
def HoldsSector (blk bytes : Bytes) (start : Nat) : Prop :=
  ∀ i < 512, blk i = bytes (start * 512 + i)

/-- Reading a sector into the buffer. -/
theorem holds_sector_copy (blk bytes : Bytes) (start : Nat) :
    HoldsSector (copyBytes blk 0 bytes (start * 512) (1 * 512)) bytes start := by
  intro i hi
  have hcopy : copyBytes blk 0 bytes (start * 512) (1 * 512) (0 + i) = bytes (start * 512 + i) :=
    copy_bytes_inside (by omega)
  rwa [Nat.zero_add] at hcopy

/-- The entry of a block in the buffered sector. -/
theorem read_holds_sector {blk bytes : Bytes} (hsize : f.bytePerSector = 512) (hb : f.InRange b)
    (hholds : HoldsSector blk bytes (f.fatSector b)) :
    readWord blk (b % (f.bytePerSector / 4) * 4) = fat bytes f b := by
  refine read_word_congr fun k hk => ?_
  rw [fat_sector_eq hsize hb] at hholds
  rw [hsize, hholds _ (by omega)]
  exact congrArg bytes (by omega)

/-! ### The block table of a chain -/

/-- The blocks that follow one another in the allocation table from `b` to the end mark. -/
abbrev Chain (bytes : Bytes) (f : SuperBlock) (b : Nat) (l : List Nat) : Prop :=
  Linked (fat bytes f) endMark b l

/-- The table of the stream lists the first sectors of the blocks `l`. -/
structure HasTable (f : SuperBlock) (fp : File) (l : List Nat) : Prop where
  numOfBlocks : fp.numOfBlocks = l.length
  blocks : ∀ k b, l[k]? = some b → fp.blocks k = f.firstSector b

/-- One more block in the table. -/
theorem HasTable.snoc (h : HasTable f fp done) (b : Nat) :
    HasTable f { fp with
      blocks := Function.update fp.blocks fp.numOfBlocks (f.firstSector b)
      numOfBlocks := fp.numOfBlocks + 1 } (done ++ [b]) := by
  refine ⟨by simp [h.numOfBlocks], fun k c hk => ?_⟩
  have hlt : k < (done ++ [b]).length := (List.getElem?_eq_some_iff.mp hk).1
  rw [List.length_append, List.length_singleton] at hlt
  by_cases hlast : k = done.length
  · subst hlast
    rw [List.getElem?_concat_length] at hk
    simp [h.numOfBlocks, Option.some.inj hk]
  · rw [List.getElem?_append_left (by omega)] at hk
    have hne : k ≠ fp.numOfBlocks := by rw [h.numOfBlocks]; exact hlast
    simpa [Function.update_of_ne hne] using h.blocks k c hk

/-- The streams differ at most in their block tables. -/
def SameButTable (fp fp' : File) : Prop :=
  fp' = { fp with blocks := fp'.blocks, numOfBlocks := fp'.numOfBlocks }

/-- The sectors of the allocation table that a walk over the blocks reads: those whose number
differs from the number of the sector in the buffer. -/
def sectorReads (f : SuperBlock) : (flgStart : Nat) → List Nat → Nat
  | _, [] => 0
  | flgStart, b :: l => (if flgStart ≠ f.fatSector b then 1 else 0) + sectorReads f (f.fatSector b) l

/-- The sector of the allocation table is in the buffer already or is read into it. -/
theorem table_sector_read {flgStart start : Nat} {blk : Bytes}
    (hcache : flgStart = start → HoldsSector blk disk.bytes flgStart) :
    (true ∈ disk.fails.take (if flgStart ≠ start then 1 else 0) ∧
      ∃ disk', (if flgStart ≠ start then readSector disk 1 start blk else (0, blk, disk)) =
        (-1, blk, disk')) ∨
    (true ∉ disk.fails.take (if flgStart ≠ start then 1 else 0) ∧
      ∃ blk', (if flgStart ≠ start then readSector disk 1 start blk else (0, blk, disk)) =
          (0, blk', { disk with
            fails := disk.fails.drop (if flgStart ≠ start then 1 else 0) }) ∧
        HoldsSector blk' disk.bytes start) := by
  by_cases hsame : flgStart = start
  · rw [if_neg (not_not.mpr hsame), if_neg (not_not.mpr hsame)]
    exact .inr ⟨List.not_mem_nil, blk, rfl, hsame ▸ hcache hsame⟩
  · rw [if_pos hsame, if_pos hsame]
    obtain ⟨bytes, fails⟩ := disk
    cases fails with
    | nil => exact .inr ⟨List.not_mem_nil, _, rfl, holds_sector_copy blk bytes start⟩
    | cons fault fails =>
        cases fault with
        | true => exact .inl ⟨List.mem_cons_self .., _, rfl⟩
        | false => exact .inr ⟨by simp, _, rfl, holds_sector_copy blk bytes start⟩

/-- The loops of `open_file_r` over a chain: they fail when one of the sectors of the table cannot
be read, and otherwise store the chain, up to the bound of the loops. The induction is on the
chain; the cached sector is the one of the block before, or none yet. -/
theorem open_blocks_walk (hsize : f.bytePerSector = 512) {n index flgStart : Nat} {blk : Bytes}
    (hchain : Chain disk.bytes f index l) (hne : l ≠ []) (hrange : ∀ b ∈ l, f.InRange b)
    (htable : HasTable f fp done)
    (hcache : flgStart = endMark ∨ HoldsSector blk disk.bytes flgStart) :
    (true ∈ disk.fails.take (sectorReads f flgStart (l.take n)) ∧
      (openBlocks f n index flgStart blk fp disk).1 = none) ∨
    (true ∉ disk.fails.take (sectorReads f flgStart (l.take n)) ∧
      ∃ fp', openBlocks f n index flgStart blk fp disk =
          (some fp', { disk with
            fails := disk.fails.drop (sectorReads f flgStart (l.take n)) }) ∧
        HasTable f fp' (done ++ l.take n) ∧ SameButTable fp fp') := by
  induction l generalizing n index flgStart blk fp done disk with
  | nil => exact absurd rfl hne
  | cons b l ih =>
      obtain ⟨rfl, -, hchain⟩ := hchain
      cases n with
      | zero => exact .inr ⟨List.not_mem_nil, fp, rfl, by simpa using htable, rfl⟩
      | succ n =>
          have hb : f.InRange index := hrange index (by simp)
          have hcached : flgStart = f.fatSector index → HoldsSector blk disk.bytes flgStart := by
            intro hsame
            cases hcache with
            | inl hnone => exact absurd (hsame.symm.trans hnone) (fat_sector_ne_end hsize hb)
            | inr hholds => exact hholds
          rw [List.take_succ_cons, sectorReads, List.take_add, List.mem_append]
          rcases table_sector_read hcached with ⟨hfault, disk', hread⟩ | ⟨hnone, blk', hread, hholds⟩
          · refine .inl ⟨.inl hfault, ?_⟩
            simp only [openBlocks, hread]
            rfl
          · generalize (if flgStart ≠ f.fatSector index then 1 else 0) = k at *
            have hentry := read_holds_sector hsize hb hholds
            simp only [openBlocks, hread, ne_eq, not_true_eq_false, if_false, hentry]
            cases l with
            | nil =>
                rw [if_pos (Linked.nil_iff.mp hchain), List.take_nil]
                refine .inr ⟨not_or.mpr ⟨hnone, List.not_mem_nil⟩, _, rfl, ?_, rfl⟩
                simpa using htable.snoc index
            | cons c l =>
                have hlinked : Chain ({ disk with fails := disk.fails.drop k } : Disk).bytes f _
                  (c :: l) := hchain
                obtain ⟨rfl, hmark, hrest⟩ := hchain
                rw [if_neg hmark]
                rcases ih hlinked
                  (List.cons_ne_nil _ _) (fun b hb => hrange b (List.mem_cons_of_mem _ hb))
                  (htable.snoc index) (Or.inr hholds) with
                  ⟨hfault, hrun⟩ | ⟨hnone', fp', hrun, htable', hsame⟩
                · exact .inl ⟨.inr hfault, hrun⟩
                · refine .inr ⟨not_or.mpr ⟨hnone, hnone'⟩, fp', ?_, by simpa using htable', ?_⟩
                  · rw [hrun, List.drop_drop]
                  · exact hsame

/-- The loops of `open_file_r` on a disk without faults. -/
theorem open_blocks_chain (hf : Formatted f) (hok : disk.fails = []) {n index flgStart : Nat}
    {blk : Bytes} (hchain : Chain disk.bytes f index l) (hne : l ≠ [])
    (hrange : ∀ b ∈ l, b < f.numOfBlk) (htable : HasTable f fp done)
    (hcache : flgStart = endMark ∨ HoldsSector blk disk.bytes flgStart) :
    ∃ fp', openBlocks f n index flgStart blk fp disk = (some fp', disk) ∧
      HasTable f fp' (done ++ l.take n) ∧ SameButTable fp fp' := by
  rcases open_blocks_walk hf.bytePerSector hchain hne (fun b hb => hf.in_range (hrange b hb))
    htable hcache with ⟨hfault, -⟩ | ⟨-, fp', hrun, htable', hsame⟩
  · rw [hok, List.take_nil] at hfault
    cases hfault
  · refine ⟨fp', ?_, htable', hsame⟩
    rw [hrun, hok, List.drop_nil, ← hok]

/-- The loops of `open_file_r` on a disk without faults, wherever the allocation table leads. -/
theorem open_blocks_ok (hok : disk.fails = []) (n : Nat) : ∀ (index flgStart : Nat) (blk : Bytes)
    (fp : File), ∃ fp', openBlocks f n index flgStart blk fp disk = (some fp', disk) ∧
      SameButTable fp fp' := by
  induction n with
  | zero => exact fun _ _ _ fp => ⟨fp, rfl, rfl⟩
  | succ n ih =>
      intro index flgStart blk fp
      obtain ⟨blk', hread⟩ : ∃ blk', (if flgStart ≠ f.fatSector index then
          readSector disk 1 (f.fatSector index) blk else (0, blk, disk)) = (0, blk', disk) := by
        split
        case isTrue => exact ⟨_, read_sector_ok hok⟩
        case isFalse => exact ⟨blk, rfl⟩
      simp only [openBlocks, hread, ne_eq, not_true_eq_false, if_false]
      split
      · exact ⟨_, rfl, rfl⟩
      · exact ih _ _ blk' _

/-- Opening an entry whose chain is `l`: the stream, with the table of the chain. -/
theorem open_file_r_chain (hf : Formatted f) (hok : disk.fails = []) {d : Bytes}
    (hchain : Chain disk.bytes f (firstBlk d 0) l) (hne : l ≠ [])
    (hrange : ∀ b ∈ l, b < f.numOfBlk) (heap blk : Bytes) :
    ∃ fp, openFileR d f heap blk disk = (some fp, disk) ∧
      HasTable f fp (l.take (1024 * 1024)) ∧
      SameButTable { File.cleared heap with
        bsize := 8192
        fsize := fileSize d 0
        bytePerSector := 512
        count := 16 } fp := by
  have hempty : HasTable f { File.cleared heap with
      bsize := 8192
      fsize := fileSize d 0
      bytePerSector := 512
      count := 16 } [] := ⟨rfl, fun k b hk => by simp at hk⟩
  simp only [openFileR, hf.bytePerSector, hf.sectorPerBlk]
  exact open_blocks_chain hf hok hchain hne hrange hempty (Or.inl rfl)

end Sirius.Cfs
