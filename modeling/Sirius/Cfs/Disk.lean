import Sirius.Library.Bytes

/-!
# The disk and the layout of the Cole file system

The disk is an array of 512-byte sectors behind `read_sector` and `write_sector`. A request may
fail; `fails` lists the outcome of the coming requests, and once it is empty every request
succeeds. The super block, the file allocation table and the directory entries are read from the
bytes where the packed C structures put them.
-/

namespace Sirius.Cfs

open Library

/-- A disk: its bytes, and whether each of the coming requests fails. -/
structure Disk where
  bytes : Bytes
  fails : List Bool

/-- `read_sector`: the status (0 on success) and the buffer after the request. -/
def readSector (disk : Disk) (count addr : Nat) (buffer : Bytes) : Int × Bytes × Disk :=
  let next := { disk with fails := disk.fails.tail }
  if disk.fails.headD false then (-1, buffer, next)
  else (0, copyBytes buffer 0 disk.bytes (addr * 512) (count * 512), next)

/-- `write_sector`: the status (0 on success) and the disk after the request. -/
def writeSector (disk : Disk) (count addr : Nat) (buffer : Bytes) : Int × Disk :=
  let next := { disk with fails := disk.fails.tail }
  if disk.fails.headD false then (-1, next)
  else (0, { next with bytes := copyBytes disk.bytes (addr * 512) buffer 0 (count * 512) })

/-- `super_block_t`, without the signature and the volume name, which nothing reads. -/
structure SuperBlock where
  hidden : Nat
  rsv : Nat
  bytePerSector : Nat
  sectorPerBlk : Nat
  numOfBlk : Nat
  sizeOfFat : Nat
  rootBlk : Nat
  numOfSectors : Nat
  deriving DecidableEq, Repr

/-- The super block whose packed representation starts at `a`. -/
def superBlockAt (m : Bytes) (a : Nat) : SuperBlock where
  hidden := readWord m (a + 20)
  rsv := readWord m (a + 24)
  bytePerSector := readWord m (a + 28)
  sectorPerBlk := readWord m (a + 32)
  numOfBlk := readWord m (a + 36)
  sizeOfFat := readWord m (a + 40)
  rootBlk := readWord m (a + 44)
  numOfSectors := readWord m (a + 48)

/-- The super block depends on 52 bytes only. -/
theorem super_block_fields {m m' : Bytes} {a b : Nat} (h : ∀ i < 52, m' (b + i) = m (a + i)) :
    superBlockAt m' b = superBlockAt m a := by
  have hword : ∀ i, i + 4 ≤ 52 → readWord m' (b + i) = readWord m (a + i) :=
    fun i hi => read_word_congr fun k hk => by
      rw [Nat.add_assoc, Nat.add_assoc]
      exact h _ (by omega)
  simp only [superBlockAt, SuperBlock.mk.injEq]
  exact ⟨hword 20 (by omega), hword 24 (by omega), hword 28 (by omega), hword 32 (by omega),
    hword 36 (by omega), hword 40 (by omega), hword 44 (by omega), hword 48 (by omega)⟩

/-- The super block depends on its sector only. -/
theorem super_block_congr {m m' : Bytes} {a b : Nat} (h : ∀ i < 512, m' (b + i) = m (a + i)) :
    superBlockAt m' b = superBlockAt m a :=
  super_block_fields fun i hi => h i (by omega)

/-- `read_super_block`: the super block is the first sector of the partition, sector 1, and is
read into a zeroed buffer. -/
def readSuperBlock (disk : Disk) : Int × SuperBlock × Disk :=
  let (r, f, disk) := readSector disk 1 1 (fun _ => 0)
  (r, superBlockAt f 0, disk)

namespace SuperBlock

/-- `data_sector`: the first sector of block 0, where the allocation table starts. -/
def dataSector (f : SuperBlock) : Nat := (f.rsv + f.hidden) % 2 ^ 32

/-- `first_sector` of a block. -/
def firstSector (f : SuperBlock) (blk : Nat) : Nat :=
  (blk * f.sectorPerBlk + f.dataSector) % 2 ^ 32

end SuperBlock

/-! ### Directory entries

`directory_entry_t` is 128 bytes. A directory block holds 64 of them. -/

/-- `dir->busy` of the entry at `e`. -/
def busy (m : Bytes) (e : Nat) : Byte := m (e + 97)

/-- `dir->attr` of the entry at `e`. -/
def attr (m : Bytes) (e : Nat) : Byte := m (e + 98)

/-- `dir->first_blk` of the entry at `e`. -/
def firstBlk (m : Bytes) (e : Nat) : Nat := readWord m (e + 107)

/-- `dir->file_size` of the entry at `e`. -/
def fileSize (m : Bytes) (e : Nat) : Nat := readWord m (e + 111)

/-- `dir->dir_entry` of the entry at `e`. -/
def dirEntry (m : Bytes) (e : Nat) : Nat := readWord m (e + 115)

/-! ### Requests that succeed -/

variable {disk : Disk} {count addr : Nat} {buffer : Bytes}

/-- A read of a disk without faults. -/
@[simp] theorem read_sector_ok (h : disk.fails = []) :
    readSector disk count addr buffer =
      (0, copyBytes buffer 0 disk.bytes (addr * 512) (count * 512), disk) := by
  cases disk
  simp_all [readSector]

/-- A write to a disk without faults. -/
@[simp] theorem write_sector_ok (h : disk.fails = []) :
    writeSector disk count addr buffer =
      (0, { disk with bytes := copyBytes disk.bytes (addr * 512) buffer 0 (count * 512) }) := by
  cases disk
  simp_all [writeSector]

/-- Reading the super block of a disk without faults. -/
theorem read_super_block_ok (h : disk.fails = []) :
    readSuperBlock disk = (0, superBlockAt disk.bytes 512, disk) := by
  have hsame : superBlockAt (copyBytes (fun _ => 0) 0 disk.bytes (1 * 512) (1 * 512)) 0 =
      superBlockAt disk.bytes 512 :=
    super_block_congr fun i hi => copy_bytes_inside (by omega)
  simp only [readSuperBlock, read_sector_ok h, hsame]

end Sirius.Cfs
