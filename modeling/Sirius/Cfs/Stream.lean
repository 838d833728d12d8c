import Sirius.Cfs.Names
import Sirius.Cfs.OpenFile

/-!
# Files of the user library

Reading and writing a file of the disk through the stream of `user/lib/sys/file.c`. The buffer of a
stream holds one block; flag 0x10 says that a block was read into it, and flag 0x80 that the file
was written to. `flush_r` writes the buffer to the block of the current position.
-/

namespace Sirius.Cfs

open Library Stdio

/-- The end of `open_file`, for the entry `d` that it found in the directory block `root_blk`. -/
def openEntry (d : Bytes) (f : SuperBlock) (m : List Byte) (heap blk : Bytes) (disk : Disk) :
    Option File × Disk :=
  let (fp, disk) := openFileR d f heap blk disk
  (fp.map fun fp => { fp with
    fname := assertFn (copyBytes fp.fname 0 d 0 96) 96
    mode := if m.getD 0 0#8 = 0x77#8 ∨ m.getD 1 0#8 = 0x2b#8 ∨ m.getD 0 0#8 = 0x61#8 then 2 else 1
    flags := 0x6#32
    dirCluster := f.rootBlk
    dirEntry := dirEntry d 0
    off := if m.getD 0 0#8 = 0x61#8 then fileSize d 0 else fp.off }, disk)

/-- `file_write_block` -/
def fileWriteBlock (fp : File) (addr : Nat) (disk : Disk) : Int × Disk :=
  if fp.numOfBlocks ≤ addr then (-1, disk)
  else writeSector disk fp.count (fp.blocks addr) fp.buffer

/-- The changes of `update_directory_entry` to the entry at `dir`. -/
def updateEntry (root : Bytes) (dir : Nat) (fp : File) : Bytes :=
  let root := fillBytes root dir 96 0#8
  let root := padNulls (strcpy root dir (getFileName (cString fp.fname 256 0))) dir
  let root := Function.update root (dir + 96) 0#8
  writeWord root (dir + 111) fp.fsize

/-- `update_directory_entry` -/
def updateDirectoryEntry (f : SuperBlock) (fp : File) (disk : Disk) : Int × Disk :=
  if fp.dirEntry < 1 then (-1, disk)
  else if 64 < fp.dirEntry then (-1, disk)
  else
    let firstSector := f.firstSector fp.dirCluster
    let (r, root, disk) := readSector disk f.sectorPerBlk firstSector (fun _ => 0#8)
    if r ≠ 0 then (r, disk)
    else
      writeSector disk f.sectorPerBlk firstSector (updateEntry root (fp.dirEntry * 128) fp)

/-- `file_update` -/
def fileUpdate (fp : File) (disk : Disk) : Int × Disk :=
  let (r, f, disk) := readSuperBlock disk
  if r ≠ 0 then (-1, disk) else updateDirectoryEntry f fp disk

/-- `flush_r` -/
def flushR (fp : File) (disk : Disk) : Int × Disk :=
  if fp.flags &&& 0x6#32 = 0#32 ∨ fp.mode ≠ 2 then (-1, disk)
  else if fp.flags &&& 0x80#32 = 0#32 then (0, disk)
  else if fp.flags &&& 0x40#32 = 0#32 then
    let (_, disk) := fileWriteBlock fp (fp.off / fp.bsize) disk
    fileUpdate fp disk
  else fileUpdate fp disk

/-- `close_r`: `file_close` frees the memory of the stream and returns 0. -/
def closeR (fp : File) (disk : Disk) : Int × Disk :=
  let (_, disk) := flushR fp disk
  (0, disk)

/-- The start of `putc_r` and of `getc_r`: read the block of the position if none is loaded. -/
def loadBlock (fp : File) (disk : Disk) : File × Disk :=
  if fp.flags &&& 0x10#32 = 0#32 ∧ fp.off ≤ fp.fsize ∧ fp.fsize ≠ 0 then
    let (_, buffer, disk) := fileReadBlock fp (fp.off / fp.bsize) disk
    ({ fp with
      flags := fp.flags ||| 0x10#32
      buffer }, disk)
  else (fp, disk)

/-- `putc_r` on a file of the disk, which is the case that its first tests on the flags leave. -/
def putFile (ch : BitVec 32) (fp : File) (disk : Disk) : Int × File × Disk :=
  let (fp, disk) := loadBlock fp disk
  let level := fp.off % fp.bsize
  let fp := { fp with
    flags := fp.flags ||| 0x10#32
    level
    buffer := Function.update fp.buffer level (ch.setWidth 8) }
  let last := fp.bsize - 1 ≤ level
  let fp := if last then { fp with flags := fp.flags &&& ~~~0x10#32, level := 0 } else fp
  let disk := if last then (flushR fp disk).2 else disk
  let off := (fp.off + 1) % 2 ^ 32
  (0, { fp with
    off
    fsize := if fp.fsize < off then (fp.fsize + 1) % 2 ^ 32 else fp.fsize
    flags := fp.flags ||| 0x80#32 }, disk)

/-- `putc_r`. `none` is the call of `stdputc_r` for a standard stream. -/
def putcR (ch : BitVec 32) (fp : File) (disk : Disk) : Option (Int × File × Disk) :=
  if fp.flags = 5#32 then some (0, fp, disk)
  else if fp.flags = 2#32 ∨ fp.flags = 3#32 ∨ fp.flags = 4#32 then none
  else some (putFile ch fp disk)

/-- `getc_r` on a file of the disk. -/
def getFile (fp : File) (disk : Disk) : Int × File × Disk :=
  if fp.fsize ≤ fp.off then (-1, fp, disk)
  else
    let (fp, disk) := loadBlock fp disk
    let level := fp.off % fp.bsize
    let fp := { fp with level }
    let r := fp.buffer level
    let fp := if fp.bsize - 1 ≤ level then
        { fp with flags := fp.flags &&& ~~~0x10#32, level := 0 }
      else fp
    (r.toNat, { fp with off := (fp.off + 1) % 2 ^ 32 }, disk)

/-- `getc_r`. `none` is the call of `stdgetc_r` for a standard stream. -/
def getcR (fp : File) (disk : Disk) : Option (Int × File × Disk) :=
  if fp.flags = 5#32 then some (0, fp, disk)
  else if fp.flags = 2#32 ∨ fp.flags = 3#32 ∨ fp.flags = 4#32 then none
  else some (getFile fp disk)

/-- A `long` converted to `unsigned`. -/
def unsignedOfLong (n : Int) : Nat := (n % 2 ^ 32).toNat

/-- `SEEK_SET`, `SEEK_CUR` and `SEEK_END`; every other origin leaves the position alone. -/
inductive Origin
  | set
  | cur
  | fromEnd
  | other

/-- `seek_r`: only the offsets and the level change. -/
def seekR (numBytes : Int) (origin : Origin) (fp : File) : File :=
  let fp := match origin with
    | .set => { fp with off := unsignedOfLong numBytes, off2 := unsignedOfLong numBytes }
    | .cur => { fp with
        off := unsignedOfLong (fp.off + numBytes)
        off2 := unsignedOfLong (fp.off2 + numBytes) }
    | .fromEnd => { fp with
        off := unsignedOfLong (fp.fsize - numBytes)
        off2 := unsignedOfLong (fp.fsize - numBytes) }
    | .other => fp
  { fp with level := fp.off % fp.bsize }

/-- `rewind_r` -/
def rewindR (fp : File) : File :=
  { fp with off := 0, off2 := 0, level := 0, flags := fp.flags &&& ~~~0x10#32 }

end Sirius.Cfs
