import Sirius.Cfs.Names
import Sirius.Cfs.OpenFile

/-!
# The host tool

`fs.c` formats a disk image and copies files of the host into its root directory. It works on the
image as one host file with a position. Its `super_block` and `directory_entry` have the layout of
the structures of the other programs; `reserved` and `size_of_blk` are the fields `rsv` and
`sizeOfFat` of `SuperBlock`, and `hidden` stays 0.
-/

namespace Sirius.Cfs.Host

open Library

/-- A `FILE` of the host: the bytes, their number and the position. -/
structure HostFile where
  bytes : Bytes
  len : Nat
  pos : Nat

/-- `fseek(fd, off, SEEK_SET)` -/
def HostFile.fseek (fd : HostFile) (off : Nat) : HostFile := { fd with pos := off }

/-- `rewind(fd)` -/
def HostFile.rewind (fd : HostFile) : HostFile := fd.fseek 0

/-- `fread(buf, 1, count, fd)`: the buffer after the call. -/
def HostFile.fread (fd : HostFile) (buf : Bytes) (count : Nat) : Bytes × HostFile :=
  let read := min count (fd.len - fd.pos)
  (copyBytes buf 0 fd.bytes fd.pos read, { fd with pos := fd.pos + read })

/-- `fwrite(data, 1, count, fd)` -/
def HostFile.fwrite (fd : HostFile) (data : Bytes) (count : Nat) : HostFile where
  bytes := copyBytes fd.bytes fd.pos data 0 count
  len := max fd.len (fd.pos + count)
  pos := fd.pos + count

/-- The memory of an `unsigned` variable. -/
def wordBytes (v : Nat) : Bytes := writeWord (fun _ => 0#8) 0 v

/-- `fputc(c, fd)` -/
def HostFile.fputc (fd : HostFile) (c : Byte) : HostFile := fd.fwrite (fun _ => c) 1

/-! ### Formatting -/

/-- `num_of_blk` -/
def numOfBlk (fs : SuperBlock) : Nat :=
  (fs.numOfSectors + 2 ^ 32 - fs.rsv) % 2 ^ 32 / fs.sectorPerBlk

/-- `size_of_blk`: the blocks that the allocation table takes. -/
def sizeOfBlk (fs : SuperBlock) : Nat :=
  let bytes := numOfBlk fs * 4 % 2 ^ 32
  let blk := fs.bytePerSector * fs.sectorPerBlk
  if bytes % blk ≠ 0 then bytes / blk + 1 else bytes / blk

/-- The loop of `format_blk`. -/
def formatLoop (fs : SuperBlock) : (n i : Nat) → HostFile → HostFile
  | 0, _, fd => fd
  | n + 1, i, fd =>
      let data := if i < fs.sizeOfFat then 0x8fffffff else 0
      formatLoop fs n (i + 1) (fd.fwrite (wordBytes data) 4)

/-- `format_blk` -/
def formatBlk (fd : HostFile) (fs : SuperBlock) : HostFile :=
  (formatLoop fs fs.numOfBlk 0 (fd.fseek (fs.rsv * fs.bytePerSector))).rewind

/-- A loop that writes `n` zero words. -/
def clearLoop : (n : Nat) → HostFile → HostFile
  | 0, fd => fd
  | n + 1, fd => clearLoop n (fd.fwrite (wordBytes 0) 4)

/-- `clean_blk_enter` -/
def cleanBlkEnter (blk : Nat) (fd : HostFile) (fs : SuperBlock) : HostFile :=
  let firstSector := (fs.rsv + blk * fs.sectorPerBlk) % 2 ^ 32
  let off := firstSector * fs.bytePerSector % 2 ^ 32
  (clearLoop (fs.bytePerSector * fs.sectorPerBlk / 4) (fd.fseek off)).rewind

/-- `root_dir`, which also sets `fs->root_blk`. -/
def rootDir (fd : HostFile) (fs : SuperBlock) : HostFile × SuperBlock :=
  let fs := { fs with rootBlk := fs.sizeOfFat }
  let fd := fd.fseek (fs.rsv * fs.bytePerSector + fs.rootBlk * 4)
  let fd := fd.fwrite (wordBytes endMark) 4
  let fd := fd.fseek
    (fs.rsv * fs.bytePerSector + fs.sectorPerBlk * fs.bytePerSector * fs.rootBlk)
  let fd := (clearLoop (fs.sectorPerBlk * fs.bytePerSector / 4) fd).rewind
  (cleanBlkEnter fs.rootBlk fd fs, fs)

/-- The bytes of the structure `super_block`: the signature `KINGUIO_`, an empty name, and the
numbers. -/
def superBytes (fs : SuperBlock) : Bytes :=
  let m := copyBytes (fun _ => 0#8) 0
    (stringBytes [0x4b#8, 0x49#8, 0x4e#8, 0x47#8, 0x55#8, 0x49#8, 0x4f#8, 0x5f#8]) 0 8
  let m := writeWord (writeWord (writeWord m 20 fs.hidden) 24 fs.rsv) 28 fs.bytePerSector
  let m := writeWord (writeWord (writeWord m 32 fs.sectorPerBlk) 36 fs.numOfBlk) 40 fs.sizeOfFat
  writeWord (writeWord m 44 fs.rootBlk) 48 fs.numOfSectors

/-- `main` with `-f`: the image after formatting. `boot` is the boot sector that is copied to the
start of the image. -/
def format (fd : HostFile) (boot : Bytes) : HostFile :=
  let fs : SuperBlock :=
    { hidden := 0, rsv := 2, bytePerSector := 512, sectorPerBlk := 16, numOfBlk := 0,
      sizeOfFat := 0, rootBlk := 0, numOfSectors := fd.len % 2 ^ 32 / 512 }
  let fs := { fs with numOfBlk := numOfBlk fs }
  let fs := { fs with sizeOfFat := sizeOfBlk fs }
  let fd := formatBlk fd.rewind fs
  let (fd, fs) := rootDir fd fs
  let fd := fd.fwrite boot 512
  let fd := fd.fwrite (superBytes fs) 52
  fd.rewind

/-! ### Copying a file -/

/-- `read_super_block` -/
def readSuperBlock (fd : HostFile) : SuperBlock × HostFile :=
  let (fs, fd) := (fd.fseek 512).fread (fun _ => 0#8) 52
  (superBlockAt fs 0, fd.rewind)

/-- The loop of `search_blk_null` over the entries of the allocation table. -/
def searchLoop : (n index off : Nat) → (blk : Bytes) → HostFile → Nat × HostFile
  | 0, _, _, _, fd => (endMark, fd.rewind)
  | n + 1, index, off, blk, fd =>
      let (blk, fd) := fd.fread blk 4
      if readWord blk 0 = 0 then
        (index, ((fd.fseek off).fwrite (wordBytes endMark) 4).rewind)
      else searchLoop n (index + 1) ((off + 4) % 2 ^ 32) blk fd

/-- `search_blk_null` -/
def searchBlkNull (fd : HostFile) (fs : SuperBlock) : Nat × HostFile :=
  let off := fs.rsv * fs.bytePerSector % 2 ^ 32
  searchLoop fs.numOfBlk 0 off (fun _ => 0#8) (fd.fseek off)

/-- `write_blk` -/
def writeBlk (newBlk curBlk : Nat) (fd : HostFile) (fs : SuperBlock) : HostFile :=
  let off := (fs.rsv * fs.bytePerSector + 4 * curBlk) % 2 ^ 32
  ((fd.fseek off).fwrite (wordBytes newBlk) 4).rewind

/-- `root_sector` -/
def rootSector (fs : SuperBlock) : Nat := (fs.rsv + fs.rootBlk * fs.sectorPerBlk) % 2 ^ 32

/-- The offset of entry `index` of the root directory. -/
def entryOffset (fs : SuperBlock) (index : Nat) : Nat :=
  (rootSector fs * fs.bytePerSector + 128 * index) % 2 ^ 32

/-- The loop of `create_file` over the entries of the root directory: the first one that is not
busy, or 64. -/
def entryLoop (fs : SuperBlock) : (n index : Nat) → (dir2 : Bytes) → HostFile → Nat × HostFile
  | 0, index, _, fd => (index, fd)
  | n + 1, index, dir2, fd =>
      let (dir2, fd) := (fd.fseek (entryOffset fs index)).fread dir2 128
      if busy dir2 0 = 0#8 then (index, fd) else entryLoop fs n (index + 1) dir2 fd

/-- `create_file`: the result, the image and the entry. `source` is the host file at `path`, which
is opened only to see that it exists. -/
def createFile (path : List Byte) (source : Option (List Byte)) (fd : HostFile) (fs : SuperBlock)
    (attr : Byte) : Int × HostFile × Bytes :=
  let dir : Bytes := fun _ => 0#8
  if attr = 0x20#8 ∧ source = none then (-1, fd, dir)
  else
    let dir := padNulls (strcpy dir 0 (getFileName path)) 0
    let dir := writeWord dir 111 0
    let (blk, fd) := searchBlkNull fd fs
    let dir := writeWord dir 107 blk
    if blk = endMark then (1, fd, dir)
    else
      let (index, fd) := entryLoop fs 64 0 (fun _ => 0#8) fd
      if 64 ≤ index then (-1, fd, dir)
      else
        let dir := writeWord dir 115 index
        let dir := Function.update dir 97 0xff#8
        let dir := Function.update dir 98 attr
        let fd := ((fd.fseek (entryOffset fs index)).fwrite dir 128).rewind
        (0, fd, dir)

/-- The offset of the data of a block. -/
def dataOffset (fs : SuperBlock) (blk : Nat) : Nat :=
  (fs.rsv + blk * fs.sectorPerBlk) % 2 ^ 32 * fs.bytePerSector % 2 ^ 32

/-- The loop of `copy` over the bytes of the host file: `i` bytes are done, in `n` blocks of which
`curBlk` is the last one. -/
def copyLoop (fs : SuperBlock) : (content : List Byte) → (i n curBlk : Nat) → HostFile → HostFile
  | [], _, _, _, fd => fd
  | c :: content, i, n, curBlk, fd =>
      if i = fs.sectorPerBlk * fs.bytePerSector * n % 2 ^ 32 then
        let (newBlk, fd) := searchBlkNull fd fs
        let fd := writeBlk newBlk curBlk fd fs
        let fd := (fd.fseek (dataOffset fs newBlk)).fputc c
        copyLoop fs content (i + 1) (n + 1) newBlk fd
      else copyLoop fs content (i + 1) n curBlk (fd.fputc c)

/-- `copy`. Without a host file nothing happens. The loop goes up to `directory->filesize`, which is
an `unsigned`. -/
def copy (fd : HostFile) (fs : SuperBlock) (dir : Bytes) (source : Option (List Byte)) :
    HostFile :=
  match source with
  | none => fd
  | some content =>
      let dir := writeWord dir 111 content.length
      let fd := (fd.fseek (entryOffset fs (dirEntry dir 0))).fwrite dir 128
      let blk := firstBlk dir 0
      let content := content.take (fileSize dir 0)
      (copyLoop fs content 0 1 blk (fd.fseek (dataOffset fs blk))).rewind

/-- `main` with `-g`: copy a host file into the root directory. -/
def gravar (path : List Byte) (source : Option (List Byte)) (fd : HostFile) : Int × HostFile :=
  let (fs, fd) := readSuperBlock fd
  let (r, fd, dir) := createFile path source fd fs 0x20#8
  if r = 0 then (r, copy fd fs dir source) else (r, fd)

/-- `main` with `-p`: create a folder in the root directory. -/
def folder (path : List Byte) (fd : HostFile) : Int × HostFile :=
  let (fs, fd) := readSuperBlock fd
  let (r, fd, _) := createFile path none fd fs 0x40#8
  (r, fd)

end Sirius.Cfs.Host
