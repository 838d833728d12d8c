import Sirius.Cfs.Lookup
import Sirius.Cfs.Stream

/-!
# Reading files in the kernel

`open_file` of the kernel looks a name up in the root directory and opens the entry it finds;
`fgetc` and `fread` of `kernel/lib/stdio.c` read the stream block by block. `fseek` and `rewind` have
the text of `seek_r` and `rewind_r`.
-/

namespace Sirius.Cfs.Kernel

open Library Stdio

/-- `open_file`. The memory that `malloc` returns is given for each buffer that is not cleared;
`none` is the result `NULL`. -/
def openFile (filename : Bytes) (root heap blk : Bytes) (disk : Disk) : Option File × Disk :=
  let (r, f, disk) := readSuperBlock disk
  if r ≠ 0 then (none, disk)
  else
    let (r, d, disk) := readDirectoryEntry disk (fun _ => 0#8) f filename root
    if r ≠ 0 then (none, disk) else Cfs.openFileR d f heap blk disk

/-- `fgetc`. `none` is the call of `std_getc` for a standard stream. -/
def fgetc (fp : File) (disk : Disk) : Option (Int × File × Disk) :=
  if fp.flags = 2#32 ∨ fp.flags = 3#32 ∨ fp.flags = 4#32 then none
  else if fp.fsize ≤ fp.off then some (-1, fp, disk)
  else
    let (fp, disk) :=
      if fp.flags &&& 0x10#32 = 0#32 then
        let (_, buffer, disk) := fileReadBlock fp (fp.off / fp.bsize) disk
        ({ fp with
          flags := fp.flags ||| 0x10#32
          buffer }, disk)
      else (fp, disk)
    let r := fp.buffer fp.level
    let level := fp.level + 1
    let fp := if fp.bsize ≤ level then
        { fp with flags := fp.flags &&& ~~~0x10#32, level := 0 }
      else { fp with level }
    some (r.toNat, { fp with off := (fp.off + 1) % 2 ^ 32 }, disk)

/-- `fseek` -/
def fseek (numBytes : Int) (origin : Origin) (fp : File) : File := seekR numBytes origin fp

/-- `rewind` -/
def rewind (fp : File) : File := rewindR fp

/-- The loop of `fread`: `rc` bytes are in the buffer. -/
def freadLoop : (n rc : Nat) → (buffer : Bytes) → File → Disk → Option (Nat × Bytes × File × Disk)
  | 0, rc, buffer, fp, disk => some (rc, buffer, fp, disk)
  | n + 1, rc, buffer, fp, disk => do
      let (c, fp, disk) ← fgetc fp disk
      if c = -1 then pure (rc, buffer, fp, disk)
      else freadLoop n (rc + 1) (Function.update buffer rc (BitVec.ofInt 8 c)) fp disk

/-- `fread`: the number of items and the buffer. -/
def fread (buffer : Bytes) (size count : Nat) (fp : File) (disk : Disk) :
    Option (Nat × Bytes × File × Disk) := do
  let (rc, buffer, fp, disk) ← freadLoop (size * count % 2 ^ 32) 0 buffer fp disk
  pure (rc / size, buffer, fp, disk)

end Sirius.Cfs.Kernel
