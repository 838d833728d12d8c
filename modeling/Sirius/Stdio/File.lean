import Sirius.Library.Bytes

/-!
# The stream record

`FILE` of the kernel and of the user library. The two differ in `dir_cluster` and `dir_entry`,
which only the user library has. Pipes, the standard streams and the files of the disk all use
this record.
-/

namespace Sirius.Stdio

open Library

/-- `FILE`, with the block table `blocks` as one function from the block number to its first
sector. The fields that no modelled function reads are left out: `curp` is assigned right before
each access through it. -/
structure File where
  level : Nat
  flags : BitVec 32
  bsize : Nat
  buffer : Bytes
  mode : Nat
  off : Nat
  off2 : Nat
  fname : Bytes
  fsize : Nat
  bytePerSector : Nat
  count : Nat
  numOfBlocks : Nat
  dirCluster : Nat
  dirEntry : Nat
  blocks : Nat → Nat

/-- A record cleared with `memset`, whose buffer is the memory `heap`. -/
def File.cleared (heap : Bytes) : File where
  level := 0
  flags := 0#32
  bsize := 0
  buffer := heap
  mode := 0
  off := 0
  off2 := 0
  fname := fun _ => 0#8
  fsize := 0
  bytePerSector := 0
  count := 0
  numOfBlocks := 0
  dirCluster := 0
  dirEntry := 0
  blocks := fun _ => 0

end Sirius.Stdio
