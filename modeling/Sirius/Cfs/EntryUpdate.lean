import Sirius.Cfs.UniqueNames

/-!
# The entry of an open file

`create_file` numbers the entries of a directory from 0, and the number goes with the entry into the
stream that `open_file` returns. `update_directory_entry` writes the name and the size of a stream
into the entry with that number. It accepts the numbers from 1 to 64, so the first file of a directory
is never updated, and number 64 would be the entry behind the last one.
-/

namespace Sirius.Cfs.User

open Library Stdio

/-- The stream belongs to the entry `dir` of the directory block `D`, and its name fits. -/
structure OpenOn (D : Nat) (dir : Bytes) (fp : File) : Prop where
  dirCluster : fp.dirCluster = D
  dirEntry : fp.dirEntry = dirEntry dir 0
  name : (getFileName (cString fp.fname 256 0)).length ≤ filenameMax
  size : fp.fsize < 2 ^ 32

/-- The image after `update_directory_entry`. -/
def imageAfterUpdate (bytes : Bytes) (f : SuperBlock) (fp : File) : Bytes :=
  (updateDirectoryEntry f fp ⟨bytes, []⟩).2.bytes

/-- `update_directory_entry` succeeds, and it writes the name and the size of the stream into its
entry and nothing else: all bytes of the disk outside the entry stay, and so do the marks, the first
block and the number in the entry. -/
structure UpdatesOwn (bytes : Bytes) (f : SuperBlock) (fp : File) : Prop where
  status : (updateDirectoryEntry f fp ⟨bytes, []⟩).1 = 0
  outside : ∀ x, x < entryAt f (fp.dirCluster, fp.dirEntry) ∨
    entryAt f (fp.dirCluster, fp.dirEntry) + 128 ≤ x → imageAfterUpdate bytes f fp x = bytes x
  name : ∀ k < 96, imageAfterUpdate bytes f fp (entryAt f (fp.dirCluster, fp.dirEntry) + k) =
    (getFileName (cString fp.fname 256 0)).getD k space
  size : fileSize (imageAfterUpdate bytes f fp) (entryAt f (fp.dirCluster, fp.dirEntry)) = fp.fsize
  kept : ∀ k, 97 ≤ k ∧ k < 111 ∨ 115 ≤ k ∧ k < 128 →
    imageAfterUpdate bytes f fp (entryAt f (fp.dirCluster, fp.dirEntry) + k) =
      bytes (entryAt f (fp.dirCluster, fp.dirEntry) + k)

variable {bytes heap blk d dir : Bytes} {f : SuperBlock} {D : Nat} {fp : File} {disk : Disk}
  {path m : List Byte} {attr : BitVec 32}

/-- The entry that `create_file` returns has a number below 64. -/
theorem create_file_index (hsize : f.numOfBlk < 2 ^ 32)
    (hzero : (createFile f path attr blk heap disk).1 = 0) :
    dirEntry (createFile f path attr blk heap disk).2.1 0 < 64 := by
  obtain ⟨i, b, ready, halloc, -, hrun⟩ | ⟨-, herror, -⟩ :=
    create_file_cases hsize path attr blk heap disk
  · have hrange := halloc.range
    rw [hrun, new_entry_index (by omega)]
    exact hrange
  · exact absurd hzero herror

/-- The stream that `open_file` makes for the entry `d`. -/
theorem open_entry_own (hok : disk.fails = [])
    (hopen : (openEntry d { f with rootBlk := D } m heap blk disk).1 = some fp) : OpenOn D d fp := by
  obtain ⟨fp', hrun, hfname, -, -, hcluster, hindex, hsize⟩ :=
    open_entry_ok hok d { f with rootBlk := D } m heap blk
  rw [hrun] at hopen
  cases hopen
  refine ⟨hcluster, hindex, ?_, hsize ▸ read_word_lt⟩
  have hname : cString fp.fname 256 0 = storedName d 0 := by
    rw [hfname]
    rfl
  rw [hname, get_file_name_last]
  exact (last_part_length _).trans (stored_name_length d 0)

/-- Entry 0 is refused. -/
theorem update_refuses_first (hindex : fp.dirEntry = 0) :
    updateDirectoryEntry f fp disk = (-1, disk) :=
  if_pos (by omega)

/-- The entries from 1 to 63 are updated. -/
theorem updates_own (hsectors : f.sectorPerBlk = 16) (hlow : 1 ≤ fp.dirEntry)
    (hhigh : fp.dirEntry < 64) (hlength : (getFileName (cString fp.fname 256 0)).length ≤ filenameMax)
    (hsize : fp.fsize < 2 ^ 32) (bytes : Bytes) : UpdatesOwn bytes f fp := by
  have hrun : updateDirectoryEntry f fp ⟨bytes, []⟩ = (0, ⟨updatedImage bytes f fp, []⟩) :=
    update_directory_entry_eq hsectors hlow (by omega)
  have himage : imageAfterUpdate bytes f fp = updatedImage bytes f fp := by
    rw [imageAfterUpdate, hrun]
  refine ⟨by rw [hrun], fun x hx => ?_, fun k hk => ?_, ?_, fun k hk => ?_⟩
  · rw [himage]
    exact updated_image_outside hlength hx
  · rw [himage, updated_image_entry hhigh (by omega)]
    exact update_entry_name hk
  · rw [himage]
    exact updated_image_size hhigh hsize
  · rw [himage]
    exact updated_image_kept hhigh hlength hk

/-- A stream on an entry that `create_file` assigned: `update_directory_entry` changes this entry and
no other exactly when it is not the first one of the directory. The disk may have changed in between,
and the requests of `create_file` may have failed. -/
theorem updates_own_iff (f : SuperBlock) (hsectors : f.sectorPerBlk = 16)
    (hblocks : f.numOfBlk < 2 ^ 32) (D : Nat) (path : List Byte) (attr : BitVec 32) (blk heap : Bytes)
    (disk : Disk)
    (hcreate : (createFile { f with rootBlk := D } path attr blk heap disk).1 = 0) (fp : File)
    (hfp : OpenOn D (createFile { f with rootBlk := D } path attr blk heap disk).2.1 fp)
    (bytes : Bytes) : UpdatesOwn bytes f fp ↔ fp.dirEntry ≠ 0 := by
  have hindex : fp.dirEntry < 64 := by
    rw [hfp.dirEntry]
    exact create_file_index hblocks hcreate
  constructor
  · intro h hfirst
    have hstatus := h.status
    rw [update_refuses_first hfirst] at hstatus
    have herror : (-1 : Int) = 0 := hstatus
    exact absurd herror (by decide)
  · intro hnot
    exact updates_own hsectors (by omega) hindex hfp.name hfp.size bytes

/-- A stream on the file `b` that was created second, with seven bytes. -/
def streamB : File :=
  { File.cleared (fun _ => 0#8) with
    fname := stringBytes [0x62#8]
    fsize := 7
    dirCluster := 1
    dirEntry := 1 }

theorem updates_own_iff_second : UpdatesOwn imageA (superBlockAt markedDisk 512) streamB := by
  refine (updates_own_iff (superBlockAt markedDisk 512) (by decide) (by decide) 1 [0x62#8] 0x20#32
    (fun _ => 0#8) (fun _ => 0#8) ⟨imageA, []⟩ (by decide +kernel) streamB ?_ imageA).mpr (by decide)
  exact ⟨rfl, by decide +kernel, by decide, by decide⟩

/-- The file that `open_file("a", "w")` creates in an empty directory is entry 0. -/
theorem first_file_not_updated : ¬ ∀ (f : SuperBlock), f.sectorPerBlk = 16 → f.numOfBlk < 2 ^ 32 →
    ∀ (D : Nat) (path : List Byte) (attr : BitVec 32) (blk heap : Bytes) (disk : Disk),
    (createFile { f with rootBlk := D } path attr blk heap disk).1 = 0 → ∀ fp : File,
    OpenOn D (createFile { f with rootBlk := D } path attr blk heap disk).2.1 fp →
    ∀ bytes, UpdatesOwn bytes f fp := by
  intro h
  have hopen : (openFile [0x43#8, 0x3a#8] [0x61#8] [] [0x77#8] (fun _ => 0#8) (fun _ => 0#8)
      (fun _ => 0#8) ⟨markedDisk, []⟩).1.map (fun fp => (fp.dirCluster, fp.dirEntry, fp.fsize,
        (getFileName (cString fp.fname 256 0)).length)) = some (1, 0, 0, 1) := by
    decide +kernel
  obtain ⟨fp, -, hfields⟩ := Option.map_eq_some_iff.mp hopen
  simp only [Prod.mk.injEq] at hfields
  obtain ⟨hcluster, hindex, hsize, hname⟩ := hfields
  have hown := h (superBlockAt markedDisk 512) (by decide) (by decide) 1 [0x61#8] 0x20#32
    (fun _ => 0#8) (fun _ => 0#8) ⟨markedDisk, []⟩ (by decide +kernel) fp
    ⟨hcluster, hindex.trans (by decide +kernel), by rw [hname]; decide, by omega⟩ markedDisk
  have hstatus := hown.status
  rw [update_refuses_first hindex] at hstatus
  have herror : (-1 : Int) = 0 := hstatus
  exact absurd herror (by decide)

end Sirius.Cfs.User
