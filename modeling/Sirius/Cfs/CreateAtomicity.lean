import Sirius.Cfs.CreateFile

/-!
# Atomicity of `create_file`

An error result leaves the disk as it was: every request before the write of the allocation table
is a read, and `create_file` reports no error after that write. The write of the directory block
comes last, and its status is not looked at. When it fails, `create_file` returns 0 although the
entry is not on the disk and the block stays taken.
-/

namespace Sirius.Cfs.User

open Library

/-- The address of the directory block. -/
def dirAddr (f : SuperBlock) : Nat := f.firstSector f.rootBlk * 512

/-- An error leaves the disk unchanged. After a success the entry is in the directory block on the
disk, busy, and its first block, which was free, is a chain of one block in the allocation table. -/
def Atomic (f : SuperBlock) (path : List Byte) (attr : BitVec 32) (blk heap : Bytes)
    (disk : Disk) : Prop :=
  let (r, dir, disk') := createFile f path attr blk heap disk
  (r ≠ 0 → disk'.bytes = disk.bytes) ∧
  (r = 0 →
    (dirEntry dir 0 + 1) * 128 ≤ f.sectorPerBlk * 512 ∧
    busy dir 0 ≠ 0#8 ∧
    (∀ k < 128, disk'.bytes (dirAddr f + dirEntry dir 0 * 128 + k) = dir k) ∧
    firstBlk dir 0 < f.numOfBlk ∧
    tableEntry disk.bytes f (firstBlk dir 0) = 0 ∧
    tableEntry disk'.bytes f (firstBlk dir 0) = endMark)

/-- The call gets past the write of the allocation table: entry `i` of the directory block is the
first free one, block `b` is the first free one, and the requests up to that write succeed. -/
structure Allocates (f : SuperBlock) (heap : Bytes) (disk : Disk) (i b : Nat) : Prop where
  range : i < 64
  unused : busy (directoryBlock disk f heap) (i * 128) = 0#8
  used : ∀ j < i, busy (directoryBlock disk f heap) (j * 128) ≠ 0#8
  free : FreeFrom disk.bytes f 0 f.numOfBlk b
  serves : disk.Serves (b / 512 + 3)

/-- The directory block covers the address `a`. -/
def InDirectory (f : SuperBlock) (a : Nat) : Prop :=
  dirAddr f ≤ a ∧ a < dirAddr f + f.sectorPerBlk * 512

/-- The directory block as `create_file` writes it. -/
def newDirectory (f : SuperBlock) (path : List Byte) (attr : BitVec 32) (heap : Bytes)
    (disk : Disk) (i b : Nat) : Bytes :=
  copyBytes (directoryBlock disk f heap) (i * 128) (newEntry path attr i b) 0 128

/-- What the rest of the call relies on: the entry lies in the sectors of the directory block, the
write of the directory block does not fail, and the entry of block `b` in the allocation table is
neither in the directory block nor in a sector that is cleared for a new directory. -/
structure Commits (f : SuperBlock) (path : List Byte) (attr : BitVec 32) (heap : Bytes)
    (disk : Disk) (i b : Nat) : Prop where
  room : (i + 1) * 128 ≤ f.sectorPerBlk * 512
  written : ¬ disk.Faulty
    (b / 512 + 3 + clearRequests f attr (disk.fails.drop (b / 512 + 3)))
  kept : ¬ InDirectory f (tableAddr f b) →
    ∀ j < clearedSectors f attr (disk.fails.drop (b / 512 + 3)),
      (f.firstSector b + j) % 2 ^ 32 ≠ tableAddr f b / 512
  inDirectory : InDirectory f (tableAddr f b) →
    readWord (newDirectory f path attr heap disk i b) (tableAddr f b - dirAddr f) = endMark

variable {f : SuperBlock} {path : List Byte} {attr : BitVec 32} {blk heap : Bytes} {disk : Disk}
  {b c i j k : Nat}

/-! ### The new entry -/

theorem new_entry_busy : busy (newEntry path attr i b) 0 = 0xff#8 := by
  unfold newEntry busy
  rw [write_word_outside (by omega), Function.update_of_ne (by omega), Function.update_self]

theorem new_entry_first_blk (hb : b < 2 ^ 32) : firstBlk (newEntry path attr i b) 0 = b :=
  read_write_word_same hb

theorem new_entry_index (hi : i < 2 ^ 32) : dirEntry (newEntry path attr i b) 0 = i := by
  unfold newEntry dirEntry
  rw [read_write_word_other (by omega), read_update_word (by omega), read_update_word (by omega)]
  exact read_write_word_same hi

/-- The byte behind a name that fits stays null. -/
theorem new_entry_reserved (hname : (getFileName path).length ≤ 96) :
    newEntry path attr i b 96 = 0#8 := by
  unfold newEntry
  rw [write_word_outside (by omega), Function.update_of_ne (by omega),
    Function.update_of_ne (by omega), write_word_outside (by omega), pad_nulls_outside (by omega),
    strcpy, copyBytes, stringBytes]
  split
  · rw [Nat.zero_add, Nat.sub_zero, List.getD_eq_getElem?_getD, List.getElem?_eq_none hname]
    rfl
  · rfl

/-! ### The outcome of a call -/

theorem Allocates.unique (h : Allocates f heap disk i b) (h' : Allocates f heap disk j c) :
    i = j ∧ b = c := by
  refine ⟨?_, h.free.unique h'.free⟩
  by_contra hne
  cases Nat.lt_or_gt_of_ne hne with
  | inl hlt => exact h'.used i hlt h.unused
  | inr hlt => exact h.used j hlt h'.unused

/-- The disk before the directory block is written: the block is marked in the allocation table
and, for a directory, cleared. -/
structure Prepared (f : SuperBlock) (attr : BitVec 32) (disk : Disk) (b : Nat) (ready : Disk) :
    Prop where
  fails : ready.fails =
    disk.fails.drop (b / 512 + 3 + clearRequests f attr (disk.fails.drop (b / 512 + 3)))
  bytes : ∀ x, ready.bytes x =
    if ∃ j < clearedSectors f attr (disk.fails.drop (b / 512 + 3)),
        (f.firstSector b + j) % 2 ^ 32 = x / 512 then 0#8
    else writeWord disk.bytes (tableAddr f b) endMark x

/-- A call either gets past the write of the allocation table, and then writes the directory block
and returns 0, or it returns an error and leaves the disk unchanged. -/
theorem create_file_cases (hsize : f.numOfBlk < 2 ^ 32) (path : List Byte) (attr : BitVec 32)
    (blk heap : Bytes) (disk : Disk) :
    (∃ i b ready, Allocates f heap disk i b ∧ Prepared f attr disk b ready ∧
      createFile f path attr blk heap disk =
        (0, newEntry path attr i b, (writeSector ready f.sectorPerBlk (f.firstSector f.rootBlk)
          (newDirectory f path attr heap disk i b)).2)) ∨
    ((∀ i b, ¬ Allocates f heap disk i b) ∧ (createFile f path attr blk heap disk).1 ≠ 0 ∧
      (createFile f path attr blk heap disk).2.2.bytes = disk.bytes) := by
  unfold createFile readRoot
  by_cases hfault : disk.Faulty 0
  · rw [Disk.read_sector_faulty hfault]
    refine .inr ⟨fun i b h => h.serves 0 (by omega) hfault, ?_, rfl⟩
    show (-1 : Int) ≠ 0
    omega
  have hserved : disk.Serves 1 := Disk.serves_one.mpr hfault
  rw [Disk.read_sector_served hfault]
  simp only [ne_eq, not_true_eq_false, if_false]
  have hroot : copyBytes (fillBytes heap 0 8192 0) 0 disk.bytes (f.firstSector f.rootBlk * 512)
      (f.sectorPerBlk * 512) = directoryBlock disk f heap := rfl
  rw [hroot]
  obtain ⟨i, -, hi, hunused, hused, hloop⟩ | ⟨hnone, hloop⟩ :=
    entry_loop_spec (directoryBlock disk f heap) 64 0 0
  · simp only [hloop, if_pos (And.intro hunused (show i < 64 by omega))]
    -- the requests before the search are one read, those of the search are counted by the block
    obtain ⟨b, blk', hfree, hserves, hsearch⟩ | ⟨hnone, hmark, hbytes⟩ :=
      search_blk_null_spec f blk (disk.skip 1)
    · have hhigh := hfree.high
      have hne : b ≠ endMark := by
        unfold endMark
        omega
      have hcount : 1 + (b / 512 + 2) = b / 512 + 3 := by omega
      simp only [hsearch, if_neg hne]
      obtain ⟨hfails, hclear⟩ := clear_spec f attr b blk'
        { (disk.skip 1).skip (b / 512 + 2) with
          bytes := writeWord disk.bytes (tableAddr f b) endMark }
      rw [Disk.skip_skip, hcount] at hfails hclear
      refine .inl ⟨i, b, _, ⟨by omega, hunused, fun j hj => hused j (by omega) hj, hfree, ?_⟩,
        ⟨hfails.trans ?_, hclear⟩, ?_⟩
      · rw [← hcount]
        exact (Disk.serves_skip hserved).mp hserves
      · show (disk.fails.drop _).drop _ = _
        rw [List.drop_drop]
        rfl
      · rw [Disk.skip_skip, hcount]
        rfl
    · simp only [hmark, if_true]
      refine .inr ⟨fun j b h => hnone b h.free ?_, ?_, hbytes⟩
      · refine (Disk.serves_skip hserved).mpr (h.serves.mono ?_)
        omega
      · show (1 : Int) ≠ 0
        omega
  · have hfull : ¬ (busy (directoryBlock disk f heap)
        (entryLoop (directoryBlock disk f heap) 64 0 0).2 = 0#8 ∧
          (entryLoop (directoryBlock disk f heap) 64 0 0).1 < 64) := by
      rw [hloop]
      omega
    rw [show entryLoop (directoryBlock disk f heap) 64 0 0 =
      ((entryLoop (directoryBlock disk f heap) 64 0 0).1,
        (entryLoop (directoryBlock disk f heap) 64 0 0).2) from rfl]
    simp only [if_neg hfull]
    refine .inr ⟨fun i b h => hnone i (Nat.zero_le i) (by have := h.range; omega) h.unused, ?_, rfl⟩
    show (-1 : Int) ≠ 0
    omega

/-! ### What is on the disk afterwards -/

theorem table_addr_aligned : tableAddr f b % 4 = 0 := by
  unfold tableAddr
  omega

theorem dir_addr_aligned : dirAddr f % 512 = 0 := by
  unfold dirAddr
  omega

/-- An entry of the allocation table lies in one sector. -/
theorem table_addr_sector (hk : k < 4) : (tableAddr f b + k) / 512 = tableAddr f b / 512 := by
  have haligned := table_addr_aligned (f := f) (b := b)
  omega

/-- The directory block as it was read. -/
theorem directory_block_inside (heap : Bytes) {x : Nat} (hx : x < f.sectorPerBlk * 512) :
    directoryBlock disk f heap x = disk.bytes (dirAddr f + x) := by
  have hcopy : directoryBlock disk f heap (0 + x) = disk.bytes (dirAddr f + x) :=
    copy_bytes_inside hx
  rwa [Nat.zero_add] at hcopy

/-- The new directory block holds the new entry. -/
theorem new_directory_entry (hk : k < 128) :
    newDirectory f path attr heap disk i b (i * 128 + k) = newEntry path attr i b k := by
  have hcopy : newDirectory f path attr heap disk i b (i * 128 + k) =
      newEntry path attr i b (0 + k) := copy_bytes_inside hk
  rwa [Nat.zero_add] at hcopy

/-- The request of the directory block. -/
theorem Prepared.faulty {ready : Disk} (h : Prepared f attr disk b ready) :
    ready.Faulty 0 ↔ disk.Faulty
      (b / 512 + 3 + clearRequests f attr (disk.fails.drop (b / 512 + 3))) := by
  have hskip : (disk.skip (b / 512 + 3 +
      clearRequests f attr (disk.fails.drop (b / 512 + 3)))).Faulty 0 ↔ ready.Faulty 0 := by
    rw [Disk.Faulty, Disk.Faulty, h.fails]
    rfl
  exact hskip.symm.trans Disk.faulty_skip

/-- The entry of block `b` in the allocation table before the directory block is written: it is the
end mark unless its sector was cleared. -/
theorem Prepared.table_entry {ready : Disk} (h : Prepared f attr disk b ready) :
    tableEntry ready.bytes f b = endMark ↔
      ∀ j < clearedSectors f attr (disk.fails.drop (b / 512 + 3)),
        (f.firstSector b + j) % 2 ^ 32 ≠ tableAddr f b / 512 := by
  by_cases hclear : ∃ j < clearedSectors f attr (disk.fails.drop (b / 512 + 3)),
      (f.firstSector b + j) % 2 ^ 32 = tableAddr f b / 512
  · have hzero : tableEntry ready.bytes f b = 0 := by
      have hword : tableEntry ready.bytes f b = readWord (fun _ => 0#8) 0 :=
        read_word_congr fun k hk => by
          rw [h.bytes, table_addr_sector hk, if_pos hclear]
      exact hword
    obtain ⟨j, hj, hsector⟩ := hclear
    constructor
    · intro hmark
      rw [hzero] at hmark
      cases hmark
    · exact fun hkept => absurd hsector (hkept j hj)
  · have hmark : tableEntry ready.bytes f b = endMark := by
      have hword : tableEntry ready.bytes f b =
          readWord (writeWord disk.bytes (tableAddr f b) endMark) (tableAddr f b) :=
        read_word_congr fun k hk => by
          rw [h.bytes, table_addr_sector hk, if_neg hclear]
      rw [hword]
      exact read_write_word_same (by decide)
    exact iff_of_true hmark fun j hj hsector => hclear ⟨j, hj, hsector⟩

/-- The entry of block `b` in the allocation table after the directory block is written. -/
theorem table_entry_directory (f : SuperBlock) (b : Nat) (ready : Disk) (root : Bytes) :
    (InDirectory f (tableAddr f b) →
      tableEntry (copyBytes ready.bytes (dirAddr f) root 0 (f.sectorPerBlk * 512)) f b =
        readWord root (tableAddr f b - dirAddr f)) ∧
    (¬ InDirectory f (tableAddr f b) →
      tableEntry (copyBytes ready.bytes (dirAddr f) root 0 (f.sectorPerBlk * 512)) f b =
        tableEntry ready.bytes f b) := by
  have htable := table_addr_aligned (f := f) (b := b)
  have hdir := dir_addr_aligned (f := f)
  unfold InDirectory
  constructor
  · intro hin
    refine read_word_congr fun k hk => ?_
    rw [copyBytes, if_pos (by omega), Nat.zero_add]
    congr 1
    omega
  · intro hout
    exact read_copy_word_outside (by omega)

/-- When the write of the directory block fails, the new entry is not on the disk. -/
theorem entry_not_on_disk {ready : Disk} (halloc : Allocates f heap disk i b)
    (hready : Prepared f attr disk b ready) (hroom : (i + 1) * 128 ≤ f.sectorPerBlk * 512)
    (hname : (getFileName path).length ≤ 96)
    (hentry : ∀ k < 128, ready.bytes (dirAddr f + i * 128 + k) = newEntry path attr i b k) :
    False := by
  have htable := table_addr_aligned (f := f) (b := b)
  have hdir := dir_addr_aligned (f := f)
  have hreserved := hentry 96 (by omega)
  have hbusy := hentry 97 (by omega)
  have hset : newEntry path attr i b 97 = 0xff#8 := new_entry_busy
  rw [new_entry_reserved hname, hready.bytes] at hreserved
  rw [hset, hready.bytes] at hbusy
  -- the two bytes lie in one sector, which was not cleared
  have hsector : (dirAddr f + i * 128 + 97) / 512 = (dirAddr f + i * 128 + 96) / 512 := by omega
  rw [hsector] at hbusy
  by_cases hclear : ∃ j < clearedSectors f attr (disk.fails.drop (b / 512 + 3)),
      (f.firstSector b + j) % 2 ^ 32 = (dirAddr f + i * 128 + 96) / 512
  · rw [if_pos hclear] at hbusy
    exact absurd hbusy (by decide)
  rw [if_neg hclear] at hreserved hbusy
  by_cases hmark : tableAddr f b = dirAddr f + i * 128 + 96
  · rw [writeWord, if_pos (by omega), hmark, Nat.sub_self] at hreserved
    exact absurd hreserved (by decide)
  · rw [write_word_outside (by omega), Nat.add_assoc,
      ← directory_block_inside heap (by omega)] at hbusy
    exact absurd (halloc.unused.symm.trans hbusy) (by decide)

/-- The entry after a success. -/
theorem Atomic.entry (h : Atomic f path attr blk heap disk)
    (hzero : (createFile f path attr blk heap disk).1 = 0) (hk : k < 128) :
    (createFile f path attr blk heap disk).2.2.bytes
        (dirAddr f + dirEntry (createFile f path attr blk heap disk).2.1 0 * 128 + k) =
      (createFile f path attr blk heap disk).2.1 k :=
  (h.2 hzero).2.2.1 k hk

/-- `create_file` is atomic if the write of the directory block takes effect whenever a block was
allocated, and for a name that fits into the entry only then. When that write fails, the result is
0, the entry is missing and the block stays marked. -/
theorem create_file_atomic_iff (m : Bytes) (path : List Byte) (attr : BitVec 32) (blk heap : Bytes)
    (disk : Disk) :
    let f := superBlockAt m 0
    ((∀ i b, Allocates f heap disk i b → Commits f path attr heap disk i b) →
      Atomic f path attr blk heap disk) ∧
    ((getFileName path).length ≤ 96 → Atomic f path attr blk heap disk →
      ∀ i b, Allocates f heap disk i b → Commits f path attr heap disk i b) := by
  intro f
  have hsize : f.numOfBlk < 2 ^ 32 := read_word_lt
  obtain ⟨i, b, ready, halloc, hready, hrun⟩ | ⟨hnone, hresult, hbytes⟩ :=
    create_file_cases hsize path attr blk heap disk
  case inr =>
      refine ⟨fun _ => ⟨fun _ => hbytes, fun hzero => absurd hzero hresult⟩, ?_⟩
      exact fun _ _ i b halloc => absurd halloc (hnone i b)
  have hrange := halloc.range
  have hhigh := halloc.free.high
  have hindex : dirEntry (newEntry path attr i b) 0 = i := new_entry_index (by omega)
  have hfirst : firstBlk (newEntry path attr i b) 0 = b := new_entry_first_blk (by omega)
  obtain ⟨hin, hout⟩ := table_entry_directory f b ready
    (newDirectory f path attr heap disk i b)
  have hfaulty := hready.faulty
  simp only [Atomic, hrun, hindex, hfirst]
  constructor
  · intro hcommits
    have hcommit := hcommits i b halloc
    have hserved : ¬ ready.Faulty 0 := fun hfault => hcommit.written (hfaulty.mp hfault)
    rw [Disk.write_sector_served hserved]
    refine ⟨fun hne => absurd rfl hne, fun _ => ⟨hcommit.room, ?_, fun k hk => ?_, by omega,
      halloc.free.free, ?_⟩⟩
    · rw [new_entry_busy]
      decide
    · have hroom := hcommit.room
      have hcopy : copyBytes ready.bytes (dirAddr f) (newDirectory f path attr heap disk i b) 0
          (f.sectorPerBlk * 512) (dirAddr f + (i * 128 + k)) =
            newDirectory f path attr heap disk i b (0 + (i * 128 + k)) :=
        copy_bytes_inside (by omega)
      rw [Nat.zero_add, new_directory_entry hk] at hcopy
      rw [Nat.add_assoc]
      exact hcopy
    · by_cases hcase : InDirectory f (tableAddr f b)
      · exact (hin hcase).trans (hcommit.inDirectory hcase)
      · exact (hout hcase).trans (hready.table_entry.mpr (hcommit.kept hcase))
  · -- the disk shows the entry only if the last write took effect
    intro hname hatomic j c hother
    obtain ⟨rfl, rfl⟩ := halloc.unique hother
    obtain ⟨hroom, -, hentry, -, -, hmark⟩ := hatomic.2 trivial
    have hserved : ¬ ready.Faulty 0 := by
      intro hfault
      rw [Disk.write_sector_faulty hfault] at hentry
      exact entry_not_on_disk halloc hready hroom hname hentry
    rw [Disk.write_sector_served hserved] at hmark
    exact ⟨hroom, fun hfault => hserved (hfaulty.mpr hfault),
      fun hcase => hready.table_entry.mp ((hout hcase).symm.trans hmark),
      fun hcase => (hin hcase).symm.trans hmark⟩

/-- The super block of a disk with the table in sector 2, the directory block 1 and eight blocks,
of which block 0 and block 1 are taken. -/
def faultSuper : Bytes :=
  writeWord (writeWord (writeWord (writeWord (fun _ => 0#8) 24 2) 32 16) 36 8) 44 1

/-- The bytes of that disk. -/
def faultBytes : Bytes := writeWord (writeWord (fun _ => 0#8) 1024 endMark) 1028 endMark

/-- Creating the file `/a` when the write of the directory block fails: the result is 0, and the
entry is not busy on the disk. -/
theorem create_file_loses_entry :
    ¬ Atomic (superBlockAt faultSuper 0) [0x2f#8, 0x61#8] 0x20#32 (fun _ => 0#8) (fun _ => 0#8)
      ⟨faultBytes, [false, false, false, true]⟩ := by
  intro hatomic
  have hzero : (createFile (superBlockAt faultSuper 0) [0x2f#8, 0x61#8] 0x20#32 (fun _ => 0#8)
      (fun _ => 0#8) ⟨faultBytes, [false, false, false, true]⟩).1 = 0 := by
    decide +kernel
  have hindex : dirEntry (createFile (superBlockAt faultSuper 0) [0x2f#8, 0x61#8] 0x20#32
      (fun _ => 0#8) (fun _ => 0#8) ⟨faultBytes, [false, false, false, true]⟩).2.1 0 = 0 := by
    decide +kernel
  have hbusy : (createFile (superBlockAt faultSuper 0) [0x2f#8, 0x61#8] 0x20#32 (fun _ => 0#8)
      (fun _ => 0#8) ⟨faultBytes, [false, false, false, true]⟩).2.1 97 = 0xff#8 := by
    decide +kernel
  have hdisk : (createFile (superBlockAt faultSuper 0) [0x2f#8, 0x61#8] 0x20#32 (fun _ => 0#8)
      (fun _ => 0#8) ⟨faultBytes, [false, false, false, true]⟩).2.2.bytes
        (dirAddr (superBlockAt faultSuper 0) + 0 * 128 + 97) = 0#8 := by
    decide +kernel
  have hentry := hatomic.entry hzero (show 97 < 128 by omega)
  rw [hindex, hdisk, hbusy] at hentry
  cases hentry

end Sirius.Cfs.User
