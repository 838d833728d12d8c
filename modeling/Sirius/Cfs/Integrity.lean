import Sirius.Cfs.CreateIntegrity
import Sirius.Cfs.RemoveIntegrity

/-!
# The allocation table stays intact

`create_file` and `remove_file` keep the file system of a disk without faults well formed, when the
blocks of the allocation table and of the root directory are taken in the table, as the formatter
leaves them. Nothing in `create_file` protects these blocks otherwise: `search_blk_null` starts with
block 0.
-/

namespace Sirius.Cfs.User

open Library

variable {bytes : Bytes} {f : SuperBlock} {n : Nat}

/-- `remove_file` removes the entry that it finds and returns 0, or it returns an error and leaves
the disk unchanged. -/
theorem remove_file_integrity (hsuper : superBlockAt bytes 512 = f) (hf : Geometry f)
    (hwell : WellFormed bytes f) (htaken : ReservedTaken bytes f) (hn : f.numOfBlk ≤ n)
    (pwd path behind : List Byte) (heap root blk : Bytes) :
    ∃ r disk, removeFile n pwd path behind heap root blk ⟨bytes, []⟩ = some (r, disk) ∧
      (r = 0 → ∃ e l, filenameCmp bytes (entryAt f e)
        (stringBytes (getfilename (getpathname pwd path)).2) = 0 ∧
        Removed bytes disk.bytes f e l) ∧
      (r ≠ 0 → disk.bytes = bytes) := by
  obtain ⟨e, l, -, hfound, hchain, hname, hrun⟩ | ⟨r, hr, hrun⟩ := remove_entry_cases hsuper hf hwell
    hn (skipDrive (getfilename (getpathname pwd path)).1 behind)
    (getfilename (getpathname pwd path)).2 heap root blk
  · refine ⟨0, _, hrun, fun _ => ⟨e, l, hname, ?_⟩, fun h => absurd rfl h⟩
    exact remove_spec hf hwell hfound hchain (remove_effect hf hwell hfound hchain) htaken
  · exact ⟨r, _, hrun, fun h => absurd h hr, fun _ => rfl⟩

/-- A call of `create_file` that returns 0 has turned one free block into the chain of a new entry, a
call of `remove_file` that returns 0 has freed exactly the chain of the entry it found, and the file
system is well formed afterwards, with all other entries as they were. -/
theorem create_remove_integrity (bytes : Bytes) (hf : Geometry (superBlockAt bytes 512))
    (hwell : WellFormed bytes (superBlockAt bytes 512))
    (htaken : ReservedTaken bytes (superBlockAt bytes 512)) :
    (∀ (d : Nat) (path : List Byte) (attr : BitVec 32) (blk heap : Bytes),
      IsDirBlk bytes (superBlockAt bytes 512) d →
      (createFile { superBlockAt bytes 512 with rootBlk := d } path attr blk heap
        ⟨bytes, []⟩).1 = 0 →
      ∃ i, Created bytes (createFile { superBlockAt bytes 512 with rootBlk := d } path attr blk heap
        ⟨bytes, []⟩).2.2.bytes (superBlockAt bytes 512) (d, i)
        (createFile { superBlockAt bytes 512 with rootBlk := d } path attr blk heap
          ⟨bytes, []⟩).2.1) ∧
    ∀ (n : Nat) (pwd path behind : List Byte) (heap root blk : Bytes),
      (superBlockAt bytes 512).numOfBlk ≤ n →
      ∃ r disk, removeFile n pwd path behind heap root blk ⟨bytes, []⟩ = some (r, disk) ∧
        (r = 0 → ∃ e l, filenameCmp bytes (entryAt (superBlockAt bytes 512) e)
          (stringBytes (getfilename (getpathname pwd path)).2) = 0 ∧
          Removed bytes disk.bytes (superBlockAt bytes 512) e l) ∧
        (r ≠ 0 → disk.bytes = bytes) :=
  ⟨fun _ _ _ _ _ hdir hzero => create_file_effect hf hwell htaken hdir hzero,
    fun _ pwd path behind heap root blk hn =>
      remove_file_integrity rfl hf hwell htaken hn pwd path behind heap root blk⟩

/-! ### An empty disk -/

/-- A disk without busy entries in its root directory is well formed. -/
theorem empty_well_formed
    (hempty : ∀ i < 64, Cfs.busy bytes (entryAt f (f.rootBlk, i)) = 0#8) : WellFormed bytes f := by
  have hroot : ∀ d, IsDirBlk bytes f d → d = f.rootBlk := by
    intro d hd
    induction hd with
    | root => rfl
    | @sub e hdir hrange hbusy hattr ih =>
        have hpair : e = (f.rootBlk, e.2) := Prod.ext ih rfl
        exact absurd (hpair ▸ hempty e.2 hrange) hbusy
  have hnone : ∀ e, ¬ BusyEntry bytes f e := by
    intro e h
    have hpair : e = (f.rootBlk, e.2) := Prod.ext (hroot _ h.dir) rfl
    exact h.busy (hpair ▸ hempty e.2 h.range)
  exact ⟨fun e h => absurd h (hnone e), fun e _ _ _ h => absurd h (hnone e)⟩

/-- A super block with the table in sector 2, the root directory in block 1 and four blocks. All
other bytes are 0, those of the table included. -/
def unmarkedDisk : Bytes :=
  writeWord (writeWord (writeWord (writeWord (writeWord (fun _ => 0#8) 536 2) 540 512) 544 16) 548 4)
    556 1

/-- That disk with the blocks 0 and 1 taken. -/
def markedDisk : Bytes := writeWord (writeWord unmarkedDisk 1024 endMark) 1028 endMark

theorem unmarked_disk_geometry : Geometry (superBlockAt unmarkedDisk 512) :=
  ⟨⟨by decide, by decide, by decide, by decide⟩, by decide, by decide⟩

theorem marked_disk_geometry : Geometry (superBlockAt markedDisk 512) :=
  ⟨⟨by decide, by decide, by decide, by decide⟩, by decide, by decide⟩

/-- The call that creates `/a` in the root directory. -/
def createA (bytes : Bytes) : Int × Bytes × Disk :=
  createFile (superBlockAt bytes 512) [0x2f#8, 0x61#8] 0x20#32 (fun _ => 0#8) (fun _ => 0#8)
    ⟨bytes, []⟩

/-- The call that removes `C:/a`. -/
def removeA (bytes : Bytes) : Option (Int × Disk) :=
  removeFile 4 [] [0x43#8, 0x3a#8, 0x2f#8, 0x61#8] [] (fun _ => 0#8) (fun _ => 0#8) (fun _ => 0#8)
    ⟨bytes, []⟩

/-- The file `a` is created and removed again. -/
theorem create_remove_integrity_file :
    let f := superBlockAt markedDisk 512
    let disk := (createA markedDisk).2.2
    (∃ i, Created markedDisk disk.bytes f (1, i) (createA markedDisk).2.1) ∧
      ∃ disk' e l, removeA disk.bytes = some (0, disk') ∧ Removed disk.bytes disk'.bytes f e l := by
  intro f disk
  have hwell : WellFormed markedDisk f := empty_well_formed (by decide +kernel)
  have htaken : ReservedTaken markedDisk f := by
    show ∀ b ≤ 1, _
    decide +kernel
  have hcreate : (createA markedDisk).1 = 0 := by decide +kernel
  obtain ⟨i, hcreated⟩ := (create_remove_integrity markedDisk marked_disk_geometry hwell htaken).1 1
    [0x2f#8, 0x61#8] 0x20#32 (fun _ => 0#8) (fun _ => 0#8) .root hcreate
  refine ⟨⟨i, hcreated⟩, ?_⟩
  have hsuper : superBlockAt disk.bytes 512 = f := hcreated.super
  have hremove : (removeA disk.bytes).map Prod.fst = some 0 := by decide +kernel
  obtain ⟨r, disk', hrun, hremoved, -⟩ := (create_remove_integrity disk.bytes
    (hsuper ▸ marked_disk_geometry) (hsuper ▸ hcreated.wellFormed) (hsuper ▸ hcreated.taken)).2 4 []
    [0x43#8, 0x3a#8, 0x2f#8, 0x61#8] [] (fun _ => 0#8) (fun _ => 0#8) (fun _ => 0#8)
    (hsuper ▸ (by decide))
  have hzero : r = 0 := by
    rw [removeA, hrun] at hremove
    exact Option.some.inj hremove
  obtain ⟨e, l, -, heffect⟩ := hremoved hzero
  exact ⟨disk', e, l, hzero ▸ hrun, hsuper ▸ heffect⟩

/-- On the disk whose table marks no block as taken, the new file gets block 0, which holds the
table. -/
theorem reserved_block_allocated :
    WellFormed unmarkedDisk (superBlockAt unmarkedDisk 512) ∧
      Geometry (superBlockAt unmarkedDisk 512) ∧
      IsDirBlk unmarkedDisk (superBlockAt unmarkedDisk 512) 1 ∧
      (createA unmarkedDisk).1 = 0 ∧
      ¬ WellFormed (createA unmarkedDisk).2.2.bytes (superBlockAt unmarkedDisk 512) := by
  refine ⟨empty_well_formed (by decide +kernel), unmarked_disk_geometry, .root, by decide +kernel,
    fun hwell => ?_⟩
  have hentry : Cfs.busy (createA unmarkedDisk).2.2.bytes
      (entryAt (superBlockAt unmarkedDisk 512) (1, 0)) ≠ 0#8 ∧
      firstBlk (createA unmarkedDisk).2.2.bytes
        (entryAt (superBlockAt unmarkedDisk 512) (1, 0)) = 0 := by
    decide +kernel
  obtain ⟨l, hchain, hne, hrange⟩ := hwell.chain (1, 0) ⟨.root, by decide, hentry.1⟩
  have hhead := (hrange _ (chain_head_mem hchain hne)).1
  rw [hentry.2] at hhead
  exact absurd hhead (Nat.not_lt_zero _)

end Sirius.Cfs.User
