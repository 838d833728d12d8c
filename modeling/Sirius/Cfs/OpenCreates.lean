import Sirius.Cfs.EntryUpdate

/-!
# Opening for writing

`open_file` in a mode that writes looks the last component of the path up in its directory, lets
`create_file` make an entry of that name when there is none, and looks the entry up again. The second
lookup is for the whole path, so it finds the new entry only when the path is its own last component.
-/

namespace Sirius.Cfs.User

open Library Stdio

/-- The last component of a path, which `open_file` looks for and `create_file` stores. -/
def lastName (path : List Byte) : List Byte := getFileName (dropSlash path)

/-- The second lookup of `open_file` is for the same 96 bytes as the first. -/
def NamesItself (path : List Byte) : Prop :=
  paddedName (dropSlash path) = paddedName (lastName path)

/-- The directory `D` has a free entry, and the disk has a free block. -/
structure HasSpace (bytes : Bytes) (f : SuperBlock) (D : Nat) : Prop where
  entry : ∃ i < 64, busy bytes (entryAt f (D, i)) = 0#8
  block : ∃ b < f.numOfBlk, fat bytes f b = 0

/-- `open_file` returns a stream on a new entry of the directory `D`: the entry was free, it has the
last component of the path as its name, which fits, and the size 0, and the stream is on it. -/
def OpensNew (f : SuperBlock) (D : Nat) (bytes : Bytes) (path : List Byte)
    (result : Option File × Disk) : Prop :=
  ∃ fp i, result.1 = some fp ∧ i < 64 ∧ busy bytes (entryAt f (D, i)) = 0#8 ∧
    (lastName path).length ≤ 96 ∧
    entryName result.2.bytes f D i = some (paddedName (lastName path)) ∧
    fileSize result.2.bytes (entryAt f (D, i)) = 0 ∧
    fp.dirCluster = D ∧ fp.dirEntry = i ∧ fp.fsize = 0 ∧
    fp.fname = assertFn (copyBytes (fun _ => 0#8) 0 result.2.bytes (entryAt f (D, i)) 96) 96

variable {bytes bytes' root heap blk d : Bytes} {f : SuperBlock} {D i b : Nat} {fp : File}
  {pwd path behind m : List Byte} {attr : BitVec 32}

/-! ### The path -/

/-- A path that fits into a directory entry is its own last component when it has no slash, apart
from one at its end. -/
theorem names_itself_iff (hlength : (dropSlash path).length ≤ 96) :
    NamesItself path ↔ slash ∉ dropSlash path := by
  unfold NamesItself lastName
  constructor
  · intro hsame hmem
    obtain ⟨k, hk, hslash⟩ := List.getElem_of_mem hmem
    have hbyte := List.map_inj_left.mp hsame k (List.mem_range.mpr (by omega))
    rw [List.getD_eq_getElem _ _ hk, hslash, get_file_name_last] at hbyte
    have hnone : slash ∉ lastPart (dropSlash path) := by
      unfold lastPart
      rw [List.mem_reverse]
      intro hin
      have hne := List.mem_takeWhile_imp hin
      simp at hne
    by_cases hin : k < (lastPart (dropSlash path)).length
    · rw [List.getD_eq_getElem _ _ hin] at hbyte
      exact hnone (hbyte ▸ List.getElem_mem hin)
    · rw [List.getD_eq_default _ _ (by omega)] at hbyte
      exact absurd hbyte (by decide)
  · intro hnone
    rw [get_file_name_eq hnone]

/-! ### The new entry -/

/-- The size in a new entry whose name fits. -/
theorem new_entry_size (hname : (getFileName path).length ≤ 96) :
    fileSize (newEntry path attr i b) 0 = 0 := by
  have hcleared : readWord (padNulls (strcpy (fun _ => 0#8) 0 (getFileName path)) 0) 111 =
      readWord (fun _ => 0#8) 111 :=
    read_word_congr fun k _ => by
      rw [pad_nulls_outside (by omega), strcpy_outside (by omega)]
  rw [fileSize, newEntry, read_write_word_other (by omega), read_update_word (by omega),
    read_update_word (by omega), read_write_word_other (by omega), hcleared]
  rfl

/-- With a free entry and a free block `create_file` gets past the allocation. -/
theorem HasSpace.allocates (h : HasSpace bytes f D) (hf : Geometry f) (heap : Bytes) :
    ∃ i b, Allocates { f with rootBlk := D } heap ⟨bytes, []⟩ i b := by
  have hbusy : ∀ i < 64, busy (directoryBlock ⟨bytes, []⟩ { f with rootBlk := D } heap) (i * 128) =
      busy bytes (entryAt f (D, i)) := by
    intro i hi
    rw [busy, same_directory_byte hf D bytes heap (by omega), ← Nat.add_assoc]
    rfl
  have hentry : ∀ b < f.numOfBlk, tableEntry bytes { f with rootBlk := D } b = fat bytes f b := by
    intro b hb
    exact congrArg (readWord bytes) (hf.table_addr hb)
  classical
  have hi := Nat.find_spec h.entry
  have hb := Nat.find_spec h.block
  refine ⟨Nat.find h.entry, Nat.find h.block, ⟨hi.1, (hbusy _ hi.1).trans hi.2, fun j hj hfree => ?_,
    ⟨Nat.zero_le _, by simpa using hb.1, (hentry _ hb.1).trans hb.2, fun c _ hc hfree => ?_⟩,
    fun k _ hfault => ?_⟩⟩
  · have hlt := hj.trans hi.1
    exact Nat.find_min h.entry hj ⟨hlt, (hbusy j hlt).symm.trans hfree⟩
  · have hlt := hc.trans hb.1
    exact Nat.find_min h.block hc ⟨hlt, (hentry c hlt).symm.trans hfree⟩
  · simp [Disk.Faulty] at hfault

/-- `create_file` makes the entry when there is space for it. -/
theorem create_file_has_space (hused : InUse bytes f D) (hspace : HasSpace bytes f D)
    (path : List Byte) (attr : BitVec 32) (blk heap : Bytes) :
    ∃ i b bytes', i < 64 ∧ busy bytes (entryAt f (D, i)) = 0#8 ∧
      createFile { f with rootBlk := D } path attr blk heap ⟨bytes, []⟩ =
        (0, newEntry path attr i b, ⟨bytes', []⟩) ∧
      ChangesEntry bytes bytes' f D i ∧
      ∀ k < 128, bytes' (entryAt f (D, i) + k) = newEntry path attr i b k := by
  have hf := hused.geometry
  obtain ⟨i, b, bytes', hi, hfree, hlow, hhigh, hblock, hrun, heffect⟩ | ⟨herror, -⟩ :=
    create_file_run hf hused.reserved hused.dir.2 hused.dir.1 hused.taken
  · have hother : D ≠ b := fun heq => hused.taken (heq ▸ hblock)
    exact ⟨i, b, bytes', hi, hfree, hrun,
      create_effect_changes hf ⟨hused.dir, hi, hlow, hhigh⟩ hother heffect, heffect.entry⟩
  · have hsectors := hf.sectors
    obtain ⟨i, b, ready, -, -, hrun⟩ | ⟨hnone, -⟩ := create_file_cases
      (f := { f with rootBlk := D }) (show f.numOfBlk < 2 ^ 32 by omega) path attr blk heap ⟨bytes, []⟩
    · rw [hrun] at herror
      exact absurd rfl herror
    · obtain ⟨i, b, halloc⟩ := hspace.allocates hf heap
      exact absurd halloc (hnone i b)

/-- What `open_file` does after it has created the entry: the second lookup. -/
theorem open_file_created (hused : InUse bytes f D) (hname : 0#8 ∉ path)
    (hleads : LeadsTo bytes f D pwd path behind root)
    (habsent : ∀ j, entryName bytes f D j ≠ some (paddedName (lastName path)))
    (hflg : m.getD 0 0#8 = 0x77#8 ∨ m.getD 0 0#8 = 0x61#8) {dir : Bytes}
    (hcreate : createFile { f with rootBlk := D } (dropSlash path) 0x20#32 blk root ⟨bytes, []⟩ =
      (0, dir, ⟨bytes', []⟩)) (heap : Bytes) :
    openFile pwd path behind m root heap blk ⟨bytes, []⟩ =
      let (r, d, disk) := readDirectoryEntry ⟨bytes', []⟩ dir { f with rootBlk := D }
        (stringBytes (dropSlash path)) root
      if r ≠ 0 then (none, disk) else openEntry d { f with rootBlk := D } m heap blk disk := by
  have hlast : 0#8 ∉ getFileName (dropSlash path) := by
    rw [get_file_name_last]
    exact not_mem_last_part (not_mem_drop_slash hname)
  simp only [open_file_eq hused.super hused.geometry hused.dir.1 hleads]
  obtain ⟨j, hj, -⟩ | ⟨-, hnone⟩ :=
    read_directory_entry_cases hused.geometry bytes (fun _ => 0#8) root D hlast
  · exact absurd hj (habsent j)
  · rw [hnone]
    simp only [if_true, if_pos hflg, hcreate]

/-- The name that a stream has from its entry determines the 96 bytes of the entry, when none of them
is null. -/
theorem stream_name_inj {e e' : Nat} {s t : List Byte} (hs : 0#8 ∉ s) (ht : 0#8 ∉ t)
    (he : ∀ k < 96, bytes (e + k) = s.getD k space) (he' : ∀ k < 96, bytes (e' + k) = t.getD k space)
    (hsame : assertFn (copyBytes (fun _ => 0#8) 0 bytes e 96) 96 =
      assertFn (copyBytes (fun _ => 0#8) 0 bytes e' 96) 96) : paddedName s = paddedName t := by
  have hcopy : ∀ (e : Nat) (s : List Byte), 0#8 ∉ s → (∀ k < 96, bytes (e + k) = s.getD k space) →
      ∀ k < 96, copyBytes (fun _ => 0#8) 0 bytes e 96 k = s.getD k space ∧
        copyBytes (fun _ => 0#8) 0 bytes e 96 k ≠ 0#8 := by
    intro e s hs he k hk
    have hbyte : copyBytes (fun _ => 0#8) 0 bytes e 96 k = s.getD k space := by
      have hin : copyBytes (fun _ => 0#8) 0 bytes e 96 (0 + k) = bytes (e + k) := copy_bytes_inside hk
      rwa [Nat.zero_add, he k hk] at hin
    refine ⟨hbyte, ?_⟩
    rw [hbyte]
    by_cases hin : k < s.length
    · rw [List.getD_eq_getElem _ _ hin]
      exact fun hzero => hs (hzero ▸ List.getElem_mem hin)
    · rw [List.getD_eq_default _ _ (by omega)]
      decide
  refine List.map_congr_left fun k hk => ?_
  have hlt := List.mem_range.mp hk
  rw [← (hcopy e s hs he k hlt).1, ← (hcopy e' t ht he' k hlt).1,
    ← pad_nulls_assert_fn (fun k hk => (hcopy e s hs he k hk).2) hlt,
    ← pad_nulls_assert_fn (fun k hk => (hcopy e' t ht he' k hk).2) hlt, hsame]

/-- Opening for writing creates the file exactly when the name fits and the path is its own last
component: the directory exists, has a free entry and the disk a free block, and no entry of the
directory has the name. -/
theorem open_creates_iff (f : SuperBlock) (D : Nat) (bytes : Bytes) (hused : InUse bytes f D)
    (hspace : HasSpace bytes f D) (pwd path behind m : List Byte) (root heap blk : Bytes)
    (hname : 0#8 ∉ path) (hleads : LeadsTo bytes f D pwd path behind root)
    (habsent : ∀ j, entryName bytes f D j ≠ some (paddedName (lastName path)))
    (hflg : m.getD 0 0#8 = 0x77#8 ∨ m.getD 0 0#8 = 0x61#8) :
    OpensNew f D bytes path (openFile pwd path behind m root heap blk ⟨bytes, []⟩) ↔
      (lastName path).length ≤ 96 ∧ NamesItself path := by
  have hdrop : 0#8 ∉ dropSlash path := not_mem_drop_slash hname
  have hlast : 0#8 ∉ lastName path := by
    rw [lastName, get_file_name_last]
    exact not_mem_last_part hdrop
  obtain ⟨i, b, bytes', hi, hfree, hcreate, hchange, hentry⟩ :=
    create_file_has_space hused hspace (dropSlash path) 0x20#32 blk root
  have hf := hused.geometry
  have hnamed : entryName bytes' f D i = some (paddedName (lastName path)) := by
    refine entry_name_some.mpr ⟨hi, ?_, fun k hk => ?_⟩
    · have hmark : newEntry (dropSlash path) 0x20#32 i b 97 = 0xff#8 := new_entry_busy
      rw [busy, hentry 97 (by omega), hmark]
      decide
    · rw [hentry k (by omega), new_entry_name hlast k hk]
      rfl
  simp only [open_file_created hused hname hleads habsent hflg hcreate]
  obtain ⟨j, hj, d, hfound, hd⟩ | ⟨hnone, hlookup⟩ :=
    read_directory_entry_cases hf bytes' (newEntry (dropSlash path) 0x20#32 i b) root D hdrop
  · -- the second lookup finds an entry with the bytes of the path
    obtain ⟨fp, hopen, hfname, -, -, hcluster, hindex, hsize⟩ := open_entry_ok
      (show (⟨bytes', []⟩ : Disk).fails = [] from rfl) d { f with rootBlk := D } m heap blk
    have hfields : fp.fname =
        assertFn (copyBytes (fun _ => 0#8) 0 bytes' (entryAt f (D, j)) 96) 96 := by
      rw [hfname, copied_entry_name hd]
    simp only [hfound, ne_eq, not_true_eq_false, if_false, hopen]
    constructor
    · rintro ⟨fp', i', hsome, -, -, hfits, hname', -, -, -, -, hfname'⟩
      cases hsome
      refine ⟨hfits, ?_⟩
      exact stream_name_inj hdrop hlast (entry_name_some.mp hj).2.2 (entry_name_some.mp hname').2.2
        (hfields.symm.trans hfname')
    · rintro ⟨hfits, hitself⟩
      -- only the new entry has the name
      have hji : j = i := by
        by_contra hne
        rw [hchange.others hne, hitself] at hj
        exact habsent j hj
      subst hji
      have hnew : ∀ k < 128, newEntry (dropSlash path) 0x20#32 j b k =
          bytes' (entryAt f (D, j) + k) := fun k hk => (hentry k hk).symm
      have hzero : fileSize bytes' (entryAt f (D, j)) = 0 :=
        (copied_entry_word hnew (by omega)).symm.trans (new_entry_size hfits)
      have hnumber : dirEntry bytes' (entryAt f (D, j)) = j :=
        (copied_entry_word hnew (by omega)).symm.trans (new_entry_index (by omega))
      exact ⟨fp, j, rfl, hi, hfree, hfits, hnamed, hzero, hcluster,
        hindex.trans ((copied_entry_word hd (by omega)).trans hnumber),
        hsize.trans ((copied_entry_word hd (by omega)).trans hzero), hfields⟩
  · simp only [hlookup]
    constructor
    · rintro ⟨fp', i', hsome, -⟩
      cases hsome
    · rintro ⟨-, hitself⟩
      exact absurd (hitself ▸ hnamed) (hnone i)

/-! ### An empty directory -/

theorem marked_disk_space : HasSpace markedDisk (superBlockAt markedDisk 512) 1 :=
  ⟨⟨0, by decide, by decide +kernel⟩, ⟨2, by decide +kernel, by decide +kernel⟩⟩

/-- `open_file("a", "w")` in the directory `C:`. -/
theorem open_creates_iff_relative :
    OpensNew (superBlockAt markedDisk 512) 1 markedDisk [0x61#8]
      (openFile [0x43#8, 0x3a#8] [0x61#8] [] [0x77#8] (fun _ => 0#8) (fun _ => 0#8) (fun _ => 0#8)
        ⟨markedDisk, []⟩) := by
  have hleads : LeadsTo markedDisk (superBlockAt markedDisk 512) 1 [0x43#8, 0x3a#8] [0x61#8] []
      (fun _ => 0#8) := by
    unfold LeadsTo
    decide +kernel
  have hitself : NamesItself [0x61#8] := (names_itself_iff (by decide)).mpr (by decide)
  refine (open_creates_iff (superBlockAt markedDisk 512) 1 markedDisk marked_disk_in_use
    marked_disk_space [0x43#8, 0x3a#8] [0x61#8] [] [0x77#8] (fun _ => 0#8) (fun _ => 0#8)
    (fun _ => 0#8) (by decide) hleads (fun j => ?_) (by decide)).mpr ⟨by decide, hitself⟩
  rw [marked_disk_names]
  exact (Option.some_ne_none _).symm

/-- `open_file("C:/a", "w")` creates the entry and returns `NULL`. -/
theorem absolute_path_returns_null : ¬ ∀ (f : SuperBlock) (D : Nat) (bytes : Bytes),
    InUse bytes f D → HasSpace bytes f D → ∀ (pwd path behind m : List Byte) (root heap blk : Bytes),
    0#8 ∉ path → LeadsTo bytes f D pwd path behind root →
    (∀ j, entryName bytes f D j ≠ some (paddedName (lastName path))) →
    (m.getD 0 0#8 = 0x77#8 ∨ m.getD 0 0#8 = 0x61#8) →
    OpensNew f D bytes path (openFile pwd path behind m root heap blk ⟨bytes, []⟩) := by
  intro h
  have hleads : LeadsTo markedDisk (superBlockAt markedDisk 512) 1 [] [0x43#8, 0x3a#8, 0x2f#8, 0x61#8]
      [] (fun _ => 0#8) := by
    unfold LeadsTo
    decide +kernel
  obtain ⟨fp, i, hopen, -⟩ := h (superBlockAt markedDisk 512) 1 markedDisk marked_disk_in_use
    marked_disk_space [] [0x43#8, 0x3a#8, 0x2f#8, 0x61#8] [] [0x77#8] (fun _ => 0#8) (fun _ => 0#8)
    (fun _ => 0#8) (by decide) hleads
    (fun j => by
      rw [marked_disk_names]
      exact (Option.some_ne_none _).symm) (by decide)
  have hnull : (openFile [] [0x43#8, 0x3a#8, 0x2f#8, 0x61#8] [] [0x77#8] (fun _ => 0#8)
      (fun _ => 0#8) (fun _ => 0#8) ⟨markedDisk, []⟩).1.isSome = false := by
    decide +kernel
  rw [hopen] at hnull
  cases hnull

end Sirius.Cfs.User
