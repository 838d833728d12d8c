import Mathlib.Data.List.TakeWhile
import Sirius.Cfs.DirectoryNames
import Sirius.Cfs.RemoveIntegrity
import Sirius.Cfs.StreamDurability

/-!
# Opening by name, and renaming

`open_file` of the user library looks a path up, creates the file when the mode asks for it, and
opens the entry. `rename` opens the file, puts the new name into the stream and closes it again:
`update_directory_entry` writes the name, without a look at the other entries.
-/

namespace Sirius.Cfs.User

open Library Stdio

/-! ### The functions -/

/-- What `getpathname` leaves of its argument: a slash at the end is overwritten. -/
def dropSlash (src : List Byte) : List Byte :=
  if src.getLast? = some slash then src.dropLast else src

/-- `open_file`. `root`, `heap` and `blk` are memory that `malloc` returns. -/
def openFile (pwd filename behind m : List Byte) (root heap blk : Bytes) (disk : Disk) :
    Option File × Disk :=
  let (tpath, name) := getfilename (getpathname pwd filename)
  let filename := dropSlash filename
  let (r, f, disk) := readSuperBlock disk
  if r ≠ 0 then (none, disk)
  else
    let (dir, disk) := readDirectoryBlk f (skipDrive tpath behind) root disk
    if dir = 0 then (none, disk)
    else
      let f := { f with rootBlk := dir }
      let (r, d, disk) := readDirectoryEntry disk (fun _ => 0#8) f (stringBytes name) root
      if r = -1 then
        if m.getD 0 0#8 = 0x77#8 ∨ m.getD 0 0#8 = 0x61#8 then
          let (_, d, disk) := createFile f filename 0x20#32 blk root disk
          let (r, d, disk) := readDirectoryEntry disk d f (stringBytes filename) root
          if r ≠ 0 then (none, disk) else openEntry d f m heap blk disk
        else (none, disk)
      else if r ≠ 0 then (none, disk)
      else openEntry d f m heap blk disk

/-- `FILENAME_MAX` -/
def filenameMax : Nat := 96

/-- `rename` -/
def rename (pwd old behind new : List Byte) (root heap blk : Bytes) (disk : Disk) : Int × Disk :=
  let (fp, disk) := openFile pwd old behind modeUpdate root heap blk disk
  match fp with
  | none => (-1, disk)
  | some fp =>
      let r := if filenameMax < new.length then 1 else 0
      let fname := if filenameMax < new.length then fp.fname else strcpy fp.fname 0 new
      let fp := { fp with fname, flags := fp.flags ||| (0x80#32 ||| 0x40#32) }
      let (_, disk) := closeR fp disk
      (r, disk)

/-! ### The last component of a path -/

/-- What stands behind the last slash. -/
def lastPart (path : List Byte) : List Byte := (path.reverse.takeWhile (· ≠ slash)).reverse

variable {s t path : List Byte}

theorem last_part_behind : lastPart (s ++ slash :: t) = lastPart t := by
  have hnone : (slash :: s.reverse).takeWhile (· ≠ slash) = [] := by
    simp
  rw [lastPart, List.reverse_append, List.reverse_cons, List.append_assoc, List.singleton_append,
    List.takeWhile_append, hnone, List.append_nil]
  split
  case isTrue hall =>
    have hprefix := List.takeWhile_prefix (p := (decide <| · ≠ slash)) (l := t.reverse)
    rw [lastPart, hprefix.eq_of_length hall]
  case isFalse => rfl

theorem last_part_eq (h : slash ∉ path) : lastPart path = path := by
  have hall : path.reverse.takeWhile (· ≠ slash) = path.reverse := by
    rw [List.takeWhile_eq_self_iff]
    intro c hc
    simpa using fun heq : c = slash => h (heq ▸ List.mem_reverse.mp hc)
  rw [lastPart, hall, List.reverse_reverse]

theorem last_part_append (h : slash ∈ t) : lastPart (s ++ t) = lastPart t := by
  obtain ⟨a, b, rfl⟩ := List.append_of_mem h
  rw [← List.append_assoc, last_part_behind, last_part_behind]

/-- The loop of `get_file_name`. -/
theorem file_name_loop (s : List Byte) : ∀ r,
    fileNameLoop s r = if slash ∈ s then lastPart s else r := by
  induction s with
  | nil => exact fun _ => rfl
  | cons c s ih =>
      intro r
      rw [fileNameLoop]
      by_cases hc : c = slash
      · have hbehind : lastPart (slash :: s) = lastPart s := last_part_behind (s := [])
        rw [if_pos hc, ih, hc, if_pos (List.mem_cons_self ..), hbehind]
        split
        case isTrue => rfl
        case isFalse hs => exact (last_part_eq hs).symm
      · rw [if_neg hc, ih]
        by_cases hs : slash ∈ s
        · rw [if_pos hs, if_pos (List.mem_cons_of_mem _ hs)]
          exact (last_part_append (s := [c]) hs).symm
        · rw [if_neg hs, if_neg (by simp [hs, Ne.symm hc])]

/-- `get_file_name` returns the last component. -/
theorem get_file_name_last (path : List Byte) : getFileName path = lastPart path := by
  rw [getFileName, file_name_loop]
  split
  case isTrue => rfl
  case isFalse hs => exact (last_part_eq hs).symm

/-- `open_file` looks for the name that `create_file` would give to the file. -/
theorem getfilename_getpathname (pwd path : List Byte) :
    (getfilename (getpathname pwd path)).2 = getFileName (dropSlash path) := by
  rw [get_file_name_last]
  show lastPart (getpathname pwd path) = _
  show lastPart (if 1 < path.length ∧ (dropSlash path).getD 1 0#8 = colon then dropSlash path
    else if (dropSlash path).getD 0 0#8 = slash then pwd ++ dropSlash path
    else pwd ++ slash :: dropSlash path) = _
  split
  case isTrue => rfl
  case isFalse =>
    split
    case isTrue hslash =>
      cases hname : dropSlash path with
      | nil => rw [hname] at hslash; cases hslash
      | cons c s =>
          rw [hname] at hslash
          have hc : c = slash := hslash
          exact last_part_append (by simp [hc])
    case isFalse => exact last_part_behind

theorem not_mem_last_part {c : Byte} (h : c ∉ path) : c ∉ lastPart path := fun hmem =>
  h (List.mem_reverse.mp ((List.takeWhile_prefix _).subset (List.mem_reverse.mp hmem)))

theorem not_mem_drop_slash {c : Byte} (h : c ∉ path) : c ∉ dropSlash path := by
  unfold dropSlash
  split
  case isTrue => exact fun hmem => h (List.mem_of_mem_dropLast hmem)
  case isFalse => exact h

/-! ### Opening -/

/-- The name in an entry as `open_file` puts it into the stream. -/
def storedName (bytes : Bytes) (e : Nat) : List Byte :=
  cString (assertFn (copyBytes (fun _ => 0#8) 0 bytes e 96) 96) 256 0

/-- The path leads to the directory `D`. -/
def LeadsTo (bytes : Bytes) (f : SuperBlock) (D : Nat) (pwd path behind : List Byte) (root : Bytes) :
    Prop :=
  (readDirectoryBlk f (skipDrive (getfilename (getpathname pwd path)).1 behind) root
    ⟨bytes, []⟩).1 = D

variable {bytes root heap blk d : Bytes} {f : SuperBlock} {D i j k : Nat} {fp : File} {disk : Disk}
  {pwd behind m : List Byte}

/-- Reading never changes the bytes of the disk. -/
theorem read_sector_bytes (disk : Disk) (count addr : Nat) (buffer : Bytes) :
    (readSector disk count addr buffer).2.2.bytes = disk.bytes := by
  unfold readSector
  split
  case isTrue => rfl
  case isFalse => rfl

theorem read_directory_entry_bytes (disk : Disk) (d : Bytes) (f : SuperBlock)
    (filename heap : Bytes) :
    (readDirectoryEntry disk d f filename heap).2.2.bytes = disk.bytes := by
  have hread := read_sector_bytes disk f.sectorPerBlk (f.firstSector f.rootBlk)
    (fillBytes heap 0 8192 0)
  unfold readDirectoryEntry readRoot
  generalize readSector disk f.sectorPerBlk (f.firstSector f.rootBlk) (fillBytes heap 0 8192 0) =
    read at hread ⊢
  obtain ⟨r, root, disk'⟩ := read
  by_cases hr : r ≠ 0
  · simpa only [if_pos hr] using hread
  · simp only [if_neg hr]
    split
    case isTrue => exact hread
    case isFalse => exact hread

theorem open_blocks_bytes (f : SuperBlock) (n : Nat) : ∀ (index flgStart : Nat) (blk : Bytes)
    (fp : File) (disk : Disk), (openBlocks f n index flgStart blk fp disk).2.bytes = disk.bytes := by
  induction n with
  | zero => exact fun _ _ _ _ _ => rfl
  | succ n ih =>
      intro index flgStart blk fp disk
      have hread : (if flgStart ≠ f.fatSector index then readSector disk 1 (f.fatSector index) blk
          else (0, blk, disk)).2.2.bytes = disk.bytes := by
        split
        case isTrue => exact read_sector_bytes disk 1 _ blk
        case isFalse => rfl
      rw [openBlocks]
      generalize (if flgStart ≠ f.fatSector index then readSector disk 1 (f.fatSector index) blk
        else (0, blk, disk)) = read at hread ⊢
      obtain ⟨r, blk', disk'⟩ := read
      by_cases hr : r ≠ 0
      · simpa only [if_pos hr] using hread
      · simp only [if_neg hr]
        split
        · exact hread
        · exact (ih _ _ _ _ _).trans hread

theorem open_entry_bytes (d : Bytes) (f : SuperBlock) (m : List Byte) (heap blk : Bytes)
    (disk : Disk) : (openEntry d f m heap blk disk).2.bytes = disk.bytes :=
  open_blocks_bytes f (1024 * 1024) (firstBlk d 0) endMark blk _ disk

/-- The name in a copy of the entry at `e`. -/
theorem copied_entry_name {e : Nat} (hd : ∀ k < 128, d k = bytes (e + k)) :
    copyBytes (fun _ => 0#8) 0 d 0 96 = copyBytes (fun _ => 0#8) 0 bytes e 96 := by
  funext x
  unfold copyBytes
  by_cases hx : 0 ≤ x ∧ x < 0 + 96
  · rw [if_pos hx, if_pos hx, hd _ (by omega), Nat.zero_add]
  · rw [if_neg hx, if_neg hx]

/-- A word in a copy of the entry at `e`. -/
theorem copied_entry_word {e j : Nat} (hd : ∀ k < 128, d k = bytes (e + k)) (hj : j + 4 ≤ 128) :
    readWord d (0 + j) = readWord bytes (e + j) :=
  read_word_congr fun k hk => by
    rw [Nat.zero_add, hd _ (by omega), Nat.add_assoc]

/-- The stream that `open_file` returns for the entry `d`, on a disk without faults. -/
theorem open_entry_ok (hok : disk.fails = []) (d : Bytes) (f : SuperBlock) (m : List Byte)
    (heap blk : Bytes) :
    ∃ fp, openEntry d f m heap blk disk = (some fp, disk) ∧
      fp.fname = assertFn (copyBytes (fun _ => 0#8) 0 d 0 96) 96 ∧
      fp.mode = (if m.getD 0 0#8 = 0x77#8 ∨ m.getD 1 0#8 = 0x2b#8 ∨ m.getD 0 0#8 = 0x61#8 then 2
        else 1) ∧
      fp.flags = 0x6#32 ∧ fp.dirCluster = f.rootBlk ∧ fp.dirEntry = dirEntry d 0 ∧
      fp.fsize = fileSize d 0 := by
  obtain ⟨fp, hopen, hsame⟩ := open_blocks_ok (f := f) hok (1024 * 1024) (firstBlk d 0) endMark blk
    { File.cleared heap with
      bsize := f.bytePerSector * f.sectorPerBlk % 2 ^ 32
      fsize := fileSize d 0
      bytePerSector := f.bytePerSector
      count := f.sectorPerBlk }
  have hfname : fp.fname = fun _ => 0#8 := congrArg File.fname hsame
  have hfsize : fp.fsize = fileSize d 0 := congrArg File.fsize hsame
  rw [openEntry, Cfs.openFileR, hopen]
  refine ⟨_, rfl, ?_, rfl, rfl, rfl, rfl, hfsize⟩
  rw [← hfname]

/-- `open_file` behind the walk to the directory. -/
theorem open_file_eq (hsuper : superBlockAt bytes 512 = f) (hf : Geometry f) (hD : f.rootBlk ≤ D)
    (hleads : LeadsTo bytes f D pwd path behind root) (m : List Byte) (heap blk : Bytes) :
    openFile pwd path behind m root heap blk ⟨bytes, []⟩ =
      let f := { f with rootBlk := D }
      let (r, d, disk) := readDirectoryEntry ⟨bytes, []⟩ (fun _ => 0#8) f
        (stringBytes (getFileName (dropSlash path))) root
      if r = -1 then
        if m.getD 0 0#8 = 0x77#8 ∨ m.getD 0 0#8 = 0x61#8 then
          let (_, d, disk) := createFile f (dropSlash path) 0x20#32 blk root disk
          let (r, d, disk) := readDirectoryEntry disk d f (stringBytes (dropSlash path)) root
          if r ≠ 0 then (none, disk) else openEntry d f m heap blk disk
        else (none, disk)
      else if r ≠ 0 then (none, disk)
      else openEntry d f m heap blk disk := by
  have hzero : D ≠ 0 := by
    have htable := hf.table
    have hroot := hf.root
    omega
  have hread : readDirectoryBlk f (skipDrive (getfilename (getpathname pwd path)).1 behind) root
      ⟨bytes, []⟩ = (D, ⟨bytes, []⟩) := by
    obtain ⟨d, hd, -⟩ := read_directory_blk_spec hf (show (⟨bytes, []⟩ : Disk).fails = [] from rfl)
      (skipDrive (getfilename (getpathname pwd path)).1 behind) root
    rw [LeadsTo, hd] at hleads
    rw [hd, ← hleads]
  rw [openFile]
  simp only [read_super_block_ok (show (⟨bytes, []⟩ : Disk).fails = [] from rfl), hsuper, hread,
    ne_eq, not_true_eq_false, if_false, if_neg hzero, getfilename_getpathname]

/-- `open_file` finds an entry, or it creates one first when the mode asks for it, or it returns
`NULL`. -/
theorem open_file_cases (hsuper : superBlockAt bytes 512 = f) (hf : Geometry f) (hD : f.rootBlk ≤ D)
    (hname : 0#8 ∉ path) (hleads : LeadsTo bytes f D pwd path behind root) (m : List Byte)
    (heap blk : Bytes) :
    (∃ i d, entryName bytes f D i = some (paddedName (getFileName (dropSlash path))) ∧
      (∀ k < 128, d k = bytes (entryAt f (D, i) + k)) ∧
      openFile pwd path behind m root heap blk ⟨bytes, []⟩ =
        openEntry d { f with rootBlk := D } m heap blk ⟨bytes, []⟩) ∨
    (∀ i, entryName bytes f D i ≠ some (paddedName (getFileName (dropSlash path)))) ∧
      ((openFile pwd path behind m root heap blk ⟨bytes, []⟩ = (none, ⟨bytes, []⟩)) ∨
        (m.getD 0 0#8 = 0x77#8 ∨ m.getD 0 0#8 = 0x61#8) ∧
          (openFile pwd path behind m root heap blk ⟨bytes, []⟩).2.bytes =
            (createFile { f with rootBlk := D } (dropSlash path) 0x20#32 blk root
              ⟨bytes, []⟩).2.2.bytes) := by
  have hlast : 0#8 ∉ getFileName (dropSlash path) := by
    rw [get_file_name_last]
    exact not_mem_last_part (not_mem_drop_slash hname)
  simp only [open_file_eq hsuper hf hD hleads]
  obtain ⟨i, hi, d, hfound, hd⟩ | ⟨habsent, hnone⟩ :=
    read_directory_entry_cases hf bytes (fun _ => 0#8) root D hlast
  · refine .inl ⟨i, d, hi, hd, ?_⟩
    rw [hfound]
    rfl
  · refine .inr ⟨habsent, ?_⟩
    rw [hnone]
    simp only [if_true]
    by_cases hflg : m.getD 0 0#8 = 0x77#8 ∨ m.getD 0 0#8 = 0x61#8
    · -- the file is created, and what follows only reads
      refine .inr ⟨hflg, ?_⟩
      rw [if_pos hflg]
      split
      · exact read_directory_entry_bytes _ _ _ _ _
      · rw [open_entry_bytes]
        exact read_directory_entry_bytes _ _ _ _ _
    · rw [if_neg hflg]
      exact .inl rfl

/-! ### Writing the name -/

section Update

variable {e x : Nat} (hlength : (getFileName (cString fp.fname 256 0)).length ≤ 96)

include hlength

/-- `update_directory_entry` changes the 128 bytes of its entry only. -/
theorem update_entry_outside (h : x < e ∨ e + 128 ≤ x) : updateEntry root e fp x = root x := by
  rw [updateEntry, write_word_outside (by omega), Function.update_of_ne (by omega),
    pad_nulls_outside (by omega), strcpy_outside (by omega), fill_bytes_outside (by omega)]

/-- The busy mark stays. -/
theorem update_entry_busy : busy (updateEntry root e fp) e = busy root e := by
  rw [busy, updateEntry, write_word_outside (by omega), Function.update_of_ne (by omega),
    pad_nulls_outside (by omega), strcpy_outside (by omega), fill_bytes_outside (by omega)]
  rfl

omit hlength in
/-- The name is padded with spaces. -/
theorem update_entry_name (hk : k < 96) :
    updateEntry root e fp (e + k) = (getFileName (cString fp.fname 256 0)).getD k space := by
  have hnull : 0#8 ∉ getFileName (cString fp.fname 256 0) := by
    rw [get_file_name_last]
    exact not_mem_last_part (null_not_mem_c_string _ _ _)
  rw [updateEntry, write_word_outside (by omega), Function.update_of_ne (by omega)]
  refine pad_nulls_copied (fun j hj => ?_) hnull hk
  rw [fillBytes, if_pos (by omega)]

end Update

/-- The image after `update_directory_entry`. -/
def updatedImage (bytes : Bytes) (f : SuperBlock) (fp : File) : Bytes :=
  copyBytes bytes (f.firstSector fp.dirCluster * 512) (updateEntry (copyBytes (fun _ => 0#8) 0 bytes
    (f.firstSector fp.dirCluster * 512) (16 * 512)) (fp.dirEntry * 128) fp) 0 (16 * 512)

/-- `update_directory_entry` on a disk without faults. -/
theorem update_directory_entry_eq (hsectors : f.sectorPerBlk = 16) (hlow : 1 ≤ fp.dirEntry)
    (hhigh : fp.dirEntry ≤ 64) :
    updateDirectoryEntry f fp ⟨bytes, []⟩ = (0, ⟨updatedImage bytes f fp, []⟩) := by
  rw [updateDirectoryEntry, if_neg (by omega), if_neg (by omega)]
  simp only [read_sector_ok, write_sector_ok, ne_eq, not_true_eq_false, if_false, hsectors]
  rfl

/-- All bytes but those of the entry stay. -/
theorem updated_image_outside {x : Nat}
    (hlength : (getFileName (cString fp.fname 256 0)).length ≤ 96)
    (h : x < entryAt f (fp.dirCluster, fp.dirEntry) ∨
      entryAt f (fp.dirCluster, fp.dirEntry) + 128 ≤ x) :
    updatedImage bytes f fp x = bytes x := by
  simp only [entryAt] at h
  unfold updatedImage
  by_cases hin : f.firstSector fp.dirCluster * 512 ≤ x ∧
      x < f.firstSector fp.dirCluster * 512 + 16 * 512
  · obtain ⟨y, rfl⟩ := Nat.exists_eq_add_of_le hin.1
    have hcopy : copyBytes (fun _ => 0#8) 0 bytes (f.firstSector fp.dirCluster * 512) (16 * 512)
        (0 + y) = bytes (f.firstSector fp.dirCluster * 512 + y) := copy_bytes_inside (by omega)
    rw [Nat.zero_add] at hcopy
    rw [copy_bytes_start (by omega), update_entry_outside hlength (by omega), hcopy]
  · rw [not_and_or, not_le, not_lt] at hin
    exact copy_bytes_outside hin

/-- The bytes of the entry. -/
theorem updated_image_entry (hhigh : fp.dirEntry < 64) (hk : k < 128) :
    updatedImage bytes f fp (entryAt f (fp.dirCluster, fp.dirEntry) + k) =
      updateEntry (copyBytes (fun _ => 0#8) 0 bytes (f.firstSector fp.dirCluster * 512) (16 * 512))
        (fp.dirEntry * 128) fp (fp.dirEntry * 128 + k) := by
  rw [updatedImage, entryAt, Nat.add_assoc, copy_bytes_start (by omega)]

/-- The size in the entry. -/
theorem updated_image_size (hhigh : fp.dirEntry < 64) (hsmall : fp.fsize < 2 ^ 32) :
    fileSize (updatedImage bytes f fp) (entryAt f (fp.dirCluster, fp.dirEntry)) = fp.fsize := by
  have hread : fileSize (updatedImage bytes f fp) (entryAt f (fp.dirCluster, fp.dirEntry)) =
      readWord (updateEntry (copyBytes (fun _ => 0#8) 0 bytes (f.firstSector fp.dirCluster * 512)
        (16 * 512)) (fp.dirEntry * 128) fp) (fp.dirEntry * 128 + 111) :=
    read_word_congr fun k hk => by
      rw [Nat.add_assoc, updated_image_entry hhigh (by omega), Nat.add_assoc]
  rw [hread, updateEntry, read_write_word_same hsmall]

/-- What the entry holds besides the name and the size stays. -/
theorem updated_image_kept (hhigh : fp.dirEntry < 64)
    (hlength : (getFileName (cString fp.fname 256 0)).length ≤ 96)
    (hk : 97 ≤ k ∧ k < 111 ∨ 115 ≤ k ∧ k < 128) :
    updatedImage bytes f fp (entryAt f (fp.dirCluster, fp.dirEntry) + k) =
      bytes (entryAt f (fp.dirCluster, fp.dirEntry) + k) := by
  have hcopy : copyBytes (fun _ => 0#8) 0 bytes (f.firstSector fp.dirCluster * 512) (16 * 512)
      (0 + (fp.dirEntry * 128 + k)) =
        bytes (f.firstSector fp.dirCluster * 512 + (fp.dirEntry * 128 + k)) :=
    copy_bytes_inside (by omega)
  rw [Nat.zero_add] at hcopy
  rw [updated_image_entry hhigh (by omega), updateEntry, write_word_outside (by omega),
    Function.update_of_ne (by omega), pad_nulls_outside (by omega), strcpy_outside (by omega),
    fill_bytes_outside (by omega), hcopy, entryAt, Nat.add_assoc]

/-- `update_directory_entry` changes one entry of the directory, which gets the name if it is
busy. -/
theorem updated_image_changes (hf : Geometry f) (bytes : Bytes)
    (hD : f.rootBlk ≤ fp.dirCluster ∧ fp.dirCluster < f.numOfBlk) (hhigh : fp.dirEntry < 64)
    (hlength : (getFileName (cString fp.fname 256 0)).length ≤ 96) :
    ChangesEntry bytes (updatedImage bytes f fp) f fp.dirCluster fp.dirEntry ∧
      (entryName (updatedImage bytes f fp) f fp.dirCluster fp.dirEntry =
          entryName bytes f fp.dirCluster fp.dirEntry ∨
        entryName (updatedImage bytes f fp) f fp.dirCluster fp.dirEntry =
          some (paddedName (getFileName (cString fp.fname 256 0)))) := by
  have hstart := hf.behind_super
  refine ⟨⟨super_block_congr fun i hi => updated_image_outside hlength ?_, fun j hj hne k hk =>
    updated_image_outside hlength ?_, fun c hc hused => ?_⟩, ?_⟩
  · rw [hf.entry_addr hD.2]
    omega
  · have hother : (fp.dirCluster, j) ≠ (fp.dirCluster, fp.dirEntry) := fun heq =>
      hne (congrArg Prod.snd heq)
    have hapart := hf.entries_apart hD.2 hD.2 hj hhigh hother
    omega
  · have htable := hf.table_before hD
    have hbelow : fatAddr f c + 4 ≤ _ := fat_addr_below hc
    have hplaced : entryAt f (fp.dirCluster, fp.dirEntry) =
      f.firstSector fp.dirCluster * 512 + fp.dirEntry * 128 := rfl
    have hsame : fat (updatedImage bytes f fp) f c = fat bytes f c :=
      read_word_congr fun k hk =>
        updated_image_outside hlength (.inl (show fatAddr f c + k < _ by omega))
    rwa [hsame]
  · have hbusy : busy (updatedImage bytes f fp) (entryAt f (fp.dirCluster, fp.dirEntry)) =
        busy bytes (entryAt f (fp.dirCluster, fp.dirEntry)) := by
      rw [busy, updated_image_entry hhigh (by omega)]
      refine (update_entry_busy hlength).trans ?_
      have hcopy : copyBytes (fun _ => 0#8) 0 bytes (f.firstSector fp.dirCluster * 512) (16 * 512)
          (0 + (fp.dirEntry * 128 + 97)) =
            bytes (f.firstSector fp.dirCluster * 512 + (fp.dirEntry * 128 + 97)) :=
        copy_bytes_inside (by omega)
      rwa [Nat.zero_add, ← Nat.add_assoc] at hcopy
    by_cases hfree : busy bytes (entryAt f (fp.dirCluster, fp.dirEntry)) = 0#8
    · refine .inl ?_
      rw [entryName, entryName, if_neg fun h => h.2 (hbusy.trans hfree), if_neg fun h => h.2 hfree]
    · refine .inr (entry_name_some.mpr ⟨hhigh, hbusy ▸ hfree, fun k hk => ?_⟩)
      rw [updated_image_entry hhigh (by omega), update_entry_name hk]

/-- `update_directory_entry` changes its entry, or no byte when the index is that of no entry. -/
theorem update_directory_entry_cases (hf : Geometry f) (bytes : Bytes)
    (hD : f.rootBlk ≤ fp.dirCluster ∧ fp.dirCluster < f.numOfBlk)
    (hlength : (getFileName (cString fp.fname 256 0)).length ≤ 96) :
    (updateDirectoryEntry f fp ⟨bytes, []⟩).2.bytes = bytes ∨
    1 ≤ fp.dirEntry ∧ fp.dirEntry < 64 ∧ ∃ bytes',
      ChangesEntry bytes bytes' f fp.dirCluster fp.dirEntry ∧
      (entryName bytes' f fp.dirCluster fp.dirEntry =
          entryName bytes f fp.dirCluster fp.dirEntry ∨
        entryName bytes' f fp.dirCluster fp.dirEntry =
          some (paddedName (getFileName (cString fp.fname 256 0)))) ∧
      (updateDirectoryEntry f fp ⟨bytes, []⟩).2.bytes = bytes' := by
  by_cases hlow : fp.dirEntry < 1
  · rw [updateDirectoryEntry, if_pos hlow]
    exact .inl rfl
  by_cases hhigh : 64 < fp.dirEntry
  · rw [updateDirectoryEntry, if_neg hlow, if_pos hhigh]
    exact .inl rfl
  rw [update_directory_entry_eq hf.sectorPerBlk (by omega) (by omega)]
  by_cases hlast : fp.dirEntry < 64
  · obtain ⟨hchanges, hname⟩ := updated_image_changes hf bytes hD hlast hlength
    exact .inr ⟨by omega, hlast, _, hchanges, hname, rfl⟩
  · -- entry 64 lies behind the block that is written
    refine .inl (funext fun x => ?_)
    by_cases hx : x < entryAt f (fp.dirCluster, fp.dirEntry)
    · exact updated_image_outside hlength (.inl hx)
    · simp only [entryAt] at hx
      exact copy_bytes_outside (.inr (by omega))

/-- Closing a stream whose block is not to be written. -/
theorem close_r_renamed (hsuper : superBlockAt bytes 512 = f)
    (hflags : fp.flags = 0x6#32 ||| (0x80#32 ||| 0x40#32)) (hmode : fp.mode = 2) :
    (closeR fp ⟨bytes, []⟩).2 = (updateDirectoryEntry f fp ⟨bytes, []⟩).2 := by
  have hfile : fp.flags &&& 0x6#32 ≠ 0#32 := by
    rw [hflags]
    decide
  have hwritten : fp.flags &&& 0x80#32 ≠ 0#32 := by
    rw [hflags]
    decide
  have hskip : fp.flags &&& 0x40#32 ≠ 0#32 := by
    rw [hflags]
    decide
  rw [closeR, flushR, if_neg (not_or.mpr ⟨hfile, not_not.mpr hmode⟩), if_neg hwritten, if_neg hskip,
    fileUpdate, read_super_block_ok rfl]
  simp only [ne_eq, not_true_eq_false, if_false, hsuper]

/-! ### Renaming -/

/-- The name that `rename` writes into the entry at `e`. A name that is too long is not taken over;
then the old one is written again. -/
def renamedTo (bytes : Bytes) (e : Nat) (new : List Byte) : List Byte :=
  getFileName (if filenameMax < new.length then storedName bytes e else new)

theorem last_part_length (path : List Byte) : (lastPart path).length ≤ path.length := by
  rw [lastPart, List.length_reverse]
  exact (List.takeWhile_prefix _).length_le.trans_eq List.length_reverse

theorem stored_name_length (bytes : Bytes) (e : Nat) : (storedName bytes e).length ≤ 96 := by
  refine c_string_length ?_
  rw [Nat.zero_add, assert_fn_behind 96 _ (le_refl 96), copy_bytes_outside (by omega)]

theorem renamed_to_length (bytes : Bytes) (e : Nat) (new : List Byte) :
    (renamedTo bytes e new).length ≤ 96 := by
  rw [renamedTo, get_file_name_last]
  refine (last_part_length _).trans ?_
  split
  case isTrue => exact stored_name_length bytes e
  case isFalse hle => exact not_lt.mp hle

/-- The stream that `rename` closes. -/
theorem rename_opened {pwd behind new : List Byte} {root heap blk : Bytes}
    (hopen : openFile pwd path behind modeUpdate root heap blk ⟨bytes, []⟩ =
      (some fp, ⟨bytes, []⟩)) :
    (rename pwd path behind new root heap blk ⟨bytes, []⟩).2 =
      (closeR { fp with
        fname := if filenameMax < new.length then fp.fname else strcpy fp.fname 0 new
        flags := fp.flags ||| (0x80#32 ||| 0x40#32) } ⟨bytes, []⟩).2 := by
  rw [rename, hopen]

/-- `rename` writes the name into the entry that `dir_entry` of the found entry names, or it changes
nothing. -/
theorem rename_changes (hsuper : superBlockAt bytes 512 = f) (hf : Geometry f)
    (hD : f.rootBlk ≤ D ∧ D < f.numOfBlk) (hold : 0#8 ∉ path) {new : List Byte} (hnew : 0#8 ∉ new)
    (hleads : LeadsTo bytes f D pwd path behind root) (heap blk : Bytes) :
    (rename pwd path behind new root heap blk ⟨bytes, []⟩).2.bytes = bytes ∨
    ∃ i t bytes', entryName bytes f D i = some (paddedName (getFileName (dropSlash path))) ∧
      t = dirEntry bytes (entryAt f (D, i)) ∧ 1 ≤ t ∧ t < 64 ∧ ChangesEntry bytes bytes' f D t ∧
      (entryName bytes' f D t = entryName bytes f D t ∨
        entryName bytes' f D t = some (paddedName (renamedTo bytes (entryAt f (D, i)) new))) ∧
      (rename pwd path behind new root heap blk ⟨bytes, []⟩).2.bytes = bytes' := by
  obtain ⟨i, d, hfound, hd, hopen⟩ | ⟨-, hnone | ⟨hflg, -⟩⟩ :=
    open_file_cases hsuper hf hD.1 hold hleads modeUpdate heap blk
  · obtain ⟨fp, hentry, hfname, hmode, hflags, hcluster, hindex, -⟩ := open_entry_ok
      (show (⟨bytes, []⟩ : Disk).fails = [] from rfl) d { f with rootBlk := D } modeUpdate heap blk
    have hentryAt := copied_entry_name hd
    have hdirEntry : dirEntry d 0 = dirEntry bytes (entryAt f (D, i)) :=
      copied_entry_word hd (by omega)
    rw [rename_opened (hopen.trans hentry)]
    generalize hstream : ({ fp with
      fname := if filenameMax < new.length then fp.fname else strcpy fp.fname 0 new
      flags := fp.flags ||| (0x80#32 ||| 0x40#32) } : File) = renamed
    have hname : getFileName (cString renamed.fname 256 0) =
        renamedTo bytes (entryAt f (D, i)) new := by
      rw [← hstream, renamedTo]
      by_cases hlong : filenameMax < new.length
      · simp only [if_pos hlong]
        rw [hfname, hentryAt]
        rfl
      · simp only [if_neg hlong]
        have hshort : new.length < 256 := by
          unfold filenameMax at hlong
          omega
        rw [c_string_eq (strcpy_holds fp.fname 0 new) hnew hshort]
    have hlength : (getFileName (cString renamed.fname 256 0)).length ≤ 96 := by
      rw [hname]
      exact renamed_to_length bytes _ new
    have hcluster' : renamed.dirCluster = D := by
      rw [← hstream]
      exact hcluster
    have hindex' : renamed.dirEntry = dirEntry bytes (entryAt f (D, i)) := by
      rw [← hstream]
      exact hindex.trans hdirEntry
    have hclose : (closeR renamed ⟨bytes, []⟩).2 =
        (updateDirectoryEntry f renamed ⟨bytes, []⟩).2 := by
      refine close_r_renamed hsuper ?_ ?_
      · rw [← hstream, hflags]
      · rw [← hstream]
        exact hmode
    have hcases := update_directory_entry_cases hf bytes
      (show f.rootBlk ≤ renamed.dirCluster ∧ renamed.dirCluster < f.numOfBlk from hcluster' ▸ hD)
      hlength
    rw [hcluster', hname, hindex'] at hcases
    rw [hclose]
    obtain hsame | ⟨hlow, hhigh, bytes', hchanges, hnamed, hrun⟩ := hcases
    · exact .inl hsame
    · exact .inr ⟨i, _, bytes', hfound, rfl, hlow, hhigh, hchanges, hnamed, hrun⟩
  · rw [rename, hnone]
    exact .inl rfl
  · exact absurd hflg (by decide)

end Sirius.Cfs.User
