import Sirius.Cfs.Lookup
import Sirius.Cfs.Names
import Sirius.Cfs.OpenFile

/-!
# Removing a file in the user library

`remove_file` splits a path, follows its directories from the root directory, clears the busy mark
of the entry, and lets `remove_blk` free the chain of the file. `remove_blk` holds one sector of the
allocation table and writes it back when the chain goes on in another one.
-/

namespace Sirius.Cfs.User

open Library

/-! ### Paths -/

/-- `':'` -/
def colon : Byte := 0x3a#8

/-- `getpathname`: the full path of a name, from the working directory `pwd` unless the name starts
with a drive. A slash at the end of the name is dropped. -/
def getpathname (pwd src : List Byte) : List Byte :=
  let name := if src.getLast? = some slash then src.dropLast else src
  if 1 < src.length ∧ name.getD 1 0#8 = colon then name
  else if name.getD 0 0#8 = slash then pwd ++ name
  else pwd ++ slash :: name

/-- `getfilename`: the part of the path before its last component, and that component. -/
def getfilename (path : List Byte) : List Byte × List Byte :=
  let filename := (path.reverse.takeWhile (· ≠ slash)).reverse
  (path.take (path.length - filename.length), filename)

/-- `path_count` -/
def pathCount (path : List Byte) : Nat := path.count slash

/-- `tpath += 3`. Behind the end of a shorter path lies the string `behind`. -/
def skipDrive (path behind : List Byte) : List Byte :=
  if 3 ≤ path.length then path.drop 3 else behind

/-! ### Directories -/

/-- The comparison of `read_directory_blk` with an entry: a busy directory with that name. -/
def directoryCmp (root : Bytes) (filename : List Byte) (i : Nat) : Int :=
  if busy root (i * 128) ≠ 0#8 ∧ attr root (i * 128) &&& 0x40#8 ≠ 0#8 then
    filenameCmp root (i * 128) (stringBytes filename)
  else -1

/-- The loop of `read_directory_blk`: `count` components of the path are left. -/
def directoryLoop (f : SuperBlock) : (count : Nat) → (tpath : List Byte) → (r firstSector : Nat) →
    (root : Bytes) → Disk → Nat × Disk
  | 0, _, r, _, _, disk => (r, disk)
  | count + 1, tpath, _, firstSector, root, disk =>
      let filename := tpath.takeWhile (· ≠ slash)
      let tpath := (tpath.dropWhile (· ≠ slash)).drop 1
      let (r, root, disk) := readSector disk f.sectorPerBlk firstSector root
      if r ≠ 0 then (0, disk)
      else
        let (i, r) := searchEntries (directoryCmp root filename) 64 0 r
        if r = 0 ∧ i < 64 then
          let blk := firstBlk root (i * 128)
          directoryLoop f count tpath blk (f.firstSector blk) root disk
        else (0, disk)

/-- `read_directory_blk`: the block of the directory, or 0. `root` is the memory from `malloc`. -/
def readDirectoryBlk (f : SuperBlock) (tpath : List Byte) (root : Bytes) (disk : Disk) :
    Nat × Disk :=
  directoryLoop f (pathCount tpath) tpath f.rootBlk (f.firstSector f.rootBlk) root disk

/-! ### Chains -/

/-- The start of a round of `remove_blk`: the buffered sector is written back, and the one of the
next entry is read, unless they are the same. -/
def switchSector (start flgStart wstart w : Nat) (blk : Bytes) (disk : Disk) : Int × Bytes × Disk :=
  if start ≠ flgStart then
    let (r, disk) := if w ≠ 0 then writeSector disk 1 wstart blk else (0, disk)
    if r ≠ 0 then (-1, blk, disk)
    else
      let (r, blk, disk) := readSector disk 1 start blk
      if r ≠ 0 then (-1, blk, disk) else (0, blk, disk)
  else (0, blk, disk)

/-- The loop of `remove_blk` for at most `n` rounds; `none` means that more are needed. -/
def removeLoop (f : SuperBlock) : (n index flgStart start wstart w : Nat) → (blk : Bytes) → Disk →
    Option (Int × Disk)
  | 0, _, _, _, _, _, _, _ => none
  | n + 1, index, flgStart, start, wstart, w, blk, disk =>
      let (r, blk, disk) := switchSector start flgStart wstart w blk disk
      if r ≠ 0 then some (-1, disk)
      else
        let wstart := if start ≠ flgStart then start else wstart
        let w := if start ≠ flgStart then 1 else w
        let indexTmp := index % (f.bytePerSector / 4)
        let index := readWord blk (indexTmp * 4)
        let blk := writeWord blk (indexTmp * 4) 0
        if index = endMark then some (writeSector disk 1 wstart blk)
        else removeLoop f n index start (f.fatSector index) wstart w blk disk

/-- `remove_blk` -/
def removeBlk (n first : Nat) (f : SuperBlock) (blk : Bytes) (disk : Disk) : Option (Int × Disk) :=
  let start := f.fatSector first
  removeLoop f n first endMark start start 0 blk disk

/-- The comparison of `remove_file` with an entry. -/
def removeCmp (root : Bytes) (filename : List Byte) (i : Nat) : Int :=
  if busy root (i * 128) ≠ 0#8 then filenameCmp root (i * 128) (stringBytes filename) else -1

/-- `remove_file` behind the split of the path, with at most `n` rounds of `remove_blk`. `heap`,
`root` and `blk` are memory that `malloc` returns. -/
def removeEntry (n : Nat) (tpath filename : List Byte) (heap root blk : Bytes) (disk : Disk) :
    Option (Int × Disk) :=
  let (r, f, disk) := readSuperBlock disk
  if r ≠ 0 then some (0, disk)
  else
    let (dir, disk) := readDirectoryBlk f tpath heap disk
    if dir = 0 then some (-1, disk)
    else
      let f := { f with rootBlk := dir }
      let (r, root, disk) := readRoot disk f root
      if r ≠ 0 then some (r, disk)
      else
        let (i, r) := searchEntries (removeCmp root filename) 64 0 r
        if r ≠ 0 then some (r, disk)
        else
          let root := Function.update root (i * 128 + 97) 0#8
          let (r, disk) := writeSector disk f.sectorPerBlk (f.firstSector f.rootBlk) root
          if r ≠ 0 then some (r, disk) else removeBlk n (firstBlk root (i * 128)) f blk disk

/-- `remove_file` -/
def removeFile (n : Nat) (pwd path behind : List Byte) (heap root blk : Bytes) (disk : Disk) :
    Option (Int × Disk) :=
  let (tpath, filename) := getfilename (getpathname pwd path)
  removeEntry n (skipDrive tpath behind) filename heap root blk disk

/-! ### Freeing a chain -/

/-- Where the entry of a block in the allocation table is. -/
def fatAddr (f : SuperBlock) (b : Nat) : Nat := f.dataSector * 512 + 4 * b

/-- The disk after the entries of the blocks have been cleared. -/
def freed (f : SuperBlock) (l : List Nat) (bytes : Bytes) : Bytes :=
  l.foldl (fun m b => writeWord m (fatAddr f b) 0) bytes

variable {f : SuperBlock} {disk : Disk} {bytes blk : Bytes} {b c n : Nat} {l : List Nat}

theorem fat_write_other (h : b ≠ c) (v : Nat) :
    fat (writeWord bytes (fatAddr f b) v) f c = fat bytes f c :=
  read_write_word_other (by unfold fatAddr; omega)

theorem fat_write_same {v : Nat} (hv : v < 2 ^ 32) :
    fat (writeWord bytes (fatAddr f b) v) f b = v :=
  read_write_word_same hv

/-- The cleared entries are free, and the others stay. -/
theorem fat_freed : fat (freed f l bytes) f c = if c ∈ l then 0 else fat bytes f c := by
  induction l generalizing bytes with
  | nil => rfl
  | cons b l ih =>
      show fat (freed f l (writeWord bytes (fatAddr f b) 0)) f c = _
      rw [ih]
      by_cases hl : c ∈ l
      · rw [if_pos hl, if_pos (List.mem_cons_of_mem b hl)]
      · rw [if_neg hl]
        by_cases hb : b = c
        · rw [if_pos (hb ▸ List.mem_cons_self ..), hb]
          exact fat_write_same (Nat.two_pow_pos 32)
        · rw [if_neg (List.not_mem_cons_of_ne_of_not_mem (Ne.symm hb) hl), fat_write_other hb]

/-- Clearing entries changes the allocation table only. -/
theorem freed_outside {x : Nat} (hrange : ∀ b ∈ l, b < n)
    (hx : x < fatAddr f 0 ∨ fatAddr f n ≤ x) : freed f l bytes x = bytes x := by
  induction l generalizing bytes with
  | nil => rfl
  | cons b l ih =>
      have hb := hrange b (List.mem_cons_self ..)
      show freed f l (writeWord bytes (fatAddr f b) 0) x = _
      rw [ih fun c hc => hrange c (List.mem_cons_of_mem b hc)]
      refine write_word_outside ?_
      unfold fatAddr at hx ⊢
      generalize f.dataSector * 512 = start at hx ⊢
      omega

/-- The buffer of `remove_blk` and the disk together hold `bytes`: nothing is buffered yet, or the
buffer replaces sector `wstart`. -/
def Buffered (flgStart wstart w : Nat) (blk : Bytes) (disk : Disk) (bytes : Bytes) : Prop :=
  (w = 0 ∧ flgStart = endMark ∧ bytes = disk.bytes) ∨
    (w = 1 ∧ flgStart = wstart ∧ bytes = copyBytes disk.bytes (wstart * 512) blk 0 (1 * 512))

/-- Writing back a sector that was read. -/
theorem copy_holds_sector {start : Nat} (h : HoldsSector blk bytes start) :
    copyBytes bytes (start * 512) blk 0 (1 * 512) = bytes := by
  funext x
  by_cases hin : start * 512 ≤ x ∧ x < start * 512 + 1 * 512
  · rw [copyBytes, if_pos hin, Nat.zero_add, h _ (by omega), Nat.add_sub_cancel' hin.1]
  · rw [copyBytes, if_neg hin]

/-- The buffered sector as a part of the disk. -/
theorem holds_sector_buffered (start : Nat) :
    HoldsSector blk (copyBytes bytes (start * 512) blk 0 (1 * 512)) start := by
  intro k hk
  have hcopy : copyBytes bytes (start * 512) blk 0 (1 * 512) (start * 512 + k) = blk (0 + k) :=
    copy_bytes_inside (by omega)
  rw [hcopy, Nat.zero_add]

/-- After the start of a round the buffer holds the sector of the entry. -/
theorem switch_sector_spec {start flgStart wstart w : Nat} (hok : disk.fails = [])
    (hstart : w = 0 → start ≠ endMark) (h : Buffered flgStart wstart w blk disk bytes) :
    ∃ blk' disk', switchSector start flgStart wstart w blk disk = (0, blk', disk') ∧
      disk'.fails = [] ∧ (if start ≠ flgStart then start else wstart) = start ∧
      (if start ≠ flgStart then 1 else w) = 1 ∧
      bytes = copyBytes disk'.bytes (start * 512) blk' 0 (1 * 512) := by
  rcases h with ⟨rfl, rfl, rfl⟩ | ⟨rfl, rfl, hbytes⟩
  · replace hstart := hstart rfl
    refine ⟨copyBytes blk 0 disk.bytes (start * 512) (1 * 512), disk, ?_, hok, if_pos hstart,
      if_pos hstart, (copy_holds_sector (holds_sector_copy blk disk.bytes start)).symm⟩
    simp only [switchSector, if_pos hstart, ne_eq, not_true_eq_false, if_false, read_sector_ok hok]
  · by_cases hsame : start = flgStart
    · subst hsame
      refine ⟨blk, disk, ?_, hok, ite_self _, ite_self _, hbytes⟩
      simp only [switchSector, ne_eq, not_true_eq_false, if_false]
    · have hread : readSector { disk with bytes := bytes } 1 start blk =
          (0, copyBytes blk 0 bytes (start * 512) (1 * 512), { disk with bytes := bytes }) :=
        read_sector_ok hok
      refine ⟨copyBytes blk 0 bytes (start * 512) (1 * 512), { disk with bytes := bytes }, ?_, hok,
        if_pos hsame, if_pos hsame, (copy_holds_sector (holds_sector_copy blk bytes start)).symm⟩
      simp only [switchSector, if_pos hsame, ne_eq, Nat.one_ne_zero, not_false_eq_true, if_true,
        write_sector_ok hok, not_true_eq_false, if_false, ← hbytes, hread]

/-- Where `remove_blk` finds the entry of any number. -/
def slotAddr (f : SuperBlock) (index : Nat) : Nat := f.fatSector index * 512 + index % 128 * 4

/-- For a block of the disk this is the entry of the block. -/
theorem slot_addr_eq (hsize : f.bytePerSector = 512) (hb : f.InRange b) :
    slotAddr f b = fatAddr f b := by
  rw [slotAddr, fatAddr, fat_sector_eq hsize hb]
  omega

/-- The word in the buffered sector. -/
theorem buffered_word (h : HoldsSector blk bytes (f.fatSector b)) :
    readWord blk (b % 128 * 4) = readWord bytes (slotAddr f b) :=
  read_word_congr fun k hk => by
    rw [h _ (by omega), slotAddr, Nat.add_assoc]

/-- Clearing a word in the buffered sector. -/
theorem buffered_clear (h : bytes = copyBytes disk.bytes (f.fatSector b * 512) blk 0 (1 * 512)) :
    writeWord bytes (slotAddr f b) 0 = copyBytes disk.bytes (f.fatSector b * 512)
      (writeWord blk (b % 128 * 4) 0) 0 (1 * 512) := by
  have hholds : HoldsSector blk bytes (f.fatSector b) := h ▸ holds_sector_buffered (f.fatSector b)
  unfold slotAddr
  funext x
  by_cases hin : f.fatSector b * 512 ≤ x ∧ x < f.fatSector b * 512 + 1 * 512
  · have hbyte := hholds (x - f.fatSector b * 512) (by omega)
    rw [Nat.add_sub_cancel' hin.1] at hbyte
    rw [copyBytes, if_pos hin, Nat.zero_add, writeWord, writeWord, hbyte]
    by_cases hword : f.fatSector b * 512 + b % 128 * 4 ≤ x ∧
        x < f.fatSector b * 512 + b % 128 * 4 + 4
    · rw [if_pos hword, if_pos (by omega), Nat.zero_div, Nat.zero_div]
    · rw [if_neg hword, if_neg (by omega)]
  · rw [copyBytes, if_neg hin, write_word_outside (by omega), h, copyBytes, if_neg hin]

/-- One round of `remove_blk`: it clears the word of its number, in the buffer and the disk together,
and goes on with the number that was in it, or it ends. -/
theorem remove_round (hsize : f.bytePerSector = 512) {flgStart wstart w : Nat}
    (hok : disk.fails = []) (hstart : w = 0 → f.fatSector b ≠ endMark)
    (h : Buffered flgStart wstart w blk disk bytes) :
    ∃ blk' disk', disk'.fails = [] ∧
      Buffered (f.fatSector b) (f.fatSector b) 1 blk' disk' (writeWord bytes (slotAddr f b) 0) ∧
      ∀ n, removeLoop f (n + 1) b flgStart (f.fatSector b) wstart w blk disk =
        if readWord bytes (slotAddr f b) = endMark then
          some (0, ⟨writeWord bytes (slotAddr f b) 0, []⟩)
        else removeLoop f n (readWord bytes (slotAddr f b)) (f.fatSector b)
          (f.fatSector (readWord bytes (slotAddr f b))) (f.fatSector b) 1 blk' disk' := by
  obtain ⟨blk', disk', hswitch, hok', hw, hone, hbytes⟩ := switch_sector_spec hok hstart h
  have hholds : HoldsSector blk' bytes (f.fatSector b) :=
    hbytes ▸ holds_sector_buffered (f.fatSector b)
  have hword := buffered_word hholds
  have hclear := buffered_clear hbytes
  refine ⟨_, disk', hok', .inr ⟨rfl, rfl, hclear⟩, fun n => ?_⟩
  rw [removeLoop, hswitch]
  simp only [ne_eq, not_true_eq_false, if_false, hsize, Nat.reduceDiv, hword]
  simp only [ne_eq] at hw hone
  rw [hw, hone]
  split
  case isTrue => rw [write_sector_ok hok', ← hclear, hok']
  case isFalse => rfl

/-- A round for a block of the disk. -/
theorem remove_round_block (hf : Formatted f) (hb : b < f.numOfBlk) {flgStart wstart w : Nat}
    (hok : disk.fails = []) (h : Buffered flgStart wstart w blk disk bytes) :
    ∃ blk' disk', disk'.fails = [] ∧
      Buffered (f.fatSector b) (f.fatSector b) 1 blk' disk' (writeWord bytes (fatAddr f b) 0) ∧
      ∀ n, removeLoop f (n + 1) b flgStart (f.fatSector b) wstart w blk disk =
        if fat bytes f b = endMark then some (0, ⟨writeWord bytes (fatAddr f b) 0, []⟩)
        else removeLoop f n (fat bytes f b) (f.fatSector b) (f.fatSector (fat bytes f b))
          (f.fatSector b) 1 blk' disk' := by
  have hin : f.InRange b := hf.in_range hb
  have hround := remove_round hf.bytePerSector hok
    (fun _ => fat_sector_ne_end hf.bytePerSector hin) h
  rwa [slot_addr_eq hf.bytePerSector hin] at hround

/-- The loop of `remove_blk` on a chain: it clears the entries of its blocks and nothing else. The
induction is on the chain; the buffer and the disk together hold the bytes reached so far. -/
theorem remove_loop_spec (hf : Formatted f) (l : List Nat) :
    ∀ (n index flgStart wstart w : Nat) (blk bytes : Bytes) (disk : Disk),
    Chain bytes f index l → l ≠ [] → (∀ b ∈ l, b < f.numOfBlk) → l.length ≤ n →
    disk.fails = [] → Buffered flgStart wstart w blk disk bytes →
    removeLoop f n index flgStart (f.fatSector index) wstart w blk disk =
      some (0, ⟨freed f l bytes, []⟩) := by
  induction l with
  | nil => exact fun _ _ _ _ _ _ _ _ _ hne => absurd rfl hne
  | cons b l ih =>
      intro n index flgStart wstart w blk bytes disk hchain _ hrange hn hok hbuffered
      obtain ⟨rfl, hmark, hrest⟩ := id hchain
      obtain ⟨blk', disk', hok', hbuffered', hround⟩ :=
        remove_round_block hf (hrange index (List.mem_cons_self ..)) hok hbuffered
      cases n with
      | zero => exact absurd hn (by simp)
      | succ n =>
          rw [hround n]
          cases l with
          | nil =>
              rw [if_pos (Linked.nil_iff.mp hrest)]
              rfl
          | cons c l =>
              have hnodup := hchain.nodup
              have hrest' : Chain (writeWord bytes (fatAddr f index) 0) f (fat bytes f index)
                  (c :: l) := by
                refine hrest.congr fun d hd => fat_write_other ?_ 0
                exact fun heq => (List.nodup_cons.mp hnodup).1 (heq ▸ hd)
              have hnext : fat bytes f index ≠ endMark := hrest.1 ▸ hrest.2.1
              rw [if_neg hnext]
              exact ih n _ _ _ 1 _ _ disk' hrest' (List.cons_ne_nil _ _)
                (fun d hd => hrange d (List.mem_cons_of_mem _ hd))
                (by rw [List.length_cons] at hn; omega) hok' hbuffered'

end Sirius.Cfs.User
