import Sirius.Cfs.Rename

/-!
# Files that grow

`putc_r` at the end of a file makes the file one byte longer; the blocks of the stream stay those
that the file had when it was opened. A session that writes inside these blocks only, and uses the
buffer for the block it holds, leaves the directory entry, the chain and the content of the file in
agreement when it is closed. `write_r` counts the calls of `putc_r`, not the bytes that they store.
-/

namespace Sirius.Cfs

open Library Stdio User

/-! ### `write_r` -/

/-- The loop of `write_r` over the `n` bytes from number `i` on. `none` is a call of `stdputc_r` for
a standard stream. -/
def writeLoop (buf : Bytes) : (n i : Nat) → File → Disk → Option (File × Disk)
  | 0, _, fp, disk => some (fp, disk)
  | n + 1, i, fp, disk => do
      let (_, fp, disk) ← putcR ((buf i).setWidth 32) fp disk
      writeLoop buf n (i + 1) fp disk

/-- `write_r`, with its result. `none` stands also for the division by a size of 0, and for a loop
whose counter, an `int`, overflows. -/
def writeR (buffer : Bytes) (size count : Nat) (fp : File) (disk : Disk) :
    Option (Nat × File × Disk) :=
  let n := size * count % 2 ^ 64
  if 2 ^ 31 ≤ n then none
  else do
    let (fp, disk) ← writeLoop buffer n 0 fp disk
    if size = 0 then none else some (n / size, fp, disk)

/-! ### Sessions -/

/-- The calls on a stream before `close_r`. -/
inductive GrowthEvent
  | putc (ch : BitVec 32)
  | write (buffer : Bytes) (size count : Nat)
  | seek (numBytes : Int) (origin : Origin)

/-- `putc_r`, with what it does to the abstract file. -/
def Session.putc (s : Session) (ch : BitVec 32) : Option Session :=
  (putcR ch s.fp s.disk).map fun (_, fp, disk) =>
    { fp, disk, cached := s.block, bytes := putAt s.bytes s.fp.off (ch.setWidth 8), pos := fp.off }

/-- The loop of `write_r`, with what it does to the abstract file. -/
def Session.writeLoop (buf : Bytes) : (n i : Nat) → Session → Option Session
  | 0, _, s => some s
  | n + 1, i, s => do
      let s ← s.putc ((buf i).setWidth 32)
      s.writeLoop buf n (i + 1)

/-- A call. -/
def Session.grow (s : Session) : GrowthEvent → Option Session
  | .putc ch => s.putc ch
  | .write buffer size count => s.writeLoop buffer (size * count % 2 ^ 64) 0
  | .seek numBytes origin =>
      let fp := seekR numBytes origin s.fp
      some { s with fp, pos := fp.off }

/-- The transitions of a session. -/
def GrowthStep (s : Session) (event : GrowthEvent) (t : Session) : Prop := s.grow event = some t

/-- The next `n` bytes go into the `blocks` blocks of the file, without a gap, and their positions
are 32-bit numbers. -/
def Session.Room (blocks n : Nat) (s : Session) : Prop :=
  s.fp.off ≤ s.bytes.length ∧ s.fp.off + n ≤ 8192 * blocks ∧ s.fp.off + n < 2 ^ 32

/-- A call writes inside the blocks, and what it does with the buffer loses nothing. For `write_r`
this includes the one case in which `putc_r` does not flush a full block: when its byte is the first
one that is written, and the last one of the block. -/
def Session.Fits (blocks : Nat) (s : Session) : GrowthEvent → Prop
  | .putc _ => s.Room blocks 1 ∧ s.Coherent .getc
  | .write _ size count =>
      size ≠ 0 ∧ size * count < 2 ^ 31 ∧ (0 < size * count →
        s.Room blocks (size * count) ∧ s.Coherent .getc ∧
          (1 < size * count → s.Written ∨ s.fp.off % 8192 ≠ 8191))
  | .seek .. => True

/-- The bytes with `data` from the position on. -/
def putBytes (bytes : List Byte) (pos : Nat) (data : List Byte) : List Byte :=
  bytes.take pos ++ data ++ bytes.drop (pos + data.length)

variable {fp : File} {disk disk₀ : Disk} {f : SuperBlock} {d : Bytes} {l : List Nat}
  {s t : Session} {ch : BitVec 32} {buf : Bytes} {n i j : Nat} {bytes data : List Byte} {b : Byte}
  {pos : Nat}

theorem put_bytes_nil : putBytes bytes pos [] = bytes := by
  rw [putBytes, List.append_nil, List.length_nil, Nat.add_zero, List.take_append_drop]

/-- The first byte, and then the others. -/
theorem put_bytes_cons (hle : pos ≤ bytes.length) :
    putBytes (putAt bytes pos b) (pos + 1) data = putBytes bytes pos (b :: data) := by
  have htake : (putAt bytes pos b).take (pos + 1) = bytes.take pos ++ [b] := by
    unfold putAt
    split
    case isTrue hlt =>
        rw [List.take_succ_eq_append_getElem (by rw [List.length_set]; exact hlt),
          List.getElem_set_self, List.take_set_of_le le_rfl]
    case isFalse hend =>
        obtain rfl : pos = bytes.length := by omega
        rw [List.take_length, List.take_of_length_le (by simp)]
  have hdrop : ∀ k, pos < k → (putAt bytes pos b).drop k = bytes.drop k := by
    intro k hk
    unfold putAt
    split
    · rw [List.drop_set_of_lt hk]
    · rw [List.drop_eq_nil_of_le (by simp; omega), List.drop_eq_nil_of_le (by omega)]
  rw [putBytes, putBytes, htake, hdrop _ (by omega), List.append_assoc (bytes.take pos),
    List.singleton_append, List.length_cons, Nat.add_assoc, Nat.add_comm 1]

/-! ### The file that is opened -/

/-- An existing file whose entry `d` says where it lies in the directory block `f.rootBlk`, with the
directory and the blocks behind the allocation table. -/
structure GrowingFile (disk : Disk) (f : SuperBlock) (d : Bytes) (l : List Nat) : Prop
    extends ExistingFile disk f d l where
  index : 1 ≤ dirEntry d 0 ∧ dirEntry d 0 < 64
  entry : ∀ k < 128, d k = disk.bytes (entryAt f (f.rootBlk, dirEntry d 0) + k)
  dirBehind : 4 * f.numOfBlk ≤ 8192 * f.rootBlk
  behind : ∀ b ∈ l, 4 * f.numOfBlk ≤ 8192 * b

/-- The fields of a stream that no call changes. -/
structure OpenedAs (f : SuperBlock) (d : Bytes) (l : List Nat) (fp : File) : Prop where
  table : HasTable f fp (l.take (1024 * 1024))
  dirCluster : fp.dirCluster = f.rootBlk
  dirEntry : fp.dirEntry = dirEntry d 0
  fname : fp.fname = assertFn (copyBytes (fun _ => 0#8) 0 d 0 96) 96

/-- A byte outside the blocks of the file, and outside the name and the size in the entry. -/
def Kept (f : SuperBlock) (d : Bytes) (l : List Nat) (i : Nat) : Prop :=
  (∀ b ∈ l, i < f.firstSector b * 512 ∨ (f.firstSector b + 16) * 512 ≤ i) ∧
    (i < entryAt f (f.rootBlk, dirEntry d 0) ∨
      entryAt f (f.rootBlk, dirEntry d 0) + 97 ≤ i ∧
        i < entryAt f (f.rootBlk, dirEntry d 0) + 111 ∨
      entryAt f (f.rootBlk, dirEntry d 0) + 115 ≤ i)

/-- The name of an opened file fits in its entry. -/
theorem OpenedAs.name_length (h : OpenedAs f d l fp) :
    (getFileName (cString fp.fname 256 0)).length ≤ 96 := by
  rw [get_file_name_last]
  refine (last_part_length _).trans (c_string_length ?_)
  rw [Nat.zero_add, h.fname, assert_fn_behind 96 _ le_rfl]
  exact copy_bytes_outside (.inr le_rfl)

/-- The super block of the disk gives the sectors of `f`. -/
theorem first_sector_super (hsuper : f = { superBlockAt disk.bytes 512 with rootBlk := f.rootBlk })
    (b : Nat) : (superBlockAt disk.bytes 512).firstSector b = f.firstSector b := by
  conv_rhs => rw [hsuper]
  rfl

/-- `file_update` of an opened file. -/
theorem file_update_opened (hplaced : Placed fp disk) (hopened : OpenedAs f d l fp)
    (hindex : 1 ≤ dirEntry d 0 ∧ dirEntry d 0 < 64) :
    (fileUpdate fp disk).2 =
      ⟨updatedImage disk.bytes (superBlockAt disk.bytes 512) fp, []⟩ := by
  obtain ⟨bytes, fails⟩ := disk
  obtain rfl : fails = [] := hplaced.ok
  have hlow := hindex.1
  have hhigh := hindex.2
  rw [← hopened.dirEntry] at hlow hhigh
  simp only [fileUpdate, read_super_block_ok, ne_eq, not_true_eq_false, if_false]
  rw [update_directory_entry_eq hplaced.geometry hlow hhigh.le]

/-- Updating the image changes the name and the size in the entry. -/
theorem updated_image_other (hsuper : f = { superBlockAt disk.bytes 512 with rootBlk := f.rootBlk })
    (hopened : OpenedAs f d l fp) (hindex : 1 ≤ dirEntry d 0 ∧ dirEntry d 0 < 64)
    (hi : Kept f d l i) :
    updatedImage disk.bytes (superBlockAt disk.bytes 512) fp i = disk.bytes i := by
  have hlength := hopened.name_length
  have haddr : entryAt (superBlockAt disk.bytes 512) (fp.dirCluster, fp.dirEntry) =
      entryAt f (f.rootBlk, dirEntry d 0) := by
    simp only [entryAt, first_sector_super hsuper, hopened.dirCluster, hopened.dirEntry]
  have hhigh : fp.dirEntry < 64 := hopened.dirEntry ▸ hindex.2
  obtain ⟨-, hentry⟩ := hi
  rw [← haddr] at hentry
  generalize hE : entryAt (superBlockAt disk.bytes 512) (fp.dirCluster, fp.dirEntry) = e at hentry
  by_cases hout : i < e ∨ e + 128 ≤ i
  · exact updated_image_outside hlength (hE ▸ hout)
  · obtain ⟨k, rfl⟩ := Nat.exists_eq_add_of_le (show e ≤ i by omega)
    rw [← hE]
    exact updated_image_kept hhigh hlength (by omega)

/-- `flush_r` changes the blocks of the file, and the name and the size in its entry. -/
theorem flush_kept (hplaced : Placed fp disk) {loaded written : Bool}
    (hflags : fp.flags = streamFlags loaded written)
    (hsuper : f = { superBlockAt disk.bytes 512 with rootBlk := f.rootBlk })
    (hopened : OpenedAs f d l fp) (hindex : 1 ≤ dirEntry d 0 ∧ dirEntry d 0 < 64)
    (hi : Kept f d l i) : (flushR fp disk).2.bytes i = disk.bytes i := by
  cases written with
  | false => rw [flush_r_unwritten hflags hplaced.mode]
  | true =>
      have hwrite := file_write_block_super hplaced (fp.off / 8192)
      have hplaced' : Placed fp (fileWriteBlock fp (fp.off / 8192) disk).2 :=
        hplaced.frame ⟨rfl, rfl, rfl, rfl, rfl, rfl, rfl⟩ hwrite
      rw [flush_r_eq hplaced hflags, file_update_opened hplaced' hopened hindex]
      show updatedImage _ _ fp i = _
      rw [updated_image_other (by rw [hwrite.super_block]; exact hsuper) hopened hindex hi]
      refine file_write_block_outside hplaced.ok hplaced.count fun a ha => ?_
      obtain ⟨b, hb, -, hblock⟩ := hopened.table.block ha
      rw [hblock]
      exact hi.1 b (List.mem_of_mem_take hb)

/-! ### Calls that fit -/

/-- The stream and the disk hold the abstract file, and the rest of the disk is as it was when the
file was opened. -/
structure GrowthInv (disk₀ : Disk) (f : SuperBlock) (d : Bytes) (l : List Nat) (s : Session) :
    Prop where
  holds : Holds s
  opened : OpenedAs f d l s.fp
  kept : ∀ i, Kept f d l i → s.disk.bytes i = disk₀.bytes i
  unwritten : ¬ s.Written → s.disk = disk₀ ∧ s.fp.fsize = fileSize d 0

/-- The super block is not touched. -/
theorem GrowthInv.super (h : GrowthInv disk₀ f d l s) (hfile : GrowingFile disk₀ f d l) :
    f = { superBlockAt s.disk.bytes 512 with rootBlk := f.rootBlk } := by
  have hsame : superBlockAt s.disk.bytes 512 = superBlockAt disk₀.bytes 512 := by
    refine super_block_congr fun i hi => h.kept _ ⟨fun b hb => .inl ?_, .inl ?_⟩
    · have hsector := hfile.formatted.first_sector (hfile.range b hb)
      have hdata := hfile.formatted.data_sector
      have hlow := hfile.formatted.dataSector
      omega
    · have hsector := hfile.formatted.first_sector hfile.directory.1
      have hdata := hfile.formatted.data_sector
      have hlow := hfile.formatted.dataSector
      simp only [entryAt]
      omega
  rw [hsame]
  exact hfile.super

/-- The position is in a block of the table. -/
theorem GrowthInv.block_lt (h : GrowthInv disk₀ f d l s) (hroom : s.Room l.length (n + 1)) :
    s.fp.off / 8192 < s.fp.numOfBlocks := by
  obtain ⟨-, hblocks, hword⟩ := hroom
  rw [h.opened.table.numOfBlocks, List.length_take]
  omega

/-- What `putc_r` needs to know of a call that fits. -/
theorem GrowthInv.fits (h : GrowthInv disk₀ f d l s) (hroom : s.Room l.length (n + 1)) :
    s.fp.off ≤ s.fp.fsize ∧ s.fp.off / 8192 < s.fp.numOfBlocks ∧ s.fp.off + 1 < 2 ^ 32 := by
  have hlength := h.holds.length
  obtain ⟨hle, -, hword⟩ := id hroom
  exact ⟨by omega, h.block_lt hroom, by omega⟩

/-- The calls on an opened file do not reach the standard streams. -/
theorem GrowthInv.putc_eq (h : GrowthInv disk₀ f d l s) (hroom : s.Room l.length (n + 1))
    (hgood : s.Coherent .getc) (ch : BitVec 32) :
    putcR ch s.fp s.disk = some (0, (s.put ch).fp, (s.put ch).disk) ∧
      s.putc ch = some (s.put ch) := by
  obtain ⟨hle, hlt, hsmall⟩ := h.fits hroom
  obtain ⟨level, written, -, hstored, hfp, -⟩ := put_fields h.holds ch hle hlt hsmall hgood
  obtain ⟨loaded, written', hflags⟩ := h.holds.flags
  have hfile := stream_flags_file loaded written'
  rw [← hflags] at hfile
  have hput : putcR ch s.fp s.disk = some (0, (s.put ch).fp, (s.put ch).disk) := by
    rw [putcR, if_neg hfile.1, if_neg hfile.2]
    rfl
  refine ⟨hput, ?_⟩
  have hoff : (s.put ch).fp.off = s.fp.off + 1 := by rw [hfp]
  rw [Session.putc, hput, Option.map_some]
  show some ({ s.put ch with pos := (s.put ch).fp.off } : Session) = some (s.put ch)
  rw [hoff]
  rfl

/-- `putc_r` inside the blocks. -/
theorem put_growth (hfile : GrowingFile disk₀ f d l) (h : GrowthInv disk₀ f d l s)
    (hroom : s.Room l.length (n + 1)) (hgood : s.Coherent .getc) (ch : BitVec 32) :
    GrowthInv disk₀ f d l (s.put ch) ∧ (s.put ch).Written := by
  obtain ⟨hle, hlt, hsmall⟩ := h.fits hroom
  obtain ⟨level, written, -, hstored, hfp, hdisk⟩ := put_fields h.holds ch hle hlt hsmall hgood
  have hwritten : (s.put ch).Written :=
    (Session.written_iff (show (s.put ch).fp.flags = streamFlags _ true by rw [hfp])).mpr rfl
  refine ⟨⟨put_holds h.holds ch hle hlt hsmall hgood, ?_, fun i hi => ?_,
    fun hunwritten => absurd hwritten hunwritten⟩, hwritten⟩
  · rw [hfp, hstored]
    exact ⟨⟨h.opened.table.numOfBlocks, h.opened.table.blocks⟩, h.opened.dirCluster,
      h.opened.dirEntry, h.opened.fname⟩
  · rw [hdisk]
    split
    case isFalse => exact h.kept i hi
    case isTrue =>
        have hplaced : Placed (s.stored ch) s.disk := by
          rw [hstored]
          exact h.holds.placed.frame ⟨rfl, rfl, rfl, rfl, rfl, rfl, rfl⟩ SameSuper.refl
        have hopened : OpenedAs f d l (s.stored ch) := by
          rw [hstored]
          exact ⟨⟨h.opened.table.numOfBlocks, h.opened.table.blocks⟩, h.opened.dirCluster,
            h.opened.dirEntry, h.opened.fname⟩
        have hflags : (s.stored ch).flags =
            streamFlags (decide (¬ 8191 ≤ s.fp.off % 8192)) written := by rw [hstored]
        rw [flush_kept hplaced hflags (h.super hfile) hopened hfile.index hi]
        exact h.kept i hi

/-- After `putc_r` the block of the position is loaded, or the buffer was written to its block. -/
theorem put_coherent (h : GrowthInv disk₀ f d l s) (hroom : s.Room l.length (n + 1))
    (hgood : s.Coherent .getc) (hflushed : s.Written ∨ s.fp.off % 8192 ≠ 8191) (ch : BitVec 32) :
    (s.put ch).Coherent .getc := by
  obtain ⟨hle, hlt, hsmall⟩ := h.fits hroom
  obtain ⟨level, written, hwritten, hstored, hfp, hdisk⟩ :=
    put_fields h.holds ch hle hlt hsmall hgood
  obtain ⟨-, hcurrent, -⟩ := load_holds h.holds hle hlt hgood
  have hoff : s.load.fp.off = s.fp.off := by rw [load_same s]
  have hcached : (s.put ch).cached = some (s.fp.off / 8192) := by
    rw [← hoff]
    exact hcurrent
  have hmark := stream_flags_loaded (decide (¬ 8191 ≤ s.fp.off % 8192)) true
  have hflags : (s.put ch).fp.flags = streamFlags (decide (¬ 8191 ≤ s.fp.off % 8192)) true := by
    rw [hfp]
  rw [← hflags] at hmark
  by_cases hlast : 8191 ≤ s.fp.off % 8192
  · rw [Session.Coherent, if_pos (hmark.mpr (decide_eq_false (not_not.mpr hlast)))]
    obtain rfl : written = true := hwritten.mp (hflushed.resolve_right fun hne => by omega)
    rw [if_pos hlast] at hdisk
    have hplaced : Placed (s.stored ch) s.disk := by
      rw [hstored]
      exact h.holds.placed.frame ⟨rfl, rfl, rfl, rfl, rfl, rfl, rfl⟩ SameSuper.refl
    have hstoredflags : (s.stored ch).flags =
        streamFlags (decide (¬ 8191 ≤ s.fp.off % 8192)) true := by rw [hstored]
    have hblocks : (s.stored ch).numOfBlocks = s.fp.numOfBlocks := by rw [hstored]
    have hstoredoff : (s.stored ch).off = s.fp.off := by rw [hstored]
    intro j hj hblock
    have hsame : j / 8192 = s.fp.off / 8192 := (Option.some.inj (hcached.symm.trans hblock)).symm
    have hat := flush_r_at hplaced hstoredflags (a := j / 8192) (r := j % 8192) (by omega) (by omega)
    rw [hstoredoff, if_pos hsame] at hat
    have haddr : byteAddr (s.put ch).fp j = (s.stored ch).blocks (j / 8192) * 512 + j % 8192 := by
      rw [byteAddr, hfp]
    rw [haddr, hdisk, hat, hfp]
  · rw [Session.Coherent, if_neg fun hclear => ?_, Session.Current, hcached, hfp]
    · exact congrArg some (show s.fp.off / 8192 = (s.fp.off + 1) / 8192 by omega)
    · exact absurd (hmark.mp hclear) (by rw [decide_eq_true hlast]; decide)

/-- The loop of `write_r` stores all its bytes. -/
theorem write_loop_growth (buf : Bytes) (hfile : GrowingFile disk₀ f d l)
    (h : GrowthInv disk₀ f d l s) (hroom : s.Room l.length n) (hgood : 0 < n → s.Coherent .getc)
    (hflushed : 1 < n → s.Written ∨ s.fp.off % 8192 ≠ 8191) :
    ∃ t, s.writeLoop buf n i = some t ∧ GrowthInv disk₀ f d l t ∧
      writeLoop buf n i s.fp s.disk = some (t.fp, t.disk) ∧
      t.bytes = putBytes s.bytes s.fp.off ((List.range n).map fun k => buf (i + k)) := by
  induction n generalizing s i with
  | zero => exact ⟨s, rfl, h, rfl, put_bytes_nil.symm⟩
  | succ n ih =>
      have hfirst := hgood (Nat.succ_pos n)
      obtain ⟨hputc, hstep⟩ := h.putc_eq hroom hfirst ((buf i).setWidth 32)
      obtain ⟨hinv, hwritten⟩ := put_growth hfile h hroom hfirst ((buf i).setWidth 32)
      obtain ⟨hle, hlt, hsmall⟩ := h.fits hroom
      obtain ⟨level, written, -, -, hfp, -⟩ :=
        put_fields h.holds ((buf i).setWidth 32) hle hlt hsmall hfirst
      have hoff : (s.put ((buf i).setWidth 32)).fp.off = s.fp.off + 1 := by rw [hfp]
      have hbytes : (s.put ((buf i).setWidth 32)).bytes = putAt s.bytes s.fp.off (buf i) := by
        show putAt s.bytes s.fp.off (((buf i).setWidth 32).setWidth 8) = _
        rw [BitVec.setWidth_setWidth_of_le _ (by decide), BitVec.setWidth_eq]
      obtain ⟨hinside, hblocks, hword⟩ := hroom
      have hroom' : (s.put ((buf i).setWidth 32)).Room l.length n := by
        refine ⟨?_, by omega, by omega⟩
        rw [hbytes, put_at_length hinside, hoff]
        omega
      obtain ⟨t, hloop, ht, hrun, hdata⟩ := ih (i := i + 1) hinv hroom'
        (fun hn => put_coherent h ⟨hinside, hblocks, hword⟩ hfirst (hflushed (by omega)) _)
        fun _ => .inl hwritten
      refine ⟨t, ?_, ht, ?_, ?_⟩
      · rw [Session.writeLoop, hstep]
        exact hloop
      · rw [writeLoop, hputc]
        exact hrun
      · rw [hdata, hbytes, hoff, put_bytes_cons hinside, List.range_succ_eq_map, List.map_cons,
          List.map_map]
        refine congrArg (putBytes s.bytes s.fp.off) (congrArg (buf i :: ·) ?_)
        exact List.map_congr_left fun k _ => congrArg buf (Nat.add_right_comm i 1 k)

/-- `seek_r` may go anywhere. -/
theorem seek_growth (h : GrowthInv disk₀ f d l s) (numBytes : Int) (origin : Origin) :
    GrowthInv disk₀ f d l { s with
      fp := seekR numBytes origin s.fp
      pos := (seekR numBytes origin s.fp).off } := by
  obtain ⟨off, off2, level, hseek⟩ : ∃ off off2 level, seekR numBytes origin s.fp =
      { s.fp with off, off2, level } := by
    cases origin <;> exact ⟨_, _, _, rfl⟩
  rw [hseek]
  exact ⟨⟨h.holds.placed.frame ⟨rfl, rfl, rfl, rfl, rfl, rfl, rfl⟩ SameSuper.refl, h.holds.flags,
    h.holds.clean, h.holds.length, h.holds.view⟩, ⟨⟨h.opened.table.numOfBlocks,
    h.opened.table.blocks⟩, h.opened.dirCluster, h.opened.dirEntry, h.opened.fname⟩, h.kept,
    h.unwritten⟩

/-- A call that fits. -/
theorem growth_step (hfile : GrowingFile disk₀ f d l) (h : GrowthInv disk₀ f d l s)
    {event : GrowthEvent} (hfits : s.Fits l.length event) (hstep : GrowthStep s event t) :
    GrowthInv disk₀ f d l t := by
  cases event with
  | seek numBytes origin =>
      obtain rfl : _ = t := Option.some.inj hstep
      exact seek_growth h numBytes origin
  | putc ch =>
      obtain ⟨hroom, hgood⟩ := hfits
      have hput := (h.putc_eq hroom hgood ch).2
      obtain rfl : s.put ch = t := Option.some.inj (hput.symm.trans hstep)
      exact (put_growth hfile h hroom hgood ch).1
  | write buffer size count =>
      obtain ⟨-, hsmall, hall⟩ := hfits
      have hmod : size * count % 2 ^ 64 = size * count := Nat.mod_eq_of_lt (by omega)
      rw [GrowthStep, Session.grow, hmod] at hstep
      by_cases hzero : size * count = 0
      · rw [hzero] at hstep
        obtain rfl : s = t := Option.some.inj hstep
        exact h
      · obtain ⟨hroom, hgood, hflushed⟩ := hall (by omega)
        obtain ⟨u, hloop, hu, -⟩ := write_loop_growth buffer hfile h (i := 0) hroom
          (fun _ => hgood) hflushed
        obtain rfl : u = t := Option.some.inj (hloop.symm.trans hstep)
        exact hu

/-- `write_r` reports the items that it stores. -/
theorem write_r_growth (hfile : GrowingFile disk₀ f d l) (h : GrowthInv disk₀ f d l s)
    {size count : Nat} (hfits : s.Fits l.length (.write buf size count))
    (hstep : GrowthStep s (.write buf size count) t) :
    writeR buf size count s.fp s.disk = some (count, t.fp, t.disk) ∧
      t.bytes = putBytes s.bytes s.fp.off ((List.range (size * count)).map buf) := by
  obtain ⟨hsize, hsmall, hall⟩ := hfits
  have hmod : size * count % 2 ^ 64 = size * count := Nat.mod_eq_of_lt (by omega)
  rw [GrowthStep, Session.grow, hmod] at hstep
  have hcount : size * count / size = count := Nat.mul_div_cancel_left count (by omega)
  have hloop : writeLoop buf (size * count) 0 s.fp s.disk = some (t.fp, t.disk) ∧
      t.bytes = putBytes s.bytes s.fp.off ((List.range (size * count)).map buf) := by
    by_cases hzero : size * count = 0
    · rw [hzero] at hstep ⊢
      obtain rfl : s = t := Option.some.inj hstep
      exact ⟨rfl, put_bytes_nil.symm⟩
    · obtain ⟨hroom, hgood, hflushed⟩ := hall (by omega)
      obtain ⟨u, hu, -, hrun, hdata⟩ := write_loop_growth buf hfile h (i := 0) hroom
        (fun _ => hgood) hflushed
      obtain rfl : u = t := Option.some.inj (hu.symm.trans hstep)
      refine ⟨hrun, hdata.trans ?_⟩
      simp only [Nat.zero_add]
  refine ⟨?_, hloop.2⟩
  simp only [writeR, hmod, if_neg (show ¬ 2 ^ 31 ≤ size * count by omega), hloop.1,
    Option.bind_eq_bind, Option.bind_some, if_neg hsize, hcount]

/-! ### Closing -/

/-- The entry and the table after `close_r`. -/
theorem close_entry (hfile : GrowingFile disk₀ f d l) (h : GrowthInv disk₀ f d l s) :
    fileSize (closeR s.fp s.disk).2.bytes (entryAt f (f.rootBlk, dirEntry d 0)) = s.fp.fsize ∧
      ∀ i, Kept f d l i → (closeR s.fp s.disk).2.bytes i = disk₀.bytes i := by
  show fileSize (flushR s.fp s.disk).2.bytes _ = _ ∧
    ∀ i, Kept f d l i → (flushR s.fp s.disk).2.bytes i = _
  have hplaced := h.holds.placed
  obtain ⟨loaded, written, hflags⟩ := h.holds.flags
  refine ⟨?_, fun i hi => (flush_kept hplaced hflags (h.super hfile) h.opened hfile.index hi).trans
    (h.kept i hi)⟩
  by_cases hwritten : s.Written
  · obtain rfl := (Session.written_iff hflags).mp hwritten
    have hwrite := file_write_block_super hplaced (s.fp.off / 8192)
    have hplaced' : Placed s.fp (fileWriteBlock s.fp (s.fp.off / 8192) s.disk).2 :=
      hplaced.frame ⟨rfl, rfl, rfl, rfl, rfl, rfl, rfl⟩ hwrite
    have haddr : entryAt f (f.rootBlk, dirEntry d 0) = entryAt (superBlockAt
        (fileWriteBlock s.fp (s.fp.off / 8192) s.disk).2.bytes 512)
          (s.fp.dirCluster, s.fp.dirEntry) := by
      rw [hwrite.super_block]
      simp only [entryAt, first_sector_super (h.super hfile), h.opened.dirCluster,
        h.opened.dirEntry]
    rw [flush_r_eq hplaced hflags, file_update_opened hplaced' h.opened hfile.index, haddr]
    exact updated_image_size (h.opened.dirEntry ▸ hfile.index.2) hplaced.small
  · -- nothing was written since the file was opened
    obtain ⟨hdisk, hsize⟩ := h.unwritten hwritten
    rw [flush_unwritten h.holds hwritten, hdisk, hsize]
    exact read_word_congr fun k hk => by
      rw [Nat.zero_add, hfile.entry _ (by omega), Nat.add_assoc]

/-- The chain of the file is outside its blocks and its entry. -/
theorem close_chain (hfile : GrowingFile disk₀ f d l) {bytes : Bytes}
    (hkept : ∀ i, Kept f d l i → bytes i = disk₀.bytes i) :
    Chain bytes f (firstBlk bytes (entryAt f (f.rootBlk, dirEntry d 0))) l := by
  have hdata := hfile.formatted.data_sector
  have hdir := hfile.formatted.first_sector hfile.directory.1
  have hdirBehind := hfile.dirBehind
  have hfirst : firstBlk bytes (entryAt f (f.rootBlk, dirEntry d 0)) = firstBlk d 0 := by
    refine read_word_congr fun k hk => ?_
    rw [Nat.zero_add, hfile.entry _ (by omega), Nat.add_assoc]
    refine hkept _ ⟨fun b hb => ?_, .inr (.inl (by omega))⟩
    -- the directory block is none of the blocks of the file
    have hindex := hfile.index
    have hblock := hfile.formatted.first_sector (hfile.range b hb)
    have hne : b ≠ f.rootBlk := fun heq => hfile.directory.2 (heq ▸ hb)
    simp only [entryAt]
    omega
  rw [hfirst]
  refine Linked.congr hfile.chain fun b hb => read_word_congr fun k hk => hkept _ ⟨fun c hc => ?_, ?_⟩
  · have hrange := hfile.range b hb
    have hblock := hfile.formatted.first_sector (hfile.range c hc)
    have hbehind := hfile.behind c hc
    omega
  · have hrange := hfile.range b hb
    simp only [entryAt]
    omega

/-- The session that starts when the file has been opened. -/
def growthSession (fp : File) (disk : Disk) (bytes : List Byte) : Session :=
  { openSession fp disk bytes with pos := fp.off }

/-- The runs of calls that fit. -/
abbrev GrowthRun (blocks : Nat) : Session → Session → Prop :=
  Run GrowthStep fun s event => s.Fits blocks event

/-- A disk whose table begins with block 0 and whose root directory is block 1, with a file of the
given size in block 2, which is entry 1 of the directory. -/
def oneBlockDisk (size : Nat) : Disk where
  bytes :=
    let m := writeWord (writeWord (writeWord (fun _ => 0#8) 536 2) 540 512) 544 16
    let m := writeWord (writeWord (writeWord m 548 8) 552 1) 556 1
    let m := writeWord (writeWord m 1028 endMark) 1032 endMark
    let m := writeWord (writeWord (writeWord m 9451 2) 9455 size) 9459 1
    Function.update m 17408 1#8
  fails := []

/-- The super block of the disk. -/
def oneBlockSuper : SuperBlock := superBlockAt (oneBlockDisk 0).bytes 512

/-- The entry of the file. -/
def oneBlockEntry (size : Nat) : Bytes := fun k => (oneBlockDisk size).bytes (9344 + k)

theorem one_block_super (size : Nat) :
    superBlockAt (oneBlockDisk size).bytes 512 = oneBlockSuper := by
  refine super_block_congr fun i hi => ?_
  simp (disch := omega) only [oneBlockDisk, Function.update_of_ne, write_word_outside]

theorem one_block_growing {size : Nat} (hsize : fileSize (oneBlockEntry size) 0 ≤ 8192)
    (hindex : dirEntry (oneBlockEntry size) 0 = 1) (hfirst : firstBlk (oneBlockEntry size) 0 = 2)
    (hend : fat (oneBlockDisk size).bytes oneBlockSuper 2 = endMark) :
    GrowingFile (oneBlockDisk size) oneBlockSuper (oneBlockEntry size) [2] where
  ok := rfl
  formatted := ⟨by decide +kernel, by decide +kernel, by decide +kernel, by decide +kernel⟩
  super := by rw [one_block_super]
  chain := ⟨hfirst, by decide, hend⟩
  nonempty := List.cons_ne_nil _ _
  range := by decide +kernel
  directory := by decide +kernel
  size := hsize
  index := by rw [hindex]; decide
  entry := fun k _ => by
    rw [hindex]
    exact congrArg (fun a => (oneBlockDisk size).bytes (a + k)) (by decide +kernel)
  dirBehind := by decide +kernel
  behind := by decide +kernel

/-- The disk with a file of one byte. -/
theorem one_block_one : GrowingFile (oneBlockDisk 1) oneBlockSuper (oneBlockEntry 1) [2] :=
  one_block_growing (by decide +kernel) (by decide +kernel) (by decide +kernel) (by decide +kernel)

/-- The disk with a file that fills its block. -/
theorem one_block_full : GrowingFile (oneBlockDisk 8192) oneBlockSuper (oneBlockEntry 8192) [2] :=
  one_block_growing (by decide +kernel) (by decide +kernel) (by decide +kernel) (by decide +kernel)

/-- `"a"` -/
def modeAppend : List Byte := [0x61#8]

/-- The stream after `open_file`. -/
def oneBlockFile (size : Nat) : File :=
  (openEntry (oneBlockEntry size) oneBlockSuper modeAppend (fun _ => 0#8) (fun _ => 0#8)
    (oneBlockDisk size)).1.getD (File.cleared fun _ => 0#8)

theorem one_block_open {size : Nat} {fp : File} (h : openEntry (oneBlockEntry size) oneBlockSuper
    modeAppend (fun _ => 0#8) (fun _ => 0#8) (oneBlockDisk size) = (some fp, oneBlockDisk size)) :
    fp = oneBlockFile size := by
  rw [oneBlockFile, h]
  rfl

/-- The session on the file. -/
def oneBlockSession (size : Nat) : Session :=
  growthSession (oneBlockFile size) (oneBlockDisk size) (fileContent (oneBlockDisk size).bytes
    oneBlockSuper [2] (fileSize (oneBlockEntry size) 0))

end Sirius.Cfs
