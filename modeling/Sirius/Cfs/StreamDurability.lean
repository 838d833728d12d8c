import Sirius.Cfs.StreamBlocks
import Sirius.Library.Runs

/-!
# Durability of writes through a stream

A session runs a stream next to an abstract file: an array of bytes with a position. The byte at
`j` is in the buffer if the buffer holds its block, and on the disk otherwise. `seek_r` does not
look at the buffer, `getc_r` leaves a block without writing it back, and `flush_r` writes to the
block of the position whatever the buffer holds. A run that never uses the buffer for another block
than the one it holds reads and writes the abstract file.
-/

namespace Sirius.Cfs

open Library Stdio

variable {fp fp' : File} {disk disk' : Disk} {j k : Nat}

/-! ### Sessions -/

/-- The calls on an open stream. -/
inductive StreamEvent
  | seek (numBytes : Int) (origin : Origin)
  | rewind
  | getc
  | putc (ch : BitVec 32)
  | flush

/-- A stream and its disk, the block that was read into the buffer last, and the abstract file: its
bytes and a position. -/
structure Session where
  fp : File
  disk : Disk
  cached : Option Nat
  bytes : List Byte
  pos : Nat

/-- The position that a seek asks for. -/
def seekTarget (numBytes : Int) (origin : Origin) (pos size : Nat) : Int :=
  match origin with
  | .set => numBytes
  | .cur => pos + numBytes
  | .fromEnd => size - numBytes
  | .other => pos

/-- The block in the buffer after the start of `getc_r` or `putc_r`. -/
def Session.block (s : Session) : Option Nat :=
  if s.fp.flags &&& 0x10#32 = 0#32 then some (s.fp.off / s.fp.bsize) else s.cached

/-- A call, with what it does to the abstract file. -/
def Session.step (s : Session) : StreamEvent → Option Session
  | .seek numBytes origin => some { s with
      fp := seekR numBytes origin s.fp
      pos := (seekTarget numBytes origin s.pos s.bytes.length).toNat }
  | .rewind => some { s with fp := rewindR s.fp, pos := 0 }
  | .getc => (getcR s.fp s.disk).map fun (_, fp, disk) =>
      { s with fp, disk, cached := s.block, pos := s.pos + 1 }
  | .putc ch => (putcR ch s.fp s.disk).map fun (_, fp, disk) =>
      { fp, disk, cached := s.block, bytes := s.bytes.set s.pos (ch.setWidth 8), pos := s.pos + 1 }
  | .flush => some { s with disk := (flushR s.fp s.disk).2 }

/-- The transitions of a session. -/
def SessionStep (s : Session) (event : StreamEvent) (t : Session) : Prop := s.step event = some t

/-- The positions stay inside the file. -/
def Session.Inside (s : Session) : StreamEvent → Prop
  | .seek numBytes origin =>
      let target := seekTarget numBytes origin s.pos s.bytes.length
      0 ≤ target ∧ target ≤ s.bytes.length
  | .getc | .putc _ => s.pos < s.bytes.length
  | .rewind | .flush => True

/-- The buffer and the disk agree on the block in the buffer. -/
def Session.Clean (s : Session) : Prop :=
  ∀ j < s.fp.fsize, s.cached = some (j / 8192) →
    s.fp.buffer (j % 8192) = s.disk.bytes (byteAddr s.fp j)

/-- The buffer and the disk agree on the block of the position. -/
def Session.Harmless (s : Session) : Prop :=
  ∀ j < s.fp.fsize, j / 8192 = s.fp.off / 8192 →
    s.fp.buffer (j % 8192) = s.disk.bytes (byteAddr s.fp j)

/-- The buffer holds the block of the position. -/
def Session.Current (s : Session) : Prop := s.cached = some (s.fp.off / 8192)

/-- The stream was written to. -/
def Session.Written (s : Session) : Prop := s.fp.flags &&& 0x80#32 ≠ 0#32

/-- The buffer is used for the block it holds: `getc_r` and `putc_r` find the block of the position
loaded, or read it when nothing in the buffer is lost; `flush_r` writes the buffer to its own block
or where it changes nothing. -/
def Session.Coherent (s : Session) : StreamEvent → Prop
  | .getc | .putc _ => if s.fp.flags &&& 0x10#32 = 0#32 then s.Clean else s.Current
  | .flush => s.Written → s.Current ∨ s.Harmless
  | .seek .. | .rewind => True

/-- The last flush writes the buffer to its own block, or nothing in it is lost. -/
def Session.CloseCoherent (s : Session) : Prop :=
  s.Written → s.Current ∨ s.Harmless ∧ s.Clean

/-- The byte at `j` as the stream would return it. -/
def Session.view (s : Session) (j : Nat) : Byte :=
  if s.cached = some (j / 8192) then s.fp.buffer (j % 8192) else s.disk.bytes (byteAddr s.fp j)

/-- The stream and the disk together hold the abstract file. -/
structure InStep (s : Session) : Prop where
  placed : Placed s.fp s.disk
  flags : ∃ loaded written, s.fp.flags = streamFlags loaded written
  clean : ¬ s.Written → s.Clean
  length : s.bytes.length = s.fp.fsize
  pos : s.fp.off = s.pos
  inside : s.pos ≤ s.fp.fsize
  view : ∀ j < s.fp.fsize, s.bytes[j]? = some (s.view j)

/-- The stream and the disk together hold the abstract file, wherever the position is. -/
structure Holds (s : Session) : Prop where
  placed : Placed s.fp s.disk
  flags : ∃ loaded written, s.fp.flags = streamFlags loaded written
  clean : ¬ s.Written → s.Clean
  length : s.bytes.length = s.fp.fsize
  view : ∀ j < s.fp.fsize, s.bytes[j]? = some (s.view j)

theorem InStep.holds {s : Session} (h : InStep s) : Holds s :=
  ⟨h.placed, h.flags, h.clean, h.length, h.view⟩

theorem Holds.in_step {s : Session} (h : Holds s) (hpos : s.fp.off = s.pos)
    (hinside : s.pos ≤ s.fp.fsize) : InStep s :=
  ⟨h.placed, h.flags, h.clean, h.length, hpos, hinside, h.view⟩

theorem stream_flags_loaded (loaded written : Bool) :
    streamFlags loaded written &&& 0x10#32 = 0#32 ↔ loaded = false := by
  cases loaded <;> cases written <;> decide

theorem stream_flags_written (loaded written : Bool) :
    streamFlags loaded written &&& 0x80#32 = 0#32 ↔ written = false := by
  cases loaded <;> cases written <;> decide

theorem stream_flags_load (loaded written : Bool) :
    streamFlags loaded written ||| 0x10#32 = streamFlags true written := by
  cases loaded <;> cases written <;> decide

theorem stream_flags_unload (loaded written : Bool) :
    streamFlags loaded written &&& ~~~0x10#32 = streamFlags false written := by
  cases loaded <;> cases written <;> decide

theorem stream_flags_write (loaded written : Bool) :
    streamFlags loaded written ||| 0x80#32 = streamFlags loaded true := by
  cases loaded <;> cases written <;> decide

/-- The flags of a file are none of those of the standard streams and pipes. -/
theorem stream_flags_file (loaded written : Bool) :
    streamFlags loaded written ≠ 5#32 ∧ ¬ (streamFlags loaded written = 2#32 ∨
      streamFlags loaded written = 3#32 ∨ streamFlags loaded written = 4#32) := by
  cases loaded <;> cases written <;> decide

variable {s t : Session}

/-- A clean buffer makes no difference to what the stream holds. -/
theorem Session.Clean.view (h : s.Clean) (hj : j < s.fp.fsize) :
    s.view j = s.disk.bytes (byteAddr s.fp j) := by
  unfold Session.view
  split
  case isTrue hcached => exact h j hj hcached
  case isFalse => rfl

/-- The session after the start of `getc_r` or `putc_r`. -/
def Session.load (s : Session) : Session :=
  { s with
    fp := (loadBlock s.fp s.disk).1
    disk := (loadBlock s.fp s.disk).2
    cached := s.block }

/-- What `file_read_block` reads. -/
theorem file_read_block_spec (h : Placed fp disk) (hk : k < fp.numOfBlocks) :
    fileReadBlock fp k disk =
      (0, copyBytes fp.buffer 0 disk.bytes (fp.blocks k * 512) (16 * 512), disk) := by
  rw [fileReadBlock, if_neg (by omega), read_sector_ok h.ok, h.count]

theorem Session.written_iff {loaded written : Bool}
    (hflags : s.fp.flags = streamFlags loaded written) :
    s.Written ↔ written = true := by
  rw [Session.Written, hflags, ne_eq, stream_flags_written]
  cases written <;> simp

/-- Loading a block does not write. -/
theorem load_disk (h : Placed s.fp s.disk) : s.load.disk = s.disk := by
  simp only [Session.load, loadBlock, fileReadBlock, read_sector_ok h.ok]
  split
  · split <;> rfl
  · rfl

/-- Loading a block changes the flags and the buffer. -/
theorem load_same (s : Session) : s.load.fp = { s.fp with
    flags := s.load.fp.flags
    buffer := s.load.fp.buffer } := by
  simp only [Session.load, loadBlock]
  split <;> rfl

/-- A loaded block is not read again. -/
theorem load_loaded (hset : s.fp.flags &&& 0x10#32 ≠ 0#32) : s.load = s := by
  have hload : loadBlock s.fp s.disk = (s.fp, s.disk) := by
    rw [loadBlock, if_neg (fun hcond => hset hcond.1)]
  simp only [Session.load, hload, Session.block, if_neg hset]

/-- The block of the position is read when none is loaded and the file is not empty. -/
theorem load_clear (h : Placed s.fp s.disk) (hclear : s.fp.flags &&& 0x10#32 = 0#32)
    (hle : s.fp.off ≤ s.fp.fsize) (hne : s.fp.fsize ≠ 0)
    (hlt : s.fp.off / 8192 < s.fp.numOfBlocks) :
    s.load.fp = { s.fp with
      flags := s.fp.flags ||| 0x10#32
      buffer := copyBytes s.fp.buffer 0 s.disk.bytes (s.fp.blocks (s.fp.off / 8192) * 512)
        (16 * 512) } := by
  have hread := file_read_block_spec h hlt
  rw [← h.bsize] at hread hlt ⊢
  simp only [Session.load]
  rw [loadBlock, if_pos ⟨hclear, hle, hne⟩, hread]

/-- Loading the block of the position: the buffer holds it afterwards, and nothing is lost. -/
theorem load_holds (h : Holds s) (hle : s.fp.off ≤ s.fp.fsize)
    (hlt : s.fp.off / 8192 < s.fp.numOfBlocks) (hgood : s.Coherent .getc) :
    Holds s.load ∧ s.load.Current ∧ ∃ loaded written,
      s.load.fp.flags = streamFlags loaded written ∧ (s.Written ↔ written = true) ∧
      (s.fp.fsize ≠ 0 → loaded = true) := by
  obtain ⟨loaded, written, hflags⟩ := h.flags
  have hwritten := Session.written_iff hflags
  have hmark := stream_flags_loaded loaded written
  rw [← hflags] at hmark
  by_cases hset : s.fp.flags &&& 0x10#32 ≠ 0#32
  · -- the block is loaded, so nothing is read
    simp only [Session.Coherent, if_neg hset] at hgood
    rw [load_loaded hset]
    have hloaded : loaded = true := by
      cases loaded with
      | true => rfl
      | false => exact absurd (hmark.mpr rfl) hset
    exact ⟨h, hgood, loaded, written, hflags, hwritten, fun _ => hloaded⟩
  rw [not_not] at hset
  simp only [Session.Coherent, if_pos hset] at hgood
  have hcached : s.load.cached = some (s.fp.off / 8192) := by
    simp only [Session.load, Session.block, if_pos hset, h.placed.bsize]
  have hdisk := load_disk h.placed
  have hsame := load_same s
  have hoff : s.load.fp.off = s.fp.off := by rw [hsame]
  have hsize : s.load.fp.fsize = s.fp.fsize := by rw [hsame]
  have haddr : ∀ j, byteAddr s.load.fp j = byteAddr s.fp j := fun j => by rw [hsame]; rfl
  have hfile : SameFile s.fp s.load.fp := by
    rw [hsame]
    exact ⟨rfl, rfl, rfl, rfl, rfl, rfl, rfl⟩
  have hcurrent : s.load.Current := by rw [Session.Current, hcached, hoff]
  have hplaced : Placed s.load.fp s.load.disk := by
    rw [hdisk]
    exact h.placed.frame hfile SameSuper.refl
  by_cases hempty : s.fp.fsize = 0
  · -- an empty file has no block to read
    have hload : s.load.fp = s.fp := by
      simp only [Session.load, loadBlock]
      rw [if_neg fun hcond => hcond.2.2 hempty]
    refine ⟨⟨hplaced, ⟨loaded, written, hload ▸ hflags⟩, fun _ j hj => ?_, ?_, fun j hj => ?_⟩,
      hcurrent, loaded, written, hload ▸ hflags, hwritten, fun hne => absurd hempty hne⟩
    · omega
    · rw [hsize]
      exact h.length
    · omega
  have hfp := load_clear h.placed hset hle hempty hlt
  have hloadflags : s.load.fp.flags = streamFlags true written := by
    rw [hfp]
    show s.fp.flags ||| 0x10#32 = _
    rw [hflags, stream_flags_load]
  -- the buffer agrees with the disk on the block that was just read
  have hclean : s.load.Clean := by
    intro j hj hblock
    have hsame : j / 8192 = s.fp.off / 8192 := (Option.some.inj (hcached.symm.trans hblock)).symm
    have hcopy : copyBytes s.fp.buffer 0 s.disk.bytes (s.fp.blocks (s.fp.off / 8192) * 512)
        (16 * 512) (0 + j % 8192) =
          s.disk.bytes (s.fp.blocks (s.fp.off / 8192) * 512 + j % 8192) :=
      copy_bytes_inside (by omega)
    rw [Nat.zero_add] at hcopy
    rw [haddr, hdisk, byteAddr, hsame, ← hcopy, hfp]
  refine ⟨⟨hplaced, ⟨true, written, hloadflags⟩, fun _ => hclean, ?_, fun j hj => ?_⟩, hcurrent,
    true, written, hloadflags, hwritten, fun _ => rfl⟩
  · rw [hsize]
    exact h.length
  · rw [hclean.view hj, haddr, hdisk]
    rw [hsize] at hj
    rw [← hgood.view hj]
    exact h.view j hj

/-- Loading the block of a position inside the file. -/
theorem load_in_step (h : InStep s) (hin : s.pos < s.bytes.length) (hgood : s.Coherent .getc) :
    InStep s.load ∧ s.load.Current ∧ SameFile s.fp s.load.fp ∧ s.load.fp.off = s.fp.off ∧
      ∃ written, s.load.fp.flags = streamFlags true written := by
  have hoff : s.fp.off < s.fp.fsize := by
    rw [h.pos, ← h.length]
    exact hin
  obtain ⟨hload, hcurrent, loaded, written, hflags, -, hloaded⟩ :=
    load_holds h.holds hoff.le (h.placed.block_lt hoff) hgood
  obtain rfl := hloaded (by omega)
  have hsame := load_same s
  have hloadoff : s.load.fp.off = s.fp.off := by rw [hsame]
  have hsize : s.load.fp.fsize = s.fp.fsize := by rw [hsame]
  refine ⟨hload.in_step (hloadoff.trans h.pos) (by rw [hsize]; exact h.inside), hcurrent, ?_,
    hloadoff, written, hflags⟩
  rw [hsame]
  exact ⟨rfl, rfl, rfl, rfl, rfl, rfl, rfl⟩

/-- Moving the position, or marking the buffer as not loaded, keeps the session in step. -/
theorem InStep.move (h : InStep s) (hfile : SameFile s.fp t.fp)
    (hbuffer : t.fp.buffer = s.fp.buffer) (hdisk : t.disk = s.disk) (hcached : t.cached = s.cached)
    (hbytes : t.bytes = s.bytes) {loaded loaded' written : Bool}
    (hflags : s.fp.flags = streamFlags loaded written)
    (hflags' : t.fp.flags = streamFlags loaded' written) (hpos : t.fp.off = t.pos)
    (hinside : t.pos ≤ s.fp.fsize) : InStep t := by
  have haddr : ∀ j, byteAddr t.fp j = byteAddr s.fp j := by
    intro j
    rw [byteAddr, hfile.blocks]
    rfl
  have hview : ∀ j, t.view j = s.view j := by
    intro j
    rw [Session.view, hcached, hbuffer, hdisk, haddr]
    rfl
  refine ⟨?_, ⟨loaded', written, hflags'⟩, fun hunwritten j hj hblock => ?_, ?_, hpos, ?_, ?_⟩
  · rw [hdisk]
    exact h.placed.frame hfile SameSuper.refl
  · rw [Session.Written, hflags', ne_eq, stream_flags_written] at hunwritten
    have hs : ¬ s.Written := by
      rw [Session.Written, hflags, ne_eq, stream_flags_written]
      exact hunwritten
    rw [hbuffer, hdisk, haddr]
    rw [hfile.fsize] at hj
    exact h.clean hs j hj (hcached ▸ hblock)
  · rw [hbytes, hfile.fsize]
    exact h.length
  · rw [hfile.fsize]
    exact hinside
  · intro j hj
    rw [hfile.fsize] at hj
    rw [hbytes, hview]
    exact h.view j hj

/-- The calls on a file do not reach the standard streams. -/
theorem getc_r_file (h : InStep s) : getcR s.fp s.disk = some (getFile s.fp s.disk) := by
  obtain ⟨loaded, written, hflags⟩ := h.flags
  have hfile := stream_flags_file loaded written
  rw [← hflags] at hfile
  rw [getcR, if_neg hfile.1, if_neg hfile.2]

theorem putc_r_file (h : InStep s) (ch : BitVec 32) :
    putcR ch s.fp s.disk = some (putFile ch s.fp s.disk) := by
  obtain ⟨loaded, written, hflags⟩ := h.flags
  have hfile := stream_flags_file loaded written
  rw [← hflags] at hfile
  rw [putcR, if_neg hfile.1, if_neg hfile.2]

/-- `getc_r` behind the end of the loaded block marks the buffer as not loaded. -/
theorem get_file_spec (hlt : s.fp.off < s.fp.fsize) (hsmall : s.fp.fsize < 2 ^ 32)
    (hoff : s.load.fp.off = s.fp.off) {written : Bool}
    (hflags : s.load.fp.flags = streamFlags true written) :
    ∃ level loaded, (getFile s.fp s.disk).2 = ({ s.load.fp with
      level
      flags := streamFlags loaded written
      off := s.fp.off + 1 }, s.load.disk) := by
  have hnext : (s.load.fp.off + 1) % 2 ^ 32 = s.fp.off + 1 := by
    rw [hoff]
    exact Nat.mod_eq_of_lt (by omega)
  by_cases hlast : s.load.fp.bsize - 1 ≤ s.load.fp.off % s.load.fp.bsize
  · refine ⟨0, false, ?_⟩
    rw [← hnext, ← stream_flags_unload, ← hflags, getFile, if_neg (by omega)]
    simp only [Session.load] at hlast ⊢
    rw [if_pos hlast]
  · refine ⟨s.load.fp.off % s.load.fp.bsize, true, ?_⟩
    rw [← hnext, ← hflags, getFile, if_neg (by omega)]
    simp only [Session.load] at hlast ⊢
    rw [if_neg hlast]

/-- `getc_r` returns the byte of the abstract file and keeps the session in step. -/
theorem getc_in_step (h : InStep s) (hin : s.pos < s.bytes.length) (hgood : s.Coherent .getc) :
    ∃ b, s.bytes[s.pos]? = some b ∧ (getFile s.fp s.disk).1 = b.toNat ∧
      ∀ t, s.step .getc = some t → InStep t := by
  obtain ⟨hload, hcurrent, hfile, hoff, written, hflags⟩ := load_in_step h hin hgood
  have hlt : s.fp.off < s.fp.fsize := by
    rw [h.pos, ← h.length]
    exact hin
  have hview := hload.view s.fp.off (by rw [hfile.fsize]; exact hlt)
  rw [Session.Current, hoff] at hcurrent
  rw [Session.view, if_pos hcurrent, h.pos] at hview
  refine ⟨_, hview, ?_, fun t ht => ?_⟩
  · rw [getFile, if_neg (by omega), ← h.pos, ← hoff, ← hload.placed.bsize]
    rfl
  · obtain ⟨level, loaded, hget⟩ := get_file_spec hlt h.placed.small hoff hflags
    rw [Session.step, getc_r_file h] at ht
    simp only [Option.map_some, Option.some.injEq, hget] at ht
    subst ht
    have hinside : s.pos + 1 ≤ s.load.fp.fsize := by
      rw [hfile.fsize, ← h.pos]
      exact hlt
    exact hload.move ⟨rfl, rfl, rfl, rfl, rfl, rfl, rfl⟩ rfl rfl rfl rfl hflags rfl
      (congrArg (· + 1) h.pos) hinside

/-- The stream with the byte in the buffer, before `putc_r` flushes and moves on. -/
def Session.stored (s : Session) (ch : BitVec 32) : File :=
  let fp := s.load.fp
  let level := fp.off % fp.bsize
  let fp := { fp with
    flags := fp.flags ||| 0x10#32
    level
    buffer := Function.update fp.buffer level (ch.setWidth 8) }
  if fp.bsize - 1 ≤ level then { fp with flags := fp.flags &&& ~~~0x10#32, level := 0 } else fp

/-- `putc_r` after loading the block: it stores the byte into the buffer, and flushes a full block. -/
theorem put_file_stored (s : Session) (ch : BitVec 32) :
    (putFile ch s.fp s.disk).2 = ({ s.stored ch with
        off := (s.load.fp.off + 1) % 2 ^ 32
        fsize := if s.load.fp.fsize < (s.load.fp.off + 1) % 2 ^ 32 then
          (s.load.fp.fsize + 1) % 2 ^ 32 else s.load.fp.fsize
        flags := (s.stored ch).flags ||| 0x80#32 },
      if s.load.fp.bsize - 1 ≤ s.load.fp.off % s.load.fp.bsize then
        (flushR (s.stored ch) s.load.disk).2 else s.load.disk) := by
  by_cases hlast : s.load.fp.bsize - 1 ≤ s.load.fp.off % s.load.fp.bsize
  · simp only [Session.stored, Session.load] at hlast ⊢
    simp only [putFile, hlast, if_true]
    rfl
  · simp only [Session.stored, Session.load] at hlast ⊢
    simp only [putFile, hlast, if_false]
    rfl

/-- Storing a byte changes the flags, the level and the buffer. -/
theorem stored_same (s : Session) (ch : BitVec 32) : s.stored ch = { s.load.fp with
    flags := (s.stored ch).flags
    level := (s.stored ch).level
    buffer := Function.update s.load.fp.buffer (s.load.fp.off % s.load.fp.bsize)
      (ch.setWidth 8) } := by
  simp only [Session.stored]
  split <;> rfl

theorem stored_flags {loaded written : Bool} (ch : BitVec 32)
    (hflags : s.load.fp.flags = streamFlags loaded written) :
    (s.stored ch).flags =
      streamFlags (decide (¬ s.load.fp.bsize - 1 ≤ s.load.fp.off % s.load.fp.bsize)) written := by
  simp only [Session.stored]
  split
  case isTrue hlast =>
      show (s.load.fp.flags ||| 0x10#32) &&& ~~~0x10#32 = _
      rw [hflags, stream_flags_load, stream_flags_unload, decide_eq_false (not_not.mpr hlast)]
  case isFalse hlast =>
      show s.load.fp.flags ||| 0x10#32 = _
      rw [hflags, stream_flags_load, decide_eq_true hlast]

/-- The byte at `j` when the buffer holds its block, and when it does not. -/
theorem Session.view_cached (h : s.cached = some (j / 8192)) :
    s.view j = s.fp.buffer (j % 8192) := if_pos h

theorem Session.view_other (h : s.cached ≠ some (j / 8192)) :
    s.view j = s.disk.bytes (byteAddr s.fp j) := if_neg h

/-- A byte is written at a position inside the file or at its end. -/
def putAt (bytes : List Byte) (pos : Nat) (b : Byte) : List Byte :=
  if pos < bytes.length then bytes.set pos b else bytes ++ [b]

theorem put_at_length {bytes : List Byte} {pos : Nat} {b : Byte} (hle : pos ≤ bytes.length) :
    (putAt bytes pos b).length = max bytes.length (pos + 1) := by
  unfold putAt
  split
  · rw [List.length_set]
    omega
  · rw [List.length_append, List.length_singleton]
    omega

theorem put_at_self {bytes : List Byte} {pos : Nat} {b : Byte} (hle : pos ≤ bytes.length) :
    (putAt bytes pos b)[pos]? = some b := by
  unfold putAt
  split
  case isTrue hlt => exact List.getElem?_set_self hlt
  case isFalse hend =>
      obtain rfl : pos = bytes.length := by omega
      exact List.getElem?_concat_length

theorem put_at_ne {bytes : List Byte} {pos : Nat} {b : Byte} (hne : j ≠ pos)
    (hlt : j < bytes.length) : (putAt bytes pos b)[j]? = bytes[j]? := by
  unfold putAt
  split
  · exact List.getElem?_set_ne hne.symm
  · exact List.getElem?_append_left hlt

/-- The session after `putc_r`. -/
def Session.put (s : Session) (ch : BitVec 32) : Session where
  fp := (putFile ch s.fp s.disk).2.1
  disk := (putFile ch s.fp s.disk).2.2
  cached := s.block
  bytes := putAt s.bytes s.fp.off (ch.setWidth 8)
  pos := s.fp.off + 1

/-- The size may be any that fits in the blocks. -/
theorem Placed.resize (h : Placed fp disk) {n : Nat} (hsize : n ≤ fp.numOfBlocks * 8192)
    (hsmall : n < 2 ^ 32) : Placed { fp with fsize := n } disk :=
  ⟨h.ok, h.bsize, h.count, h.mode, hsize, hsmall, h.apart, h.above, h.geometry, h.directory,
    h.dirAbove⟩

/-- The fields of the stream after `putc_r` at a position inside the file or at its end. -/
theorem put_fields (h : Holds s) (ch : BitVec 32) (hle : s.fp.off ≤ s.fp.fsize)
    (hlt : s.fp.off / 8192 < s.fp.numOfBlocks) (hsmall : s.fp.off + 1 < 2 ^ 32)
    (hgood : s.Coherent .getc) :
    ∃ level written, (s.Written ↔ written = true) ∧
      s.stored ch = { s.fp with
        level
        flags := streamFlags (decide (¬ 8191 ≤ s.fp.off % 8192)) written
        buffer := Function.update s.load.fp.buffer (s.fp.off % 8192) (ch.setWidth 8) } ∧
      (s.put ch).fp = { s.stored ch with
        off := s.fp.off + 1
        fsize := max s.fp.fsize (s.fp.off + 1)
        flags := streamFlags (decide (¬ 8191 ≤ s.fp.off % 8192)) true } ∧
      (s.put ch).disk =
        if 8191 ≤ s.fp.off % 8192 then (flushR (s.stored ch) s.disk).2 else s.disk := by
  obtain ⟨hload, hcurrent, loaded, written, hflags, hwritten, -⟩ := load_holds h hle hlt hgood
  have hsame := load_same s
  have hoff : s.load.fp.off = s.fp.off := by rw [hsame]
  have hsize : s.load.fp.fsize = s.fp.fsize := by rw [hsame]
  have hbsize := hload.placed.bsize
  have hstored := stored_same s ch
  have hmark := stored_flags ch hflags
  have hput := put_file_stored s ch
  rw [hoff, hbsize] at hstored hmark hput
  rw [hsize, load_disk h.placed, hmark, stream_flags_write, Nat.mod_eq_of_lt hsmall] at hput
  refine ⟨(s.stored ch).level, written, hwritten, ?_, ?_, congrArg Prod.snd hput⟩
  · rw [← hmark]
    conv_lhs => rw [hstored, hsame]
  · have hmax : (if s.fp.fsize < s.fp.off + 1 then (s.fp.fsize + 1) % 2 ^ 32 else s.fp.fsize) =
        max s.fp.fsize (s.fp.off + 1) := by
      have hbound := h.placed.small
      split
      case isTrue hgrow => rw [Nat.mod_eq_of_lt (by omega)]; omega
      case isFalse => omega
    rw [← hmax]
    exact congrArg Prod.fst hput

/-- `putc_r` changes or adds one byte of the abstract file, and the stream and the disk hold it. -/
theorem put_holds (h : Holds s) (ch : BitVec 32) (hle : s.fp.off ≤ s.fp.fsize)
    (hlt : s.fp.off / 8192 < s.fp.numOfBlocks) (hsmall : s.fp.off + 1 < 2 ^ 32)
    (hgood : s.Coherent .getc) : Holds (s.put ch) := by
  obtain ⟨level, written, -, hstored, hfp, hdisk⟩ := put_fields h ch hle hlt hsmall hgood
  obtain ⟨hload, hcurrent, -⟩ := load_holds h hle hlt hgood
  have hsame := load_same s
  have hoff : s.load.fp.off = s.fp.off := by rw [hsame]
  have hsize : s.load.fp.fsize = s.fp.fsize := by rw [hsame]
  have haddr : ∀ j, byteAddr s.load.fp j = byteAddr s.fp j := fun j => by rw [hsame]; rfl
  have hcached : s.block = some (s.fp.off / 8192) := by
    rw [← hoff]
    exact hcurrent
  have hplaced : Placed (s.stored ch) s.disk := by
    rw [hstored]
    exact h.placed.frame ⟨rfl, rfl, rfl, rfl, rfl, rfl, rfl⟩ SameSuper.refl
  have hflags : (s.stored ch).flags = streamFlags (decide (¬ 8191 ≤ s.fp.off % 8192)) written := by
    rw [hstored]
  -- flushing a full block changes this block only
  have hwrite : SameSuper s.disk (s.put ch).disk ∧ ∀ j < s.fp.fsize, j / 8192 ≠ s.fp.off / 8192 →
      (s.put ch).disk.bytes (byteAddr s.fp j) = s.disk.bytes (byteAddr s.fp j) := by
    rw [hdisk]
    split
    · have hflush := flush_r_outside hplaced hflags
      rw [hstored] at hflush ⊢
      exact hflush
    · exact ⟨SameSuper.refl, fun _ _ _ => rfl⟩
  have hfull : max s.fp.fsize (s.fp.off + 1) ≤ s.fp.numOfBlocks * 8192 := by
    have hfits := h.placed.size
    omega
  have hbound : max s.fp.fsize (s.fp.off + 1) < 2 ^ 32 := by
    have hword := h.placed.small
    omega
  have hlength := h.length
  have hputflags : (s.put ch).fp.flags =
      streamFlags (decide (¬ 8191 ≤ s.fp.off % 8192)) true := by rw [hfp]
  refine ⟨?_, ⟨_, true, hputflags⟩, fun hunwritten => ?_, ?_, fun j hj => ?_⟩
  · rw [hfp, hstored]
    exact (h.placed.resize hfull hbound).frame ⟨rfl, rfl, rfl, rfl, rfl, rfl, rfl⟩ hwrite.1
  · exact absurd ((Session.written_iff hputflags).mpr rfl) hunwritten
  · show (putAt s.bytes s.fp.off (ch.setWidth 8)).length = _
    rw [put_at_length (by omega), hfp]
    show _ = max s.fp.fsize (s.fp.off + 1)
    rw [hlength]
  · have hfsize : (s.put ch).fp.fsize = max s.fp.fsize (s.fp.off + 1) := by rw [hfp]
    have hbuffer : (s.put ch).fp.buffer =
        Function.update s.load.fp.buffer (s.fp.off % 8192) (ch.setWidth 8) := by rw [hfp, hstored]
    have hputaddr : byteAddr (s.put ch).fp j = byteAddr s.fp j := by rw [hfp, hstored]; rfl
    rw [hfsize] at hj
    show (putAt s.bytes s.fp.off (ch.setWidth 8))[j]? = some ((s.put ch).view j)
    by_cases hblock : j / 8192 = s.fp.off / 8192
    · -- the byte is in the block of the position, so in the buffer
      have hhere : (s.put ch).cached = some (j / 8192) := hcached.trans (by rw [hblock])
      rw [Session.view_cached hhere, hbuffer]
      by_cases hjpos : j = s.fp.off
      · rw [hjpos, Function.update_self, put_at_self (by omega)]
      · have hold := hload.view j (by omega)
        have hthere : s.load.cached = some (j / 8192) := hhere
        rw [Session.view_cached hthere] at hold
        rw [Function.update_of_ne (by omega), put_at_ne hjpos (by omega)]
        exact hold
    · have hhere : (s.put ch).cached ≠ some (j / 8192) := by
        show s.block ≠ _
        rw [hcached]
        exact fun hsome => hblock (Option.some.inj hsome).symm
      have hjpos : j ≠ s.fp.off := fun heq => hblock (by rw [heq])
      have hold := hload.view j (by omega)
      have hthere : s.load.cached ≠ some (j / 8192) := hhere
      rw [Session.view_other hthere, haddr, load_disk h.placed] at hold
      rw [Session.view_other hhere, hputaddr, hwrite.2 j (by omega) hblock,
        put_at_ne hjpos (by omega)]
      exact hold

/-- `putc_r` inside the file is the call of the session. -/
theorem putc_step_eq (h : InStep s) (ch : BitVec 32) (hin : s.pos < s.bytes.length)
    (ht : s.step (.putc ch) = some t) : t = s.put ch := by
  rw [Session.step, putc_r_file h] at ht
  simp only [Option.map_some, Option.some.injEq] at ht
  rw [← ht, Session.put, h.pos, putAt, if_pos hin]

/-- `putc_r` changes one byte of the abstract file and keeps the session in step. -/
theorem putc_in_step (h : InStep s) (ch : BitVec 32) (hin : s.pos < s.bytes.length)
    (hgood : s.Coherent .getc) (ht : s.step (.putc ch) = some t) :
    InStep t ∧ SameFile s.fp t.fp := by
  have hoff : s.fp.off < s.fp.fsize := by
    rw [h.pos, ← h.length]
    exact hin
  have hsmall := h.placed.small
  obtain ⟨level, written, -, hstored, hfp, -⟩ :=
    put_fields h.holds ch hoff.le (h.placed.block_lt hoff) (by omega) hgood
  obtain rfl := putc_step_eq h ch hin ht
  have hsize : max s.fp.fsize (s.fp.off + 1) = s.fp.fsize := by omega
  refine ⟨(put_holds h.holds ch hoff.le (h.placed.block_lt hoff) (by omega) hgood).in_step ?_ ?_, ?_⟩
  · rw [hfp]
    rfl
  · rw [hfp]
    show s.fp.off + 1 ≤ max s.fp.fsize (s.fp.off + 1)
    omega
  · rw [hfp, hstored, hsize]
    exact ⟨rfl, rfl, rfl, rfl, rfl, rfl, rfl⟩

/-- What `flush_r` leaves of the file when the stream was written to. -/
theorem flush_byte (h : Holds s) (hwritten : s.Written) (hj : j < s.fp.fsize) :
    (flushR s.fp s.disk).2.bytes (byteAddr s.fp j) =
      if j / 8192 = s.fp.off / 8192 then s.fp.buffer (j % 8192)
      else s.disk.bytes (byteAddr s.fp j) := by
  obtain ⟨loaded, written, hflags⟩ := h.flags
  cases written with
  | false => exact absurd (hflags ▸ (stream_flags_written loaded false).mpr rfl) hwritten
  | true =>
      have hwrite := flush_r_written h.placed hflags
      by_cases hblock : j / 8192 = s.fp.off / 8192
      · rw [if_pos hblock, hwrite.inside j hj hblock]
      · rw [if_neg hblock, hwrite.outside j hj hblock]

/-- `flush_r` of an unwritten stream changes nothing. -/
theorem flush_unwritten (h : Holds s) (hunwritten : ¬ s.Written) :
    (flushR s.fp s.disk).2 = s.disk := by
  obtain ⟨loaded, written, hflags⟩ := h.flags
  cases written with
  | false => exact flush_r_unwritten hflags h.placed.mode
  | true =>
      refine absurd (fun hzero => ?_) hunwritten
      exact absurd ((stream_flags_written loaded true).mp (hflags ▸ hzero)) (by decide)

/-- `flush_r` keeps the session in step when it writes the buffer to its own block. -/
theorem flush_in_step (h : InStep s) (hgood : s.Coherent .flush) (ht : s.step .flush = some t) :
    InStep t := by
  by_cases hwritten : s.Written
  case neg =>
      rw [Session.step, flush_unwritten h.holds hwritten] at ht
      cases ht
      exact h
  cases ht
  obtain ⟨loaded, written, hflags⟩ := h.flags
  have hsuper := (flush_r_outside h.placed hflags).1
  refine ⟨h.placed.frame ⟨rfl, rfl, rfl, rfl, rfl, rfl, rfl⟩ hsuper, h.flags,
    fun hunwritten => absurd hwritten hunwritten, h.length, h.pos, h.inside, fun j hj => ?_⟩
  have hold := h.view j hj
  have hbyte := flush_byte h.holds hwritten hj
  show s.bytes[j]? = some (if s.cached = some (j / 8192) then s.fp.buffer (j % 8192)
    else (flushR s.fp s.disk).2.bytes (byteAddr s.fp j))
  by_cases hcached : s.cached = some (j / 8192)
  · rw [Session.view_cached hcached] at hold
    rw [if_pos hcached]
    exact hold
  · rw [Session.view_other hcached] at hold
    rw [if_neg hcached, hbyte, hold]
    by_cases hblock : j / 8192 = s.fp.off / 8192
    · cases hgood hwritten with
      | inl hcurrent => exact absurd (hblock ▸ hcurrent) hcached
      | inr hharmless => rw [if_pos hblock, hharmless j hj hblock]
    · rw [if_neg hblock]

/-- An unsigned offset inside the file is the number itself. -/
theorem unsigned_of_long_eq {n : Int} (hlow : 0 ≤ n) (hhigh : n < 2 ^ 32) :
    unsignedOfLong n = n.toNat := by
  rw [unsignedOfLong, Int.emod_eq_of_lt hlow hhigh]

/-- `seek_r` moves to its target. -/
theorem seek_r_off (h : InStep s) {numBytes : Int} {origin : Origin}
    (hin : s.Inside (.seek numBytes origin)) :
    (seekR numBytes origin s.fp).off =
      (seekTarget numBytes origin s.pos s.bytes.length).toNat := by
  obtain ⟨hlow, hhigh⟩ := hin
  have hsmall := h.placed.small
  have hlength := h.length
  have htarget := unsigned_of_long_eq hlow (by omega)
  cases origin with
  | set => exact htarget
  | cur =>
      show unsignedOfLong (s.fp.off + numBytes) = _
      rw [h.pos]
      exact htarget
  | fromEnd =>
      show unsignedOfLong (s.fp.fsize - numBytes) = _
      rw [← hlength]
      exact htarget
  | other =>
      show s.fp.off = _
      rw [h.pos]
      rfl

theorem seek_in_step (h : InStep s) {numBytes : Int} {origin : Origin}
    (hin : s.Inside (.seek numBytes origin)) (ht : s.step (.seek numBytes origin) = some t) :
    InStep t := by
  have hoff := seek_r_off h hin
  obtain ⟨loaded, written, hflags⟩ := h.flags
  have hfile : SameFile s.fp (seekR numBytes origin s.fp) := by
    cases origin <;> exact ⟨rfl, rfl, rfl, rfl, rfl, rfl, rfl⟩
  have hbuffer : (seekR numBytes origin s.fp).buffer = s.fp.buffer := by cases origin <;> rfl
  have hflags' : (seekR numBytes origin s.fp).flags = streamFlags loaded written := by
    cases origin <;> exact hflags
  have hinside : (seekTarget numBytes origin s.pos s.bytes.length).toNat ≤ s.fp.fsize := by
    rw [← h.length]
    exact Int.toNat_le.mpr hin.2
  cases ht
  exact h.move hfile hbuffer rfl rfl rfl hflags hflags' hoff hinside

theorem rewind_in_step (h : InStep s) (ht : s.step .rewind = some t) : InStep t := by
  obtain ⟨loaded, written, hflags⟩ := h.flags
  have hflags' : (rewindR s.fp).flags = streamFlags false written := by
    show s.fp.flags &&& ~~~0x10#32 = _
    rw [hflags, stream_flags_unload]
  cases ht
  exact h.move ⟨rfl, rfl, rfl, rfl, rfl, rfl, rfl⟩ rfl rfl rfl rfl hflags hflags' rfl (Nat.zero_le _)

/-- Every call that uses the buffer for the block it holds keeps the session in step. -/
theorem session_step_in_step (h : InStep s) {event : StreamEvent} (hin : s.Inside event)
    (hgood : s.Coherent event) (ht : SessionStep s event t) : InStep t := by
  cases event with
  | seek numBytes origin => exact seek_in_step h hin ht
  | rewind => exact rewind_in_step h ht
  | getc =>
      obtain ⟨b, hb, hresult, hstep⟩ := getc_in_step h hin hgood
      exact hstep t ht
  | putc ch => exact (putc_in_step h ch hin hgood ht).1
  | flush => exact flush_in_step h hgood ht

/-! ### The end of a session -/

/-- The bytes of the file of a stream on a disk. -/
def fileBytes (fp : File) (disk : Disk) : List Byte :=
  (List.range fp.fsize).map fun j => disk.bytes (byteAddr fp j)

theorem file_bytes_eq_iff {bytes : List Byte} (hlength : bytes.length = fp.fsize) :
    fileBytes fp disk = bytes ↔
      ∀ j < fp.fsize, bytes[j]? = some (disk.bytes (byteAddr fp j)) := by
  have hget : ∀ j < fp.fsize, (fileBytes fp disk)[j]? = some (disk.bytes (byteAddr fp j)) := by
    intro j hj
    simp [fileBytes, hj]
  constructor
  · intro h j hj
    rw [← h]
    exact hget j hj
  · intro h
    refine List.ext_getElem? fun j => ?_
    by_cases hj : j < fp.fsize
    · rw [hget j hj, h j hj]
    · rw [List.getElem?_eq_none (by simp [fileBytes]; omega),
        List.getElem?_eq_none (by omega)]

/-- `close_r` leaves the abstract file on the disk exactly when it loses nothing. -/
theorem close_r_iff (h : Holds s) :
    fileBytes s.fp (closeR s.fp s.disk).2 = s.bytes ↔ s.CloseCoherent := by
  rw [file_bytes_eq_iff h.length]
  show (∀ j < s.fp.fsize,
    s.bytes[j]? = some ((flushR s.fp s.disk).2.bytes (byteAddr s.fp j))) ↔ _
  by_cases hwritten : s.Written
  case neg =>
      -- nothing was written, so nothing is flushed
      refine ⟨fun _ hw => absurd hw hwritten, fun _ j hj => ?_⟩
      rw [flush_unwritten h hwritten, ← (h.clean hwritten).view hj]
      exact h.view j hj
  constructor
  · intro hall hw
    by_cases hcurrent : s.Current
    · exact Or.inl hcurrent
    refine Or.inr ⟨fun j hj hblock => ?_, fun j hj hcached => ?_⟩
    · -- the buffer of another block went to the block of the position
      have hother : s.cached ≠ some (j / 8192) := by
        rw [hblock]
        exact hcurrent
      have hsame := (hall j hj).symm.trans (h.view j hj)
      rw [flush_byte h hwritten hj, if_pos hblock, Session.view_other hother] at hsame
      exact Option.some.inj hsame
    · have hblock : j / 8192 ≠ s.fp.off / 8192 := by
        intro heq
        rw [heq] at hcached
        exact hcurrent hcached
      have hsame := (hall j hj).symm.trans (h.view j hj)
      rw [flush_byte h hwritten hj, if_neg hblock, Session.view_cached hcached] at hsame
      exact (Option.some.inj hsame).symm
  · intro hclose j hj
    rw [h.view j hj, flush_byte h hwritten hj]
    by_cases hblock : j / 8192 = s.fp.off / 8192
    · rw [if_pos hblock]
      cases hclose hwritten with
      | inl hcurrent => rw [Session.view_cached (hblock ▸ hcurrent)]
      | inr hclean => rw [hclean.2.view hj, hclean.1 j hj hblock]
    · rw [if_neg hblock]
      cases hclose hwritten with
      | inl hcurrent =>
          have hother : s.cached ≠ some (j / 8192) := by
            rw [hcurrent]
            exact fun hsome => hblock (Option.some.inj hsome).symm
          rw [Session.view_other hother]
      | inr hclean => rw [hclean.2.view hj]

/-! ### The file stays the same -/

theorem SameFile.trans {fp'' : File} (h : SameFile fp fp') (h' : SameFile fp' fp'') :
    SameFile fp fp'' :=
  ⟨h'.bsize.trans h.bsize, h'.count.trans h.count, h'.mode.trans h.mode, h'.fsize.trans h.fsize,
    h'.numOfBlocks.trans h.numOfBlocks, h'.blocks.trans h.blocks, h'.dirCluster.trans h.dirCluster⟩

/-- No call inside the file changes its size or its blocks. -/
theorem session_step_same_file (h : InStep s) {event : StreamEvent} (hin : s.Inside event)
    (hgood : s.Coherent event) (ht : SessionStep s event t) : SameFile s.fp t.fp := by
  cases event with
  | seek numBytes origin =>
      cases ht
      cases origin <;> exact ⟨rfl, rfl, rfl, rfl, rfl, rfl, rfl⟩
  | rewind =>
      cases ht
      exact ⟨rfl, rfl, rfl, rfl, rfl, rfl, rfl⟩
  | flush =>
      cases ht
      exact ⟨rfl, rfl, rfl, rfl, rfl, rfl, rfl⟩
  | getc =>
      obtain ⟨hload, _, hfile, hoff, written, hflags⟩ := load_in_step h hin hgood
      have hlt : s.fp.off < s.fp.fsize := by
        rw [h.pos, ← h.length]
        exact hin
      obtain ⟨level, loaded, hget⟩ := get_file_spec hlt h.placed.small hoff hflags
      rw [SessionStep, Session.step, getc_r_file h] at ht
      simp only [Option.map_some, Option.some.injEq, hget] at ht
      subst ht
      exact hfile.trans ⟨rfl, rfl, rfl, rfl, rfl, rfl, rfl⟩
  | putc ch => exact (putc_in_step h ch hin hgood ht).2

/-! ### Opening an existing file -/

/-- The entry `d`, found in the directory block `f.rootBlk`, belongs to a file whose blocks are `l`:
the blocks are in range, none of them is the directory block, and the size fits in them. -/
structure ExistingFile (disk : Disk) (f : SuperBlock) (d : Bytes) (l : List Nat) : Prop where
  ok : disk.fails = []
  formatted : Formatted f
  super : f = { superBlockAt disk.bytes 512 with rootBlk := f.rootBlk }
  chain : Chain disk.bytes f (firstBlk d 0) l
  nonempty : l ≠ []
  range : ∀ b ∈ l, b < f.numOfBlk
  directory : f.rootBlk < f.numOfBlk ∧ f.rootBlk ∉ l
  size : fileSize d 0 ≤ l.length * 8192

/-- The content of a file with the blocks `l`. -/
def fileContent (bytes : Bytes) (f : SuperBlock) (l : List Nat) (size : Nat) : List Byte :=
  (List.range size).map fun j => bytes (f.firstSector (l.getD (j / 8192) 0) * 512 + j % 8192)

/-- `"r+"` -/
def modeUpdate : List Byte := [0x72#8, 0x2b#8]

/-- The session that starts when the file has been opened. -/
def openSession (fp : File) (disk : Disk) (bytes : List Byte) : Session :=
  { fp, disk, cached := none, bytes, pos := 0 }

/-- The blocks of a file do not overlap. -/
theorem Formatted.apart {f : SuperBlock} (h : Formatted f) {a b : Nat} (ha : a < f.numOfBlk)
    (hb : b < f.numOfBlk) (hne : a ≠ b) : Apart (f.firstSector a) (f.firstSector b) := by
  rw [h.first_sector ha, h.first_sector hb, Apart]
  omega

variable {f : SuperBlock} {d : Bytes} {l : List Nat}

/-- The block of the table at `k` is a block of the chain. -/
theorem HasTable.block (htable : HasTable f fp l) (hk : k < fp.numOfBlocks) :
    ∃ b ∈ l, l[k]? = some b ∧ fp.blocks k = f.firstSector b := by
  rw [htable.numOfBlocks] at hk
  have hget : l[k]? = some l[k] := List.getElem?_eq_getElem hk
  exact ⟨l[k], List.getElem_mem hk, hget, htable.blocks k _ hget⟩

/-- A stream with the table of an existing file, and with its size, is placed. -/
theorem ExistingFile.placed (h : ExistingFile disk f d l)
    (htable : HasTable f fp (l.take (1024 * 1024))) (hbsize : fp.bsize = 8192)
    (hcount : fp.count = 16) (hmode : fp.mode = 2) (hfsize : fp.fsize = fileSize d 0)
    (hdir : fp.dirCluster = f.rootBlk) : Placed fp disk := by
  have hnodup : (l.take (1024 * 1024)).Nodup := (Linked.nodup h.chain).sublist (List.take_sublist _ _)
  have hmem : ∀ b ∈ l.take (1024 * 1024), b ∈ l := fun b hb => List.mem_of_mem_take hb
  have hsector : dirSector fp disk = f.firstSector f.rootBlk := by
    rw [dirSector, hdir]
    conv_rhs => rw [h.super]
    rfl
  have hdata : 2 ≤ f.dataSector := by
    rw [h.formatted.data_sector]
    exact h.formatted.dataSector
  have hword : fileSize d 0 < 2 ^ 32 := read_word_lt
  have hsize := h.size
  refine ⟨h.ok, hbsize, hcount, hmode, ?_, ?_, fun a b ha hb hne => ?_, fun a ha => ?_, ?_,
    fun a ha => ?_, ?_⟩
  · have hlength := htable.numOfBlocks
    rw [List.length_take] at hlength
    omega
  · omega
  · obtain ⟨x, hx, hgetx, hxblock⟩ := htable.block ha
    obtain ⟨y, hy, hgety, hyblock⟩ := htable.block hb
    rw [hxblock, hyblock]
    refine h.formatted.apart (h.range x (hmem x hx)) (h.range y (hmem y hy)) fun heq => hne ?_
    rw [htable.numOfBlocks] at ha
    exact (List.getElem?_inj ha hnodup).mp (by rw [hgetx, hgety, heq])
  · obtain ⟨x, hx, _, hxblock⟩ := htable.block ha
    rw [hxblock, h.formatted.first_sector (h.range x (hmem x hx))]
    omega
  · rw [← h.formatted.sectorPerBlk]
    conv_rhs => rw [h.super]
  · obtain ⟨x, hx, _, hxblock⟩ := htable.block ha
    rw [hxblock, hsector]
    refine h.formatted.apart (h.range x (hmem x hx)) h.directory.1 fun heq => ?_
    exact h.directory.2 (heq ▸ hmem x hx)
  · rw [hsector, h.formatted.first_sector h.directory.1]
    omega

/-- The modes that `open_file` opens a file for writing with. -/
def OpensForWriting (m : List Byte) : Prop :=
  m.getD 0 0#8 = 0x77#8 ∨ m.getD 1 0#8 = 0x2b#8 ∨ m.getD 0 0#8 = 0x61#8

/-- Opening an existing file for writing; with `a` the position is the end of the file. -/
theorem open_entry_writes (h : ExistingFile disk f d l) {m : List Byte} (hm : OpensForWriting m)
    (heap blk : Bytes) :
    ∃ fp, openEntry d f m heap blk disk = (some fp, disk) ∧ Placed fp disk ∧
      fp.flags = streamFlags false false ∧
      fp.off = (if m.getD 0 0#8 = 0x61#8 then fileSize d 0 else 0) ∧ fp.fsize = fileSize d 0 ∧
      HasTable f fp (l.take (1024 * 1024)) ∧ fp.dirCluster = f.rootBlk ∧
      fp.dirEntry = dirEntry d 0 ∧
      fp.fname = assertFn (copyBytes (fun _ => 0#8) 0 d 0 96) 96 := by
  obtain ⟨fp, hopen, htable, hsame⟩ :=
    open_file_r_chain h.formatted h.ok h.chain h.nonempty h.range heap blk
  have hbsize : fp.bsize = 8192 := congrArg File.bsize hsame
  have hcount : fp.count = 16 := congrArg File.count hsame
  have hfsize : fp.fsize = fileSize d 0 := congrArg File.fsize hsame
  have hoff : fp.off = 0 := congrArg File.off hsame
  have hfname : fp.fname = fun _ => 0#8 := congrArg File.fname hsame
  let opened := { fp with
    fname := assertFn (copyBytes fp.fname 0 d 0 96) 96
    mode := 2
    flags := 0x6#32
    dirCluster := f.rootBlk
    dirEntry := dirEntry d 0
    off := if m.getD 0 0#8 = 0x61#8 then fileSize d 0 else fp.off }
  have hopened : openEntry d f m heap blk disk = (some opened, disk) := by
    rw [openEntry, hopen]
    simp only [Option.map_some, opened, if_pos (show m.getD 0 0#8 = 0x77#8 ∨ m.getD 1 0#8 = 0x2b#8 ∨
      m.getD 0 0#8 = 0x61#8 from hm)]
  refine ⟨opened, hopened, h.placed ⟨htable.numOfBlocks, htable.blocks⟩ hbsize hcount rfl hfsize rfl,
    rfl, ?_, hfsize, ⟨htable.numOfBlocks, htable.blocks⟩, rfl, rfl, ?_⟩
  · show (if m.getD 0 0#8 = 0x61#8 then fileSize d 0 else fp.off) = _
    rw [hoff]
  · show assertFn (copyBytes fp.fname 0 d 0 96) 96 = _
    rw [hfname]

/-- Opening an existing file with `r+`. -/
theorem open_entry_update (h : ExistingFile disk f d l) (heap blk : Bytes) :
    ∃ fp, openEntry d f modeUpdate heap blk disk = (some fp, disk) ∧ Placed fp disk ∧
      fp.flags = streamFlags false false ∧ fp.off = 0 ∧ fp.fsize = fileSize d 0 ∧
      HasTable f fp (l.take (1024 * 1024)) := by
  obtain ⟨fp, hopen, hplaced, hflags, hoff, hfsize, htable, -⟩ :=
    open_entry_writes h (m := modeUpdate) (.inr (.inl rfl)) heap blk
  exact ⟨fp, hopen, hplaced, hflags, hoff, hfsize, htable⟩

/-- The address of a byte, through the table and through the chain. -/
theorem file_bytes_table (hsize : fp.fsize ≤ l.length * 8192) (hsmall : fp.fsize < 2 ^ 32)
    (htable : HasTable f fp (l.take (1024 * 1024))) (disk' : Disk) :
    fileBytes fp disk' = fileContent disk'.bytes f l fp.fsize := by
  rw [fileBytes, fileContent]
  refine List.map_congr_left fun j hj => ?_
  rw [List.mem_range] at hj
  have hlt : j / 8192 < l.length := by omega
  have hget : (l.take (1024 * 1024))[j / 8192]? = some (l.getD (j / 8192) 0) := by
    rw [List.getElem?_take_of_lt (by omega), List.getD_eq_getElem?_getD,
      List.getElem?_eq_getElem hlt]
    rfl
  rw [byteAddr, htable.blocks _ _ hget]

theorem file_bytes_eq_content (hsize : fileSize d 0 ≤ l.length * 8192)
    (htable : HasTable f fp (l.take (1024 * 1024))) (hfsize : fp.fsize = fileSize d 0)
    (disk' : Disk) : fileBytes fp disk' = fileContent disk'.bytes f l (fileSize d 0) := by
  have hword : fileSize d 0 < 2 ^ 32 := read_word_lt
  rw [file_bytes_table (by rwa [hfsize]) (by rwa [hfsize]) htable, hfsize]

/-- The runs of calls with positions inside the file. -/
abbrev SessionRun : Session → Session → Prop := Run SessionStep fun s event => s.Inside event

/-- The runs that use the buffer only for the block it holds. -/
abbrev CoherentRun : Session → Session → Prop :=
  Run SessionStep fun s event => s.Inside event ∧ s.Coherent event

/-- In every coherent run on an existing file opened with `r+`, `getc_r` returns the byte of the
abstract file, and `close_r` leaves the abstract file on the disk exactly when its flush loses
nothing. -/
theorem stream_durability (disk : Disk) (f : SuperBlock) (d : Bytes) (l : List Nat)
    (hfile : ExistingFile disk f d l) (heap blk : Bytes) :
    ∃ fp, openEntry d f modeUpdate heap blk disk = (some fp, disk) ∧
      ∀ t, CoherentRun (openSession fp disk (fileContent disk.bytes f l (fileSize d 0))) t →
        (t.Inside .getc → t.Coherent .getc →
          ∃ b fp' disk', t.bytes[t.pos]? = some b ∧
            getcR t.fp t.disk = some ((b.toNat : Int), fp', disk')) ∧
        (fileContent (closeR t.fp t.disk).2.bytes f l (fileSize d 0) = t.bytes ↔
          t.CloseCoherent) := by
  obtain ⟨fp, hopen, hplaced, hflags, hoff, hfsize, htable⟩ := open_entry_update hfile heap blk
  refine ⟨fp, hopen, fun t hrun => ?_⟩
  have hcontent := file_bytes_eq_content hfile.size htable hfsize
  have hstart : InStep (openSession fp disk (fileContent disk.bytes f l (fileSize d 0))) := by
    refine ⟨hplaced, ⟨false, false, hflags⟩, fun _ j _ hcached => ?_, ?_, hoff, Nat.zero_le _,
      (file_bytes_eq_iff ?_).mp (hcontent disk)⟩
    · exact absurd hcached (by simp [openSession])
    · simp [openSession, fileContent, hfsize]
    · simp [openSession, fileContent, hfsize]
  have hinv := hrun.invariant (fun s => InStep s ∧ SameFile fp s.fp)
    ⟨hstart, ⟨rfl, rfl, rfl, rfl, rfl, rfl, rfl⟩⟩ fun s event u hs hgood hstep =>
      ⟨session_step_in_step hs.1 hgood.1 hgood.2 hstep,
        hs.2.trans (session_step_same_file hs.1 hgood.1 hgood.2 hstep)⟩
  obtain ⟨ht, hsame⟩ := hinv
  constructor
  · intro hin hgood
    obtain ⟨b, hb, hresult, _⟩ := getc_in_step ht hin hgood
    refine ⟨b, (getFile t.fp t.disk).2.1, (getFile t.fp t.disk).2.2, hb, ?_⟩
    rw [getc_r_file ht, ← hresult]
  · have htable' : HasTable f t.fp (l.take (1024 * 1024)) :=
      ⟨hsame.numOfBlocks.trans htable.numOfBlocks, hsame.blocks ▸ htable.blocks⟩
    rw [← file_bytes_eq_content hfile.size htable' (hsame.fsize.trans hfsize)]
    exact close_r_iff ht.holds

/-! ### A file of two blocks -/

/-- A disk with a file in the blocks 2 and 3. The first byte of block 2 is 1, that of block 3 is
2. -/
def twoBlockDisk : Disk where
  bytes :=
    let m := writeWord (writeWord (writeWord (fun _ => 0#8) 536 2) 540 512) 544 16
    let m := writeWord (writeWord (writeWord m 548 8) 552 1) 556 1
    let m := writeWord (writeWord m 1032 3) 1036 endMark
    writeWord (writeWord m 17408 1) 25600 2
  fails := []

/-- The entry of the file: 8193 bytes from block 2 on. -/
def twoBlockEntry : Bytes := writeWord (writeWord (writeWord (fun _ => 0#8) 107 2) 111 8193) 115 1

/-- The super block of the disk. -/
def twoBlockSuper : SuperBlock := superBlockAt twoBlockDisk.bytes 512

theorem two_block_existing : ExistingFile twoBlockDisk twoBlockSuper twoBlockEntry [2, 3] where
  ok := rfl
  formatted := ⟨by decide +kernel, by decide +kernel, by decide +kernel, by decide +kernel⟩
  super := rfl
  chain := ⟨by decide +kernel, by decide, by decide +kernel, by decide,
    Linked.nil_iff.mpr (by decide +kernel)⟩
  nonempty := List.cons_ne_nil _ _
  range := by decide +kernel
  directory := by decide +kernel
  size := by decide +kernel

/-- The stream after `open_file`. -/
def twoBlockFile : File :=
  (openEntry twoBlockEntry twoBlockSuper modeUpdate (fun _ => 0#8) (fun _ => 0#8)
    twoBlockDisk).1.getD (File.cleared fun _ => 0#8)

/-- The session on the file. -/
def twoBlockSession : Session :=
  openSession twoBlockFile twoBlockDisk
    (fileContent twoBlockDisk.bytes twoBlockSuper [2, 3] (fileSize twoBlockEntry 0))

theorem two_block_open {fp : File} (h : openEntry twoBlockEntry twoBlockSuper modeUpdate
    (fun _ => 0#8) (fun _ => 0#8) twoBlockDisk = (some fp, twoBlockDisk)) : fp = twoBlockFile := by
  rw [twoBlockFile, h]
  rfl

theorem two_block_size : twoBlockSession.bytes.length = 8193 := by
  simp only [twoBlockSession, openSession, fileContent, List.length_map, List.length_range]
  decide +kernel

theorem two_block_loaded : twoBlockSession.fp.flags &&& 0x10#32 = 0#32 := by decide +kernel

/-- Nothing is lost by the first read. -/
theorem two_block_coherent : twoBlockSession.Coherent .getc := by
  rw [Session.Coherent, if_pos two_block_loaded]
  exact fun j _ hcached => absurd hcached (by simp [twoBlockSession, openSession])

/-- Writing a byte and closing the file. -/
theorem stream_durability_write : ∃ t, CoherentRun twoBlockSession t ∧ t.bytes[0]? = some 7#8 ∧
    fileContent (closeR t.fp t.disk).2.bytes twoBlockSuper [2, 3] (fileSize twoBlockEntry 0) =
      t.bytes := by
  have hsome : ((twoBlockSession.step (.putc 7#32)).map fun t =>
      (t.cached, t.fp.off / 8192, t.bytes[0]?)) = some (some 0, 0, some 7#8) := by
    decide +kernel
  obtain ⟨t, ht, hvalues⟩ := Option.map_eq_some_iff.mp hsome
  simp only [Prod.mk.injEq] at hvalues
  obtain ⟨hcached, hoff, hbyte⟩ := hvalues
  have hin : twoBlockSession.pos < twoBlockSession.bytes.length := by
    rw [two_block_size]
    decide
  have hrun : CoherentRun twoBlockSession t :=
    Run.refl.snoc (.putc 7#32) ⟨hin, two_block_coherent⟩ ht
  have hclose : t.CloseCoherent := by
    refine fun _ => Or.inl ?_
    rw [Session.Current, hcached, hoff]
  obtain ⟨fp, hopen, hall⟩ := stream_durability twoBlockDisk twoBlockSuper twoBlockEntry [2, 3]
    two_block_existing (fun _ => 0#8) (fun _ => 0#8)
  cases two_block_open hopen
  exact ⟨t, hrun, hbyte, (hall t hrun).2.mpr hclose⟩

/-- After a read of the first byte and a seek to the second block, `getc_r` returns a byte of the
first block. -/
theorem seek_reads_stale_block : ¬ ∀ (disk : Disk) (f : SuperBlock) (d : Bytes) (l : List Nat)
    (heap blk : Bytes) (fp : File) (t : Session), ExistingFile disk f d l →
    openEntry d f modeUpdate heap blk disk = (some fp, disk) →
    SessionRun (openSession fp disk (fileContent disk.bytes f l (fileSize d 0))) t →
    (t.Inside .getc → ∃ b fp' disk', t.bytes[t.pos]? = some b ∧
      getcR t.fp t.disk = some ((b.toNat : Int), fp', disk')) ∧
    fileContent (closeR t.fp t.disk).2.bytes f l (fileSize d 0) = t.bytes := by
  intro h
  obtain ⟨fp, hopen, _⟩ := open_entry_update two_block_existing (fun _ => 0#8) (fun _ => 0#8)
  cases two_block_open hopen
  have hsome : ((twoBlockSession.step .getc).bind fun s =>
      (s.step (.seek 8192 .set)).map fun t => (s.bytes.length, t.pos, t.bytes[8192]?,
        (getcR t.fp t.disk).map Prod.fst)) = some (8193, 8192, some 2#8, some 1) := by
    decide +kernel
  obtain ⟨s, hs, hmap⟩ := Option.bind_eq_some_iff.mp hsome
  obtain ⟨t, ht, hvalues⟩ := Option.map_eq_some_iff.mp hmap
  simp only [Prod.mk.injEq] at hvalues
  obtain ⟨hlength, hpos, hbyte, hresult⟩ := hvalues
  have hin : twoBlockSession.pos < twoBlockSession.bytes.length := by
    rw [two_block_size]
    decide
  have hseek : s.Inside (.seek 8192 .set) := by
    simp only [Session.Inside, seekTarget, hlength]
    decide
  have hrun : SessionRun twoBlockSession t :=
    (Run.refl.snoc .getc hin hs).snoc (.seek 8192 .set) hseek ht
  have hinside : t.Inside .getc := by
    rw [Session.Inside, hpos]
    exact (List.getElem?_eq_some_iff.mp hbyte).1
  obtain ⟨b, fp', disk', hb, hget⟩ := (h twoBlockDisk twoBlockSuper twoBlockEntry [2, 3] _ _ _ t
    two_block_existing hopen hrun).1 hinside
  rw [hpos, hbyte] at hb
  cases hb
  rw [hget, Option.map_some, Option.some.injEq] at hresult
  have hone : ((2#8).toNat : Int) = 1 := hresult
  exact absurd hone (by decide)

end Sirius.Cfs
