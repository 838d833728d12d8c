import Sirius.Cfs.KernelFile
import Sirius.Cfs.StreamDurability

/-!
# Reading coherently with the position

A stream of the kernel holds one block in its buffer, and flag 0x10 says that one is loaded. `fgetc`
clears the flag at the end of a block and `rewind` clears it too, but `fseek` does not, so a byte is
read from whatever block was loaded last. A run that reads a byte with the flag set only in the
block that was loaded returns the bytes of the file at the positions of the stream.
-/

namespace Sirius.Cfs

open Library Stdio

/-- The entry `d` belongs to a file whose blocks are `l`: they are in range, and the size fits in
them. -/
structure RegularFile (bytes : Bytes) (f : SuperBlock) (d : Bytes) (l : List Nat) : Prop where
  formatted : Formatted f
  chain : Chain bytes f (firstBlk d 0) l
  nonempty : l ≠ []
  range : ∀ b ∈ l, b < f.numOfBlk
  size : fileSize d 0 ≤ l.length * 8192

/-- A stream of the kernel and the disk, with the block that was read into the buffer last and the
position that the calls ask for. -/
structure ReadSession where
  fp : File
  disk : Disk
  cached : Option Nat
  pos : Nat

/-- The calls that read from a stream or move its position. -/
inductive ReadEvent
  | seek (numBytes : Int) (origin : Origin)
  | rewind
  | getc
  | read (size count : Nat)

namespace ReadSession

/-- The block in the buffer after a call of `fgetc`. -/
def block (s : ReadSession) : Option Nat :=
  if s.fp.fsize ≤ s.fp.off then s.cached
  else if s.fp.flags &&& 0x10#32 = 0#32 then some (s.fp.off / s.fp.bsize)
  else s.cached

/-- A call of `fgetc`, with its result. The position stays where it is at the end of the file. -/
def getc (s : ReadSession) : Option (Int × ReadSession) :=
  (Kernel.fgetc s.fp s.disk).map fun (c, fp, disk) =>
    (c, { fp, disk, cached := s.block, pos := if c = -1 then s.pos else s.pos + 1 })

/-- The calls of `fgetc` that a loop of `fread` over `n` bytes makes. -/
def getcs : Nat → ReadSession → Option ReadSession
  | 0, s => some s
  | n + 1, s => do
      let (c, t) ← s.getc
      if c = -1 then pure t else getcs n t

/-- A call on the stream. -/
def step (s : ReadSession) : ReadEvent → Option ReadSession
  | .seek numBytes origin => some { s with
      fp := Kernel.fseek numBytes origin s.fp
      pos := (seekTarget numBytes origin s.pos s.fp.fsize).toNat }
  | .rewind => some { s with fp := Kernel.rewind s.fp, pos := 0 }
  | .getc => s.getc.map Prod.snd
  | .read size count => s.getcs (size * count % 2 ^ 32)

/-- The positions stay inside the file. -/
def Inside (s : ReadSession) : ReadEvent → Prop
  | .seek numBytes origin =>
      let target := seekTarget numBytes origin s.pos s.fp.fsize
      0 ≤ target ∧ target ≤ s.fp.fsize
  | .rewind | .getc | .read .. => True

/-- The next byte is read from the block of the position: that block is loaded, or no block is and
the request to the disk does not fail. -/
def CoherentByte (s : ReadSession) : Prop :=
  s.fp.off < s.fp.fsize →
    if s.fp.flags &&& 0x10#32 = 0#32 then s.disk.fails.headD false = false
    else s.cached = some (s.fp.off / s.fp.bsize)

/-- The next `n` bytes are read from the blocks of their positions. -/
def CoherentBytes : Nat → ReadSession → Prop
  | 0, _ => True
  | n + 1, s => s.CoherentByte ∧ ∀ c t, s.getc = some (c, t) → c ≠ -1 → t.CoherentBytes n

/-- Every byte that a call reads is read from the block of its position. -/
def Coherent (s : ReadSession) : ReadEvent → Prop
  | .getc => s.CoherentByte
  | .read size count => s.CoherentBytes (size * count % 2 ^ 32)
  | .seek .. | .rewind => True

end ReadSession

/-- The transitions of a reading session. -/
def ReadStep (s : ReadSession) (event : ReadEvent) (t : ReadSession) : Prop :=
  s.step event = some t

/-- The stream is at its position, and a block in the buffer has the bytes of the file. -/
structure ReadInv (content : List Byte) (s : ReadSession) : Prop where
  bsize : s.fp.bsize = 8192
  count : s.fp.count = 16
  size : s.fp.fsize ≤ s.fp.numOfBlocks * 8192
  small : s.fp.fsize < 2 ^ 32
  length : content.length = s.fp.fsize
  disk : ∀ j < s.fp.fsize, content[j]? = some (s.disk.bytes (byteAddr s.fp j))
  flags : s.fp.flags = 0#32 ∨ s.fp.flags = 0x10#32
  level : s.fp.level = s.fp.off % 8192
  pos : s.fp.off = s.pos
  inside : s.pos ≤ s.fp.fsize
  buffer : ∀ j < s.fp.fsize, s.cached = some (j / 8192) →
    content[j]? = some (s.fp.buffer (j % 8192))

variable {content : List Byte} {s t : ReadSession} {fp : File} {disk : Disk} {j n : Nat}

/-! ### One byte -/

/-- Reading a block that the disk delivers. -/
theorem file_read_block_ok (hcount : fp.count = 16) (hblock : j / 8192 < fp.numOfBlocks)
    (hok : disk.fails.headD false = false) :
    ∃ buffer, fileReadBlock fp (j / 8192) disk =
        (0, buffer, { disk with fails := disk.fails.tail }) ∧
      ∀ i, i / 8192 = j / 8192 → buffer (i % 8192) = disk.bytes (byteAddr fp i) := by
  refine ⟨copyBytes fp.buffer 0 disk.bytes (fp.blocks (j / 8192) * 512) (16 * 512), ?_, ?_⟩
  · rw [fileReadBlock, if_neg (by omega), hcount, readSector, hok]
    rfl
  · intro i hi
    have hcopy : copyBytes fp.buffer 0 disk.bytes (fp.blocks (j / 8192) * 512) (16 * 512)
        (0 + i % 8192) = disk.bytes (fp.blocks (j / 8192) * 512 + i % 8192) :=
      copy_bytes_inside (by omega)
    rw [Nat.zero_add] at hcopy
    rw [hcopy, byteAddr, hi]

/-- The start of `fgetc`: afterwards the buffer holds the block of the position. -/
theorem load_coherent (h : ReadInv content s) (hlt : s.fp.off < s.fp.fsize)
    (hgood : s.CoherentByte) :
    ∃ buffer fails, (if s.fp.flags &&& 0x10#32 = 0#32 then
          let (_, buffer, disk) := fileReadBlock s.fp (s.fp.off / s.fp.bsize) s.disk
          ({ s.fp with
            flags := s.fp.flags ||| 0x10#32
            buffer }, disk)
        else (s.fp, s.disk)) =
        ({ s.fp with flags := 0x10#32, buffer }, { s.disk with fails }) ∧
      (∀ j < s.fp.fsize, j / 8192 = s.fp.off / 8192 → content[j]? = some (buffer (j % 8192))) ∧
      s.block = some (s.fp.off / 8192) ∧ (s.disk.fails = [] → fails = []) := by
  have hbyte := hgood hlt
  have hsize := h.size
  rw [h.bsize] at hbyte ⊢
  cases h.flags with
  | inl hempty =>
      have hclear : s.fp.flags &&& 0x10#32 = 0#32 := by
        rw [hempty]
        rfl
      have hset : s.fp.flags ||| 0x10#32 = 0x10#32 := by
        rw [hempty]
        rfl
      rw [if_pos hclear] at hbyte
      obtain ⟨buffer, hread, hbuffer⟩ := file_read_block_ok h.count
        (show s.fp.off / 8192 < s.fp.numOfBlocks by omega) hbyte
      refine ⟨buffer, s.disk.fails.tail, ?_, fun j hj hblock => ?_, ?_, fun hok => ?_⟩
      · rw [if_pos hclear, hread, hset]
      · rw [h.disk j hj, hbuffer j hblock]
      · rw [ReadSession.block, if_neg (by omega), if_pos hclear, h.bsize]
      · rw [hok, List.tail_nil]
  | inr hloaded =>
      have hset : s.fp.flags &&& 0x10#32 ≠ 0#32 := by
        rw [hloaded]
        decide
      rw [if_neg hset] at hbyte
      refine ⟨s.fp.buffer, s.disk.fails, ?_, fun j hj hblock => ?_, ?_, id⟩
      · rw [if_neg hset, ← hloaded]
      · exact h.buffer j hj (by rw [hblock, hbyte])
      · rw [ReadSession.block, if_neg (by omega), if_neg hset, hbyte]

/-- The stream after a byte: the block of the byte is in the buffer, and flag 0x10 is set unless it
was the last byte of the block. -/
structure NextByte (content : List Byte) (s t : ReadSession) : Prop where
  inv : ReadInv content t
  pos : t.pos = s.pos + 1
  cached : t.cached = some (s.fp.off / 8192)
  flags : t.fp.flags = 0x10#32 → t.fp.off / 8192 = s.fp.off / 8192
  fails : s.disk.fails = [] → t.disk.fails = []

/-- The flags of the stream are none of those of the standard streams. -/
theorem ReadInv.file_flags (h : ReadInv content s) :
    ¬ (s.fp.flags = 2#32 ∨ s.fp.flags = 3#32 ∨ s.fp.flags = 4#32) := by
  cases h.flags with
  | inl hflags =>
      rw [hflags]
      decide
  | inr hflags =>
      rw [hflags]
      decide

/-- A byte read from the block of its position is the byte of the file there, and the position
moves on by one. -/
theorem fgetc_coherent (h : ReadInv content s) (hin : s.pos < content.length)
    (hgood : s.CoherentByte) :
    ∃ b t, content[s.pos]? = some b ∧ s.getc = some ((b.toNat : Int), t) ∧ NextByte content s t := by
  have hlength := h.length
  have hpos := h.pos
  have hsmall := h.small
  have hlt : s.fp.off < s.fp.fsize := by omega
  obtain ⟨buffer, fails, hload, hbuffer, hblock, hfails⟩ := load_coherent h hlt hgood
  have hbyte := hbuffer s.fp.off hlt rfl
  have hnext : (s.fp.off + 1) % 2 ^ 32 = s.fp.off + 1 := Nat.mod_eq_of_lt (by omega)
  have hnoeof : ((buffer (s.fp.off % 8192)).toNat : Int) ≠ -1 := by omega
  -- the level and the flag after the byte
  have hget : ∃ level flags, Kernel.fgetc s.fp s.disk =
      some (((buffer (s.fp.off % 8192)).toNat : Int), { s.fp with
          buffer
          flags
          level
          off := s.fp.off + 1 }, { s.disk with fails }) ∧
      (flags = 0#32 ∨ flags = 0x10#32 ∧ (s.fp.off + 1) / 8192 = s.fp.off / 8192) ∧
      level = (s.fp.off + 1) % 8192 := by
    unfold Kernel.fgetc
    rw [if_neg h.file_flags, if_neg (by omega), hload]
    simp only [h.bsize, h.level]
    by_cases hlast : 8192 ≤ s.fp.off % 8192 + 1
    · refine ⟨0, 0#32, ?_, Or.inl rfl, by omega⟩
      simp only [if_pos hlast, hnext]
      rfl
    · refine ⟨s.fp.off % 8192 + 1, 0x10#32, ?_, Or.inr ⟨rfl, by omega⟩, by omega⟩
      simp only [if_neg hlast, hnext]
  obtain ⟨level, flags, hget, hflags, hlevel⟩ := hget
  let next : ReadSession :=
    { fp := { s.fp with
        buffer
        flags
        level
        off := s.fp.off + 1 }
      disk := { s.disk with fails }
      cached := s.block
      pos := s.pos + 1 }
  have hgetc : s.getc = some (((buffer (s.fp.off % 8192)).toNat : Int), next) := by
    rw [ReadSession.getc, hget, Option.map_some]
    simp only [if_neg hnoeof]
    rfl
  refine ⟨buffer (s.fp.off % 8192), next, hpos ▸ hbyte, hgetc, ?_, rfl, hblock, ?_, hfails⟩
  case refine_2 =>
      intro hset
      cases hflags with
      | inl hclear => exact absurd (hclear.symm.trans hset) (by decide)
      | inr hloaded => exact hloaded.2
  refine ⟨h.bsize, h.count, h.size, h.small, h.length, h.disk, hflags.imp_right And.left, hlevel,
    congrArg (· + 1) hpos, ?_, fun j hj hcached => hbuffer j hj ?_⟩
  · show s.pos + 1 ≤ s.fp.fsize
    omega
  · exact (Option.some.inj (hblock.symm.trans hcached)).symm

/-- At the end of the file nothing is read. -/
theorem fgetc_end (h : ReadInv content s) (hend : content.length ≤ s.pos) :
    s.getc = some (-1, s) := by
  have hlength := h.length
  have hpos := h.pos
  have hget : Kernel.fgetc s.fp s.disk = some (-1, s.fp, s.disk) := by
    unfold Kernel.fgetc
    rw [if_neg h.file_flags, if_pos (by omega)]
  rw [ReadSession.getc, hget, Option.map_some, ReadSession.block, if_pos (by omega)]
  rfl

/-! ### Several bytes -/

/-- What `getc` says about `fgetc`. -/
theorem fgetc_of_getc {c : Int} (h : s.getc = some (c, t)) :
    Kernel.fgetc s.fp s.disk = some (c, t.fp, t.disk) := by
  simp only [ReadSession.getc, Option.map_eq_some_iff, Prod.mk.injEq] at h
  obtain ⟨⟨c', fp, disk⟩, hget, rfl, rfl⟩ := h
  exact hget

/-- The loop of `fread` on bytes read from the blocks of their positions: up to the end of the file
it copies the bytes of the file from the position on. The induction is on the number of bytes that
are asked for. -/
theorem fread_loop_coherent (n rc : Nat) (buffer : Bytes) (h : ReadInv content s)
    (hgood : s.CoherentBytes n) :
    ∃ buffer' t, s.getcs n = some t ∧ ReadInv content t ∧
      Kernel.freadLoop n rc buffer s.fp s.disk =
        some (rc + min n (content.length - s.pos), buffer', t.fp, t.disk) ∧
      t.pos = s.pos + min n (content.length - s.pos) ∧
      (∀ i < rc, buffer' i = buffer i) ∧
      ∀ i < min n (content.length - s.pos), content[s.pos + i]? = some (buffer' (rc + i)) := by
  induction n generalizing s rc buffer with
  | zero =>
      refine ⟨buffer, s, rfl, h, ?_, ?_, fun _ _ => rfl, ?_⟩
      · rw [Nat.zero_min]
        rfl
      · rw [Nat.zero_min]
        rfl
      · intro i hi
        omega
  | succ n ih =>
      by_cases hin : s.pos < content.length
      case neg =>
          -- at the end of the file the loop stops at the first `fgetc`
          have hget := fgetc_end h (by omega)
          have hzero : min (n + 1) (content.length - s.pos) = 0 := by omega
          refine ⟨buffer, s, ?_, h, ?_, ?_, fun _ _ => rfl, ?_⟩
          · simp [ReadSession.getcs, hget]
          · rw [hzero]
            simp [Kernel.freadLoop, fgetc_of_getc hget]
          · rw [hzero]
            rfl
          · intro i hi
            omega
      obtain ⟨hbyte, hrest⟩ := hgood
      obtain ⟨b, u, hb, hget, hnext⟩ := fgetc_coherent h hin hbyte
      have hpos := hnext.pos
      -- a byte is never mistaken for the end of the file
      have hnoeof : ((b.toNat : Int)) ≠ -1 := by omega
      have hvalue : BitVec.ofInt 8 (b.toNat : Int) = b := by
        rw [BitVec.ofInt_natCast, BitVec.ofNat_toNat, BitVec.setWidth_eq]
      obtain ⟨buffer', t, hgetcs, ht, hloop, hend, hbefore, hbytes⟩ :=
        ih (rc + 1) (Function.update buffer rc b) hnext.inv (hrest _ _ hget hnoeof)
      have hmin : min (n + 1) (content.length - s.pos) =
          min n (content.length - u.pos) + 1 := by omega
      refine ⟨buffer', t, ?_, ht, ?_, by omega, fun i hi => ?_, fun i hi => ?_⟩
      · simp [ReadSession.getcs, hget, hnoeof, hgetcs]
      · simp only [Kernel.freadLoop, fgetc_of_getc hget, Option.bind_eq_bind, Option.bind_some,
          hnoeof, if_false, hvalue]
        rw [hloop, hmin, Nat.add_right_comm, Nat.add_assoc rc]
      · rw [hbefore i (by omega), Function.update_of_ne (by omega)]
      · cases i with
        | zero => rw [Nat.add_zero, Nat.add_zero, hb, hbefore rc (by omega), Function.update_self]
        | succ i =>
            have hget' := hbytes i (by omega)
            rw [hpos] at hget'
            rw [show s.pos + (i + 1) = s.pos + 1 + i by omega, hget']
            congr 2
            omega

/-! ### Runs -/

/-- A stream that moves keeps its block and its flag. -/
theorem ReadInv.move {fp : File} {pos : Nat} (h : ReadInv content s)
    (hfile : SameFile s.fp fp) (hbuffer : fp.buffer = s.fp.buffer)
    (hflags : fp.flags = 0#32 ∨ fp.flags = 0x10#32) (hlevel : fp.level = fp.off % 8192)
    (hpos : fp.off = pos) (hinside : pos ≤ s.fp.fsize) :
    ReadInv content { s with fp, pos } where
  bsize := hfile.bsize.trans h.bsize
  count := hfile.count.trans h.count
  size := by
    show fp.fsize ≤ fp.numOfBlocks * 8192
    rw [hfile.fsize, hfile.numOfBlocks]
    exact h.size
  small := by
    show fp.fsize < 2 ^ 32
    rw [hfile.fsize]
    exact h.small
  length := h.length.trans hfile.fsize.symm
  disk := by
    intro j hj
    show content[j]? = some (s.disk.bytes (fp.blocks (j / 8192) * 512 + j % 8192))
    rw [hfile.blocks]
    exact h.disk j (hfile.fsize ▸ hj)
  flags := hflags
  level := hlevel
  pos := hpos
  inside := hfile.fsize ▸ hinside
  buffer := by
    intro j hj hcached
    show content[j]? = some (fp.buffer (j % 8192))
    rw [hbuffer]
    exact h.buffer j (hfile.fsize ▸ hj) hcached

/-- `fseek` moves to its target. -/
theorem fseek_inv (h : ReadInv content s) {numBytes : Int} {origin : Origin}
    (hin : s.Inside (.seek numBytes origin)) (ht : s.step (.seek numBytes origin) = some t) :
    ReadInv content t := by
  obtain ⟨hlow, hhigh⟩ := hin
  have hsmall := h.small
  have htarget := unsigned_of_long_eq hlow (by omega)
  have hoff : (seekR numBytes origin s.fp).off =
      (seekTarget numBytes origin s.pos s.fp.fsize).toNat := by
    cases origin with
    | set => exact htarget
    | cur =>
        show unsignedOfLong (s.fp.off + numBytes) = _
        rw [h.pos]
        exact htarget
    | fromEnd => exact htarget
    | other => exact h.pos
  have hfile : SameFile s.fp (seekR numBytes origin s.fp) := by
    cases origin <;> exact ⟨rfl, rfl, rfl, rfl, rfl, rfl, rfl⟩
  have hbuffer : (seekR numBytes origin s.fp).buffer = s.fp.buffer := by cases origin <;> rfl
  have hflags : (seekR numBytes origin s.fp).flags = s.fp.flags := by cases origin <;> rfl
  have hlevel : (seekR numBytes origin s.fp).level =
      (seekR numBytes origin s.fp).off % 8192 := by
    rw [← h.bsize]
    cases origin <;> rfl
  cases ht
  exact h.move hfile hbuffer (hflags.symm ▸ h.flags) hlevel hoff (Int.toNat_le.mpr hhigh)

theorem rewind_inv (h : ReadInv content s) (ht : s.step .rewind = some t) :
    ReadInv content t := by
  have hflags : (rewindR s.fp).flags = 0#32 := by
    show s.fp.flags &&& ~~~0x10#32 = 0#32
    cases h.flags with
    | inl hflags =>
        rw [hflags]
        rfl
    | inr hflags =>
        rw [hflags]
        rfl
  cases ht
  exact h.move ⟨rfl, rfl, rfl, rfl, rfl, rfl, rfl⟩ rfl (Or.inl hflags) rfl rfl (Nat.zero_le _)

/-- Every call whose bytes are read from the blocks of their positions keeps the invariant. -/
theorem read_step_inv (h : ReadInv content s) {event : ReadEvent} (hin : s.Inside event)
    (hgood : s.Coherent event) (ht : ReadStep s event t) : ReadInv content t := by
  cases event with
  | seek numBytes origin => exact fseek_inv h hin ht
  | rewind => exact rewind_inv h ht
  | getc =>
      by_cases hpos : s.pos < content.length
      · obtain ⟨b, u, _, hget, hnext⟩ := fgetc_coherent h hpos hgood
        rw [ReadStep, ReadSession.step, hget] at ht
        cases ht
        exact hnext.inv
      · rw [ReadStep, ReadSession.step, fgetc_end h (by omega)] at ht
        cases ht
        exact h
  | read size count =>
      obtain ⟨_, u, hgetcs, hu, _⟩ := fread_loop_coherent (size * count % 2 ^ 32) 0
        (fun _ => 0#8) h hgood
      rw [ReadStep, ReadSession.step, hgetcs] at ht
      cases ht
      exact hu

/-- The session that starts when the file has been opened. -/
def openRead (fp : File) (disk : Disk) : ReadSession := { fp, disk, cached := none, pos := 0 }

/-- The runs of calls with positions inside the file. -/
abbrev ReadRun : ReadSession → ReadSession → Prop := Run ReadStep fun s event => s.Inside event

/-- The runs that read every byte from the block of its position. -/
abbrev CoherentReadRun : ReadSession → ReadSession → Prop :=
  Run ReadStep fun s event => s.Inside event ∧ s.Coherent event

/-- A stream that `open_file_r` returns starts at the first byte, with no block in its buffer. -/
theorem open_read_inv {disk' : Disk} {f : SuperBlock} {d heap blk : Bytes} {l : List Nat}
    (hfile : RegularFile disk.bytes f d l)
    (hopen : openFileR d f heap blk disk = (some fp, disk')) :
    ReadInv (fileContent disk.bytes f l (fileSize d 0)) (openRead fp disk') := by
  have hf := hfile.formatted
  have hempty : HasTable f { File.cleared heap with
      bsize := 8192
      fsize := fileSize d 0
      bytePerSector := 512
      count := 16 } [] := ⟨rfl, fun k b hk => by simp at hk⟩
  have hblocks : openBlocks f (1024 * 1024) (firstBlk d 0) endMark blk { File.cleared heap with
      bsize := 8192
      fsize := fileSize d 0
      bytePerSector := 512
      count := 16 } disk = (some fp, disk') := by
    simp only [openFileR, hf.bytePerSector, hf.sectorPerBlk] at hopen
    exact hopen
  have hword : fileSize d 0 < 2 ^ 32 := read_word_lt
  have hsize := hfile.size
  rcases open_blocks_walk hf.bytePerSector (n := 1024 * 1024) hfile.chain hfile.nonempty
    (fun b hb => hf.in_range (hfile.range b hb)) hempty
    (Or.inl rfl : endMark = endMark ∨ HoldsSector blk disk.bytes endMark) with
    ⟨-, hnone⟩ | ⟨-, fp', hrun, htable, hsame⟩
  · rw [hblocks] at hnone
    cases hnone
  rw [hblocks] at hrun
  simp only [Prod.mk.injEq, Option.some.injEq] at hrun
  obtain ⟨rfl, rfl⟩ := hrun
  have hfsize : fp.fsize = fileSize d 0 := congrArg File.fsize hsame
  have hlength : (fileContent disk.bytes f l (fileSize d 0)).length = fp.fsize := by
    simp [fileContent, hfsize]
  have hcontent := file_bytes_eq_content hfile.size htable hfsize disk
  have hcount := htable.numOfBlocks
  rw [List.nil_append, List.length_take] at hcount
  refine ⟨congrArg File.bsize hsame, congrArg File.count hsame, ?_, ?_, hlength, ?_,
    Or.inl (congrArg File.flags hsame), ?_, congrArg File.off hsame, Nat.zero_le _,
    fun j _ hcached => by cases hcached⟩
  · show fp.fsize ≤ fp.numOfBlocks * 8192
    omega
  · show fp.fsize < 2 ^ 32
    omega
  · exact (file_bytes_eq_iff hlength).mp hcontent
  · rw [show (openRead fp _).fp.level = 0 from congrArg File.level hsame,
      show (openRead fp _).fp.off = 0 from congrArg File.off hsame]

/-- What `fgetc` and `fread` return in a state: the bytes of the file from the position on, by which
the position moves on. -/
structure ReadsContent (content : List Byte) (s : ReadSession) : Prop where
  pos : s.fp.off = s.pos
  getc : s.Coherent .getc → ∃ c fp disk, Kernel.fgetc s.fp s.disk = some (c, fp, disk) ∧
    if s.pos < content.length then
      fp.off = s.pos + 1 ∧ ∃ b, content[s.pos]? = some b ∧ c = (b.toNat : Int)
    else fp.off = s.pos ∧ c = -1
  read : ∀ (size count : Nat) (buffer : Bytes), s.Coherent (.read size count) →
    ∃ buffer' fp disk,
      let rc := min (size * count % 2 ^ 32) (content.length - s.pos)
      Kernel.fread buffer size count s.fp s.disk = some (rc / size, buffer', fp, disk) ∧
        fp.off = s.pos + rc ∧ ∀ i < rc, content[s.pos + i]? = some (buffer' i)

theorem ReadInv.reads_content (h : ReadInv content s) : ReadsContent content s where
  pos := h.pos
  getc := by
    intro hgood
    by_cases hin : s.pos < content.length
    · obtain ⟨b, t, hb, hget, hnext⟩ := fgetc_coherent h hin hgood
      refine ⟨_, _, _, fgetc_of_getc hget, ?_⟩
      rw [if_pos hin]
      exact ⟨hnext.inv.pos.trans hnext.pos, b, hb, rfl⟩
    · refine ⟨_, _, _, fgetc_of_getc (fgetc_end h (by omega)), ?_⟩
      rw [if_neg hin]
      exact ⟨h.pos, rfl⟩
  read := by
    intro size count buffer hgood
    obtain ⟨buffer', t, _, ht, hloop, hpos, _, hbytes⟩ :=
      fread_loop_coherent (size * count % 2 ^ 32) 0 buffer h hgood
    rw [Nat.zero_add] at hloop
    refine ⟨buffer', t.fp, t.disk, ?_, ht.pos.trans hpos, fun i hi => ?_⟩
    · rw [Kernel.fread, hloop]
      rfl
    · have hbyte := hbytes i hi
      rwa [Nat.zero_add] at hbyte

theorem two_block_regular : RegularFile twoBlockDisk.bytes twoBlockSuper twoBlockEntry [2, 3] where
  formatted := two_block_existing.formatted
  chain := two_block_existing.chain
  nonempty := two_block_existing.nonempty
  range := two_block_existing.range
  size := two_block_existing.size

/-- The stream of the kernel. -/
def twoBlockRead : ReadSession :=
  let (fp, disk) := openFileR twoBlockEntry twoBlockSuper (fun _ => 0#8) (fun _ => 0#8) twoBlockDisk
  openRead (fp.getD (File.cleared fun _ => 0#8)) disk

theorem two_block_open_read :
    openFileR twoBlockEntry twoBlockSuper (fun _ => 0#8) (fun _ => 0#8) twoBlockDisk =
      (some twoBlockRead.fp, twoBlockRead.disk) := by
  have hf := two_block_existing
  obtain ⟨fp, hopen, _⟩ := open_file_r_chain hf.formatted hf.ok hf.chain hf.nonempty hf.range
    (fun _ => 0#8) (fun _ => 0#8)
  rw [twoBlockRead, hopen]
  rfl

end Sirius.Cfs
