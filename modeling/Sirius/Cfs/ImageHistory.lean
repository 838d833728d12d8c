import Sirius.Cfs.HostFormat

/-!
# Images that the host tool builds

An image is formatted once, and then files and folders with fresh names are put into its root
directory, one call of the tool after the other. After every such call the image is a volume whose
entries are the files and folders so far.
-/

namespace Sirius.Cfs.Host

open Library

variable {f : SuperBlock} {fd : HostFile} {b i k : Nat} {slot : Nat → Option Stored}
  {path bytes : List Byte}

/-! ### One call of the tool -/

/-- The tool finds the super block of an image. -/
theorem read_super_block_eq (hsuper : superBlockAt fd.bytes 512 = f) (hlong : LongEnough fd f) :
    readSuperBlock fd = (f, fd.rewind) := by
  have hlen := hlong.directory
  have hread : min 52 (fd.len - 512) = 52 := by
    unfold entryAddr at hlen
    omega
  have hfields : superBlockAt (copyBytes (fun _ => 0#8) 0 fd.bytes 512 52) 0 = f :=
    (super_block_fields fun i hi => copy_bytes_inside hi).trans hsuper
  rw [readSuperBlock, HostFile.fread]
  simp only [fseek_bytes, fseek_len, fseek_pos, hread, hfields]
  rfl

theorem LongEnough.mono {fd' : HostFile} (h : LongEnough fd f) (hlen : fd.len ≤ fd'.len) :
    LongEnough fd' f :=
  ⟨h.table.trans hlen, h.directory.trans hlen⟩

/-- The entry with the size that `copy` fills in. -/
theorem sized_entry_record (hname : ValidName (getFileName path)) (attr : Byte)
    (hb : b < 2 ^ 32) (hk : k < 2 ^ 32) {size : Nat} (hsize : size < 2 ^ 32) :
    IsRecord (writeWord (newEntry path b k attr) 111 size) (getFileName path) b size k := by
  have hrecord := new_entry_record attr hname hb hk
  refine ⟨fun j hj => ?_, ?_, ?_, read_write_word_same hsize, ?_⟩
  · rw [write_word_outside (by omega)]
    exact hrecord.name j hj
  · rw [busy, write_word_outside (by omega)]
    exact hrecord.busy
  · rw [sized_first_blk]
    exact hrecord.firstBlk
  · rw [sized_dir_entry]
    exact hrecord.dirEntry

/-- `copy` after `create_file`: the entry gets its size, and the bytes follow. -/
theorem copy_spec (h : Volume fd.bytes f slot) (hlong : LongEnough fd f) (hk : k < 64)
    (hname : ValidName (getFileName path)) (attr : Byte)
    (hslot : slot k = some ⟨getFileName path, 0, [b], []⟩)
    (hcount : blocksFor bytes.length ≤ 1 + freeCount fd.bytes f) :
    ∃ blocks,
      Volume (copy fd f (newEntry path b k attr) (some bytes)).bytes f (Function.update slot k
          (some ⟨getFileName path, bytes.length, blocks, bytes⟩)) ∧
        LongEnough (copy fd f (newEntry path b k attr) (some bytes)) f := by
  have hf := h.layout
  have htable := hf.table
  have hsmall := hf.small
  have hstored := h.stored k hk _ hslot
  have hrange : f.rootBlk < b ∧ b < f.numOfBlk := hstored.range b (List.mem_singleton_self b)
  have hfit : bytes.length < 2 ^ 32 := by
    have hfree := free_count_le fd.bytes f
    unfold blocksFor at hcount
    omega
  have hrecord := sized_entry_record hname attr (show b < 2 ^ 32 by omega)
    (show k < 2 ^ 32 by omega) hfit
  have hchain : Chain fd.bytes f b [b] := by
    obtain ⟨blk, -, hlinked⟩ := hstored.record
    have hblk : blk = b := hlinked.1
    exact hblk ▸ hlinked
  -- the image after the entry has been written again
  have hresize := h.resize hk hslot hrecord hchain
  have hsame : freeCount (copyBytes fd.bytes (entryAddr f k)
      (writeWord (newEntry path b k attr) 111 bytes.length) 0 128) f = freeCount fd.bytes f := by
    refine free_count_same fun c hc => (same_outside_copy _ (entryAddr f k) 128 _).fat hf ?_
    unfold entryAddr
    omega
  have hstart : Copying (((fd.fseek (entryAddr f k)).fwrite
      (writeWord (newEntry path b k attr) 111 bytes.length) 128).fseek (1024 + 8192 * b)) f
      (Function.update slot k (some ⟨getFileName path, bytes.length, [b], []⟩)) k
      ⟨getFileName path, bytes.length, [b], []⟩ b := by
    refine ⟨hresize, Function.update_self _ _ _, ⟨[], rfl⟩, ?_, hlong.mono (Nat.le_max_left _ _)⟩
    show 1024 + 8192 * b + 8192 * 1 = 1024 + 8192 * b + 0 + 8192
    omega
  obtain ⟨blocks, curBlk, hcopied⟩ := copy_loop_spec hk bytes _ _ _ _ hstart (by
    show blocksFor (0 + bytes.length) ≤ 1 + freeCount (copyBytes _ _ _ 0 128) f
    rw [Nat.zero_add, fseek_bytes, fseek_pos, hsame]
    exact hcount)
  rw [Function.update_idem] at hcopied
  refine ⟨blocks, ?_⟩
  simp only [copy, hrecord.dirEntry, hrecord.firstBlk, hrecord.fileSize, List.take_length,
    hf.entry_offset hk, hf.data_offset hrange.2.le]
  exact ⟨hcopied.volume, hcopied.long.mono (le_refl _)⟩

/-- Copying a file of the host into a volume with enough free blocks and an unused entry. -/
theorem gravar_spec (h : Volume fd.bytes f slot) (hlong : LongEnough fd f)
    (hname : ValidName (getFileName path))
    (hcount : blocksFor bytes.length ≤ freeCount fd.bytes f) (hslot : ∃ i < 64, slot i = none) :
    ∃ k blocks, (gravar path (some bytes) fd).1 = 0 ∧ k < 64 ∧ slot k = none ∧
      Volume (gravar path (some bytes) fd).2.bytes f (Function.update slot k
        (some ⟨getFileName path, bytes.length, blocks, bytes⟩)) ∧
      LongEnough (gravar path (some bytes) fd).2 f := by
  have hfree : 0 < freeCount fd.bytes f := by
    unfold blocksFor at hcount
    omega
  have hrewind : Volume fd.rewind.bytes f slot := h
  obtain ⟨k, b, fd₁, hcreate, hk, hnone, hb, hvolume, hlong₁, hless⟩ :=
    create_file_spec hrewind (hlong.mono (le_refl _)) hname (some bytes) 0x20#8
      (fun hmissing => nomatch hmissing.2) hfree hslot
  rw [rewind_bytes] at hless
  obtain ⟨blocks, hcopied, hlong₂⟩ := copy_spec hvolume hlong₁ hk hname 0x20#8
    (Function.update_self _ _ _) (show blocksFor bytes.length ≤ 1 + freeCount fd₁.bytes f by omega)
  rw [Function.update_idem] at hcopied
  rw [gravar, read_super_block_eq h.super hlong]
  simp only [hcreate, if_true]
  exact ⟨k, blocks, trivial, hk, hnone, hcopied, hlong₂⟩

/-- Creating a folder in a volume with a free block and an unused entry. -/
theorem folder_spec (h : Volume fd.bytes f slot) (hlong : LongEnough fd f)
    (hname : ValidName (getFileName path)) (hfree : 0 < freeCount fd.bytes f)
    (hslot : ∃ i < 64, slot i = none) :
    ∃ k blocks, k < 64 ∧ slot k = none ∧
      Volume (folder path fd).2.bytes f (Function.update slot k
        (some ⟨getFileName path, 0, blocks, []⟩)) ∧
      LongEnough (folder path fd).2 f := by
  have hrewind : Volume fd.rewind.bytes f slot := h
  obtain ⟨k, b, fd₁, hcreate, hk, hnone, hb, hvolume, hlong₁, hless⟩ :=
    create_file_spec hrewind (hlong.mono (le_refl _)) hname none 0x40#8
      (fun hmissing => absurd hmissing.1 (by decide)) hfree hslot
  rw [folder, read_super_block_eq h.super hlong]
  simp only [hcreate]
  exact ⟨k, [b], hk, hnone, hvolume, hlong₁⟩

/-! ### Runs of the tool -/

/-- What the root directory holds under a name: a file with its bytes, or a folder. -/
inductive Kind
  | file (content : List Byte)
  | folder

/-- The bytes of an entry; a folder is an empty file. -/
def Kind.content : Kind → List Byte
  | .file content => content
  | .folder => []

/-- The image has an unused root entry, and `n` free blocks. -/
structure HasRoom (fd : HostFile) (n : Nat) : Prop where
  blocks : n ≤ freeCount fd.bytes (superBlockAt fd.bytes 512)
  entry : ∃ i < 64, busy fd.bytes (entryAddr (superBlockAt fd.bytes 512) i) = 0#8

/-- An image that the tool formats, below 2 GiB and with room for its boot sector and its super
block, and then fills with files and folders with fresh names. -/
inductive Built : HostFile → List (List Byte × Kind) → Prop
  | format (fd : HostFile) (boot : Bytes) (hlow : 1024 ≤ fd.len) (hhigh : fd.len < 2 ^ 31) :
      Built (format fd boot) []
  | file {fd : HostFile} {entries : List (List Byte × Kind)} (path content : List Byte)
      (hbuilt : Built fd entries) (hname : ValidName (getFileName path))
      (hfresh : ∀ kind, (getFileName path, kind) ∉ entries)
      (hroom : HasRoom fd (blocksFor content.length)) :
      Built (gravar path (some content) fd).2 ((getFileName path, .file content) :: entries)
  | folder {fd : HostFile} {entries : List (List Byte × Kind)} (path : List Byte)
      (hbuilt : Built fd entries) (hname : ValidName (getFileName path))
      (hfresh : ∀ kind, (getFileName path, kind) ∉ entries) (hroom : HasRoom fd 1) :
      Built (folder path fd).2 ((getFileName path, .folder) :: entries)

/-- The entries of a volume are those of the list, each name once. -/
structure Lists (slot : Nat → Option Stored) (entries : List (List Byte × Kind)) : Prop where
  listed : ∀ i < 64, ∀ s, slot i = some s → ∃ kind, (s.name, kind) ∈ entries
  held : ∀ name kind, (name, kind) ∈ entries → ∃ i < 64, ∃ blocks,
    slot i = some ⟨name, kind.content.length, blocks, kind.content⟩
  distinct : ∀ i < 64, ∀ j < 64, ∀ s t, slot i = some s → slot j = some t → s.name = t.name → i = j

/-- A fresh name in an unused entry. -/
theorem Lists.insert {entries : List (List Byte × Kind)} {name : List Byte} {blocks : List Nat}
    (kind : Kind) (h : Lists slot entries) (hk : k < 64) (hnone : slot k = none)
    (hfresh : ∀ kind, (name, kind) ∉ entries) :
    Lists (Function.update slot k
      (some ⟨name, kind.content.length, blocks, kind.content⟩)) ((name, kind) :: entries) := by
  have hcases : ∀ i s, Function.update slot k
      (some ⟨name, kind.content.length, blocks, kind.content⟩) i = some s →
      (i = k ∧ s.name = name) ∨ (i ≠ k ∧ slot i = some s) := by
    intro i s hs
    by_cases hik : i = k
    · rw [hik, Function.update_self, Option.some.injEq] at hs
      exact .inl ⟨hik, hs ▸ rfl⟩
    · rw [Function.update_of_ne hik] at hs
      exact .inr ⟨hik, hs⟩
  have hother : ∀ i < 64, ∀ s, slot i = some s → s.name ≠ name := by
    intro i hi s hs hsame
    obtain ⟨kind', hmem⟩ := h.listed i hi s hs
    exact hfresh kind' (hsame ▸ hmem)
  refine ⟨fun i hi s hs => ?_, fun name' kind' hmem => ?_, fun i hi j hj s t hs ht hsame => ?_⟩
  · rcases hcases i s hs with ⟨-, hnew⟩ | ⟨-, hold⟩
    · exact ⟨kind, hnew ▸ List.mem_cons_self ..⟩
    · obtain ⟨kind', hmem⟩ := h.listed i hi s hold
      exact ⟨kind', List.mem_cons_of_mem _ hmem⟩
  · rcases List.mem_cons.mp hmem with hnew | hold
    · cases hnew
      exact ⟨k, hk, blocks, Function.update_self _ _ _⟩
    · obtain ⟨i, hi, blocks', hs⟩ := h.held name' kind' hold
      have hik : i ≠ k := by
        intro heq
        rw [heq, hnone] at hs
        cases hs
      exact ⟨i, hi, blocks', by rw [Function.update_of_ne hik, hs]⟩
  · rcases hcases i s hs with ⟨hik, hnew⟩ | ⟨hik, hold⟩
    · rcases hcases j t ht with ⟨hjk, -⟩ | ⟨-, hold'⟩
      · exact hik.trans hjk.symm
      · exact absurd (hsame.symm.trans hnew) (hother j hj t hold')
    · rcases hcases j t ht with ⟨-, hnew'⟩ | ⟨-, hold'⟩
      · exact absurd (hsame.trans hnew') (hother i hi s hold)
      · exact h.distinct i hi j hj s t hold hold' hsame

/-- Every image that the tool builds is a volume with the listed entries. -/
theorem Built.volume {entries : List (List Byte × Kind)} (h : Built fd entries) :
    ∃ f slot, Volume fd.bytes f slot ∧ LongEnough fd f ∧ Lists slot entries := by
  induction h with
  | format fd boot hlow hhigh =>
      obtain ⟨f, hvolume, hlong, -⟩ := format_spec fd boot hlow hhigh
      exact ⟨f, _, hvolume, hlong, fun i _ s hs => (nomatch hs),
        fun name kind hmem => (List.not_mem_nil hmem).elim, fun i _ j _ s t hs => (nomatch hs)⟩
  | @file fd entries path content hbuilt hname hfresh hroom ih =>
      obtain ⟨f, slot, hvolume, hlong, hlists⟩ := ih
      obtain ⟨hblocks, i, hi, hentry⟩ := hroom
      rw [hvolume.super] at hblocks hentry
      obtain ⟨k, blocks, -, hk, hnone, hnext, hlong'⟩ := gravar_spec hvolume hlong hname hblocks
        ⟨i, hi, (hvolume.busy_iff hi).mp hentry⟩
      exact ⟨f, _, hnext, hlong', hlists.insert (.file content) hk hnone hfresh⟩
  | @folder fd entries path hbuilt hname hfresh hroom ih =>
      obtain ⟨f, slot, hvolume, hlong, hlists⟩ := ih
      obtain ⟨hblocks, i, hi, hentry⟩ := hroom
      rw [hvolume.super] at hblocks hentry
      obtain ⟨k, blocks, hk, hnone, hnext, hlong'⟩ := folder_spec hvolume hlong hname hblocks
        ⟨i, hi, (hvolume.busy_iff hi).mp hentry⟩
      exact ⟨f, _, hnext, hlong', hlists.insert .folder hk hnone hfresh⟩

end Sirius.Cfs.Host
