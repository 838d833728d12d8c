import Mathlib.Data.Finset.Card
import Mathlib.Data.Finset.Range
import Sirius.Cfs.Volume

/-!
# Copying files into an image

`create_file` and `copy` of the host tool on a volume: the new entry starts as a file of one block,
and each byte that `copy` writes makes the file one byte longer. Only `copy` at a block boundary
takes a free block.
-/

namespace Sirius.Cfs.Host

open Library

variable {f : SuperBlock} {bytes bytes' : Bytes} {fd : HostFile} {b i k : Nat} {s t : Stored}
  {slot : Nat → Option Stored}

/-- One byte more than `n` full blocks. -/
theorem blocks_for_full {n m : Nat} (h : m = 8192 * n) : blocksFor (m + 1) = n + 1 := by
  unfold blocksFor
  omega

/-! ### The steps on a volume -/

/-- The record of a new entry in the image. -/
theorem root_entry_copy (dir : Bytes) : ∀ j < 128,
    rootEntry (copyBytes bytes (entryAddr f k) dir 0 128) f k j = dir j := by
  intro j hj
  have hcopy : copyBytes bytes (entryAddr f k) dir 0 128 (entryAddr f k + j) = dir (0 + j) :=
    copy_bytes_inside hj
  rwa [Nat.zero_add] at hcopy

/-- A free block and an unused entry become an empty file. -/
theorem Volume.create (h : Volume bytes f slot) (hk : k < 64) (hfree : fat bytes f b = 0)
    (hb : b < f.numOfBlk) {dir : Bytes} {name : List Byte} (hname : ValidName name) {size : Nat}
    (hdir : IsRecord dir name b size k) :
    Volume (copyBytes (writeWord bytes (1024 + 4 * b) endMark) (entryAddr f k) dir 0 128) f
      (Function.update slot k (some ⟨name, size, [b], []⟩)) := by
  have hf := h.layout
  have hrange := h.free_range hb hfree
  have htable := hf.table
  have hsmall := hf.small
  have hmark := same_outside_word bytes (1024 + 4 * b) endMark
  have henter := same_outside_copy (writeWord bytes (1024 + 4 * b) endMark)
    (entryAddr f k) 128 dir
  have hfat : ∀ c, c < f.numOfBlk →
      fat (copyBytes (writeWord bytes (1024 + 4 * b) endMark) (entryAddr f k) dir 0 128) f c =
        fat (writeWord bytes (1024 + 4 * b) endMark) f c := fun c hc => by
    refine henter.fat hf (Or.inl ?_)
    unfold entryAddr
    omega
  refine h.replace hk ?_ (fun c hroot hc => ?_) (fun i hi hik j hj => ?_) (fun i hi hik t ht => ?_)
    ⟨hname, ⟨b, hdir.congr (root_entry_copy dir), rfl, ?_, ?_⟩, fun c hc => ?_, ?_,
      fun j hj => ?_⟩ (show 1 = blocksFor 0 by decide) (fun i hi hik t ht => ?_)
  · rw [henter.super (by unfold entryAddr; omega), hmark.super (by omega)]
  · rw [hfat c hc]
    exact hmark.fat hf (by omega)
  · rw [henter.entry (by unfold entryAddr; omega) hj]
    exact hmark.entry (by unfold entryAddr; omega) hj
  · have hstored := h.stored i hi t ht
    exact (hstored.mark hf hb (hstored.not_free hfree) endMark).enter hf hk hik dir
  · unfold endMark
    omega
  · show fat _ f b = endMark
    rw [hfat b hb, hf.fat_eq]
    exact read_write_word_same (by decide)
  · rw [List.mem_singleton.mp hc]
    exact hrange
  · exact Nat.zero_le _
  · exact absurd hj (Nat.not_lt_zero j)
  · intro c hc hct
    rw [List.mem_singleton.mp hc] at hct
    exact (h.stored i hi t ht).not_free hfree hct

/-- The entry of a file is written again with another size. -/
theorem Volume.resize (h : Volume bytes f slot) (hk : k < 64) (hs : slot k = some s)
    {dir : Bytes} {blk size : Nat} (hdir : IsRecord dir s.name blk size k)
    (hchain : Chain bytes f blk s.blocks) :
    Volume (copyBytes bytes (entryAddr f k) dir 0 128) f
      (Function.update slot k (some { s with size := size })) := by
  have hf := h.layout
  have htable := hf.table
  have hown := h.stored k hk s hs
  have henter := same_outside_copy bytes (entryAddr f k) 128 dir
  have hfat : ∀ c, c < f.numOfBlk →
      fat (copyBytes bytes (entryAddr f k) dir 0 128) f c = fat bytes f c := fun c hc => by
    refine henter.fat hf (Or.inl ?_)
    unfold entryAddr
    omega
  refine h.replace hk (henter.super (by unfold entryAddr; omega)) (fun c _ hc => hfat c hc)
    (fun i hi hik j hj => henter.entry (by unfold entryAddr; omega) hj)
    (fun i hi hik t ht => (h.stored i hi t ht).enter hf hk hik dir)
    ⟨hown.valid, ⟨blk, hdir.congr (root_entry_copy dir), hchain.congr fun c hc =>
      hfat c (hown.range c hc).2⟩, hown.range, hown.room, fun j hj => ?_⟩ (h.exact k hk s hs)
    (fun i hi hik t ht => h.disjoint k hk i hi s t (Ne.symm hik) hs ht)
  have hrange := hown.range _ (hown.block_mem hj)
  show s.content[j]? = some (copyBytes bytes (entryAddr f k) dir 0 128
    (1024 + 8192 * s.blocks.getD (j / 8192) 0 + j % 8192))
  rw [henter _ (by unfold entryAddr; omega)]
  exact hown.data j hj

/-- A byte goes behind the last one. -/
theorem Volume.append (h : Volume bytes f slot) (hk : k < 64) (hs : slot k = some s)
    (hroom : s.content.length / 8192 < s.blocks.length) (c : Byte) :
    Volume (Function.update bytes (1024 + 8192 * s.blocks.getD (s.content.length / 8192) 0 +
        s.content.length % 8192) c) f
      (Function.update slot k (some { s with content := s.content ++ [c] })) := by
  have hf := h.layout
  have htable := hf.table
  have hown := h.stored k hk s hs
  have hexact := h.exact k hk s hs
  have hmem : s.blocks.getD (s.content.length / 8192) 0 ∈ s.blocks := by
    rw [List.getD_eq_getElem _ _ hroom]
    exact List.getElem_mem hroom
  have hrange := hown.range _ hmem
  have hsame := same_outside_byte bytes
    (1024 + 8192 * s.blocks.getD (s.content.length / 8192) 0 + s.content.length % 8192) c
  refine h.replace hk (hsame.super (by omega)) (fun b _ hb => hsame.fat hf (by omega))
    (fun i hi hik j hj => hsame.entry (by unfold entryAddr; omega) hj)
    (fun i hi hik t ht => ?_) (hown.append_byte hf hk hroom c) ?_
    (fun i hi hik t ht => h.disjoint k hk i hi s t (Ne.symm hik) hs ht)
  · have hdisjoint := h.disjoint k hk i hi s t (Ne.symm hik) hs ht
    exact (h.stored i hi t ht).store hf hi hrange.1 (Nat.mod_lt _ (by omega))
      (fun hct => hdisjoint hmem hct) c
  · show s.blocks.length = blocksFor (s.content ++ [c]).length
    rw [List.length_append, List.length_singleton]
    unfold blocksFor at hexact ⊢
    omega

/-- A full file gets a free block, with one byte in it. -/
theorem Volume.append_block (h : Volume bytes f slot) (hk : k < 64) (hs : slot k = some s)
    (hfull : s.content.length = 8192 * s.blocks.length) (hfree : fat bytes f b = 0)
    (hb : b < f.numOfBlk) {l : List Nat} {a : Nat} (hl : s.blocks = l ++ [a]) (c : Byte) :
    Volume (Function.update (writeWord (writeWord bytes (1024 + 4 * b) endMark) (1024 + 4 * a) b)
        (1024 + 8192 * b) c) f
      (Function.update slot k
        (some { s with blocks := s.blocks ++ [b], content := s.content ++ [c] })) := by
  have hf := h.layout
  have htable := hf.table
  have hown := h.stored k hk s hs
  have hexact := h.exact k hk s hs
  have hrange := h.free_range hb hfree
  have hnew : b ∉ s.blocks := hown.not_free hfree
  have hmema : a ∈ s.blocks := by simp [hl]
  have hrangea := hown.range a hmema
  have hother : ∀ i < 64, i ≠ k → ∀ t, slot i = some t → a ∉ t.blocks ∧ b ∉ t.blocks :=
    fun i hi hik t ht => ⟨fun hat => h.disjoint k hk i hi s t (Ne.symm hik) hs ht hmema hat,
      (h.stored i hi t ht).not_free hfree⟩
  -- the chain grows first, then the byte goes into the new block
  have hlast : (s.blocks ++ [b]).getD (s.content.length / 8192) 0 = b := by
    rw [hfull, Nat.mul_div_cancel_left _ (by omega), List.getD_append_right _ _ _ _ (le_refl _),
      Nat.sub_self]
    rfl
  have hgrown := (hown.grow hf hk hl hrange hnew).append_byte hf hk
    (show s.content.length / 8192 < (s.blocks ++ [b]).length by
      rw [List.length_append, List.length_singleton]
      omega) c
  have hmod : s.content.length % 8192 = 0 := by omega
  simp only [hlast, hmod, Nat.add_zero] at hgrown
  have hmarkb := same_outside_word bytes (1024 + 4 * b) endMark
  have hmarka := same_outside_word (writeWord bytes (1024 + 4 * b) endMark)
    (1024 + 4 * a) b
  have hstore := same_outside_byte (writeWord (writeWord bytes (1024 + 4 * b) endMark)
    (1024 + 4 * a) b) (1024 + 8192 * b) c
  refine h.replace hk ?_ (fun d hroot hd => ?_) (fun i hi hik j hj => ?_)
    (fun i hi hik t ht => ?_) hgrown ?_ (fun i hi hik t ht d hd hdt => ?_)
  · rw [hstore.super (by omega), hmarka.super (by omega), hmarkb.super (by omega)]
  · rw [hstore.fat hf (by omega), hmarka.fat hf (by omega), hmarkb.fat hf (by omega)]
  · rw [hstore.entry (by unfold entryAddr; omega) hj, hmarka.entry (by unfold entryAddr; omega) hj,
      hmarkb.entry (by unfold entryAddr; omega) hj]
  · obtain ⟨ha, hbt⟩ := hother i hi hik t ht
    exact (((h.stored i hi t ht).mark hf hb hbt endMark).mark hf hrangea.2 ha b).store hf hi
      hrange.1 (show 0 < 8192 by omega) hbt c
  · show (s.blocks ++ [b]).length = blocksFor (s.content ++ [c]).length
    rw [List.length_append, List.length_append, List.length_singleton, List.length_singleton]
    exact (blocks_for_full hfull).symm
  · obtain hd | hd := List.mem_append.mp hd
    · exact h.disjoint k hk i hi s t (Ne.symm hik) hs ht hd hdt
    · rw [List.mem_singleton.mp hd] at hdt
      exact (hother i hi hik t ht).2 hdt

/-! ### Free blocks -/

/-- The number of free blocks. -/
def freeCount (bytes : Bytes) (f : SuperBlock) : Nat :=
  ((Finset.range f.numOfBlk).filter fun b => fat bytes f b = 0).card

theorem not_free (h : freeCount bytes f = 0) (hb : b < f.numOfBlk) : fat bytes f b ≠ 0 := by
  rw [freeCount, Finset.card_eq_zero, Finset.filter_eq_empty_iff] at h
  exact h (Finset.mem_range.mpr hb)

/-- As long as a block is free there is a first one. -/
theorem exists_first_free (h : 0 < freeCount bytes f) : ∃ b, FirstFree bytes f b := by
  obtain ⟨b, hb⟩ := Finset.card_pos.mp h
  rw [Finset.mem_filter, Finset.mem_range] at hb
  have hexists : ∃ c, fat bytes f c = 0 := ⟨b, hb.2⟩
  refine ⟨Nat.find hexists, ?_, Nat.find_spec hexists, fun c hc => Nat.find_min hexists hc⟩
  exact lt_of_le_of_lt (Nat.find_min' hexists hb.2) hb.1

/-- Taking one free block. -/
theorem free_count_take (hb : b < f.numOfBlk) (hfree : fat bytes f b = 0)
    (htaken : fat bytes' f b ≠ 0)
    (hsame : ∀ c < f.numOfBlk, c ≠ b → (fat bytes' f c = 0 ↔ fat bytes f c = 0)) :
    freeCount bytes' f + 1 = freeCount bytes f := by
  have hmem : b ∈ (Finset.range f.numOfBlk).filter fun b => fat bytes f b = 0 := by
    rw [Finset.mem_filter, Finset.mem_range]
    exact ⟨hb, hfree⟩
  have herase : ((Finset.range f.numOfBlk).filter fun b => fat bytes' f b = 0) =
      ((Finset.range f.numOfBlk).filter fun b => fat bytes f b = 0).erase b := by
    ext c
    rw [Finset.mem_erase, Finset.mem_filter, Finset.mem_filter, Finset.mem_range]
    constructor
    · intro h
      have hne : c ≠ b := fun heq => htaken (heq ▸ h.2)
      exact ⟨hne, h.1, (hsame c h.1 hne).mp h.2⟩
    · intro h
      exact ⟨h.2.1, (hsame c h.2.1 h.1).mpr h.2.2⟩
  rw [freeCount, herase, Finset.card_erase_add_one hmem]
  rfl

/-- A write that leaves the allocation table alone. -/
theorem free_count_same (hsame : ∀ c < f.numOfBlk, fat bytes' f c = fat bytes f c) :
    freeCount bytes' f = freeCount bytes f := by
  refine congrArg Finset.card (Finset.filter_congr fun c hc => ?_)
  rw [hsame c (Finset.mem_range.mp hc)]

theorem free_count_le (bytes : Bytes) (f : SuperBlock) : freeCount bytes f ≤ f.numOfBlk := by
  have hle := Finset.card_filter_le (Finset.range f.numOfBlk) fun b => fat bytes f b = 0
  rwa [Finset.card_range] at hle

/-- One free block less when it is linked behind `a` and has got its first byte. -/
theorem linked_free_count {a : Nat} (hf : Layout f) (hb : b < f.numOfBlk) (hroot : f.rootBlk < b)
    (c : Byte) (hused : fat bytes f a ≠ 0) (hfree : fat bytes f b = 0) :
    freeCount (Function.update (writeWord (writeWord bytes (1024 + 4 * b) endMark)
      (1024 + 4 * a) b) (1024 + 8192 * b) c) f + 1 = freeCount bytes f := by
  have htable := hf.table
  have hab : b ≠ a := fun heq => hused (heq ▸ hfree)
  have hbyte := same_outside_byte (writeWord (writeWord bytes (1024 + 4 * b) endMark)
    (1024 + 4 * a) b) (1024 + 8192 * b) c
  refine free_count_take hb hfree ?_ fun d hd hdb => ?_
  · rw [hbyte.fat hf (by omega), linked_fat hf hb, if_neg hab, if_pos rfl]
    decide
  · rw [hbyte.fat hf (by omega), linked_fat hf hb]
    by_cases hda : d = a
    · -- the last block was not free and is linked to `b` now
      rw [if_pos hda, hda]
      exact iff_of_false (by omega) hused
    · rw [if_neg hda, if_neg hdb]

/-! ### The loop of `copy` -/

/-- The image is long enough for the allocation table and the root directory. -/
structure LongEnough (fd : HostFile) (f : SuperBlock) : Prop where
  table : 1024 + 4 * f.numOfBlk ≤ fd.len
  directory : entryAddr f 64 ≤ fd.len

/-- The loop of `copy` between two bytes: `s` is the part of the file that is in the image, and the
position is behind its last byte. -/
structure Copying (fd : HostFile) (f : SuperBlock) (slot : Nat → Option Stored) (k : Nat)
    (s : Stored) (curBlk : Nat) : Prop where
  volume : Volume fd.bytes f slot
  stored : slot k = some s
  last : ∃ l, s.blocks = l ++ [curBlk]
  pos : fd.pos + 8192 * s.blocks.length = 1024 + 8192 * curBlk + s.content.length + 8192
  long : LongEnough fd f

/-- A byte within the last block. -/
theorem Copying.fputc {curBlk : Nat} (h : Copying fd f slot k s curBlk) (hk : k < 64)
    (hroom : s.content.length < 8192 * s.blocks.length) (c : Byte) :
    Copying (fd.fputc c) f (Function.update slot k (some { s with content := s.content ++ [c] })) k
        { s with content := s.content ++ [c] } curBlk ∧
      freeCount (fd.fputc c).bytes f = freeCount fd.bytes f := by
  obtain ⟨l, hl⟩ := h.last
  obtain ⟨hbytes, hposc, hlen⟩ := fputc_spec fd c
  have hf := h.volume.layout
  have htable := hf.table
  have hexact := h.volume.exact k hk s h.stored
  have hlength : s.blocks.length = l.length + 1 := by simp [hl]
  have hindex : s.content.length / 8192 = l.length := by
    unfold blocksFor at hexact
    omega
  have hlast : s.blocks.getD (s.content.length / 8192) 0 = curBlk := by
    rw [hindex, hl, List.getD_append_right _ _ _ _ (le_refl _), Nat.sub_self]
    rfl
  have hrange := (h.volume.stored k hk s h.stored).range curBlk (by simp [hl])
  have hpos : fd.pos = 1024 + 8192 * curBlk + s.content.length % 8192 := by
    have hfdpos := h.pos
    omega
  have hvolume := h.volume.append hk h.stored (by omega) c
  rw [hlast, ← hpos, ← hbytes] at hvolume
  refine ⟨⟨hvolume, Function.update_self _ _ _, ⟨l, hl⟩, ?_, ?_⟩, free_count_same fun b hb => ?_⟩
  · show (fd.fputc c).pos + 8192 * s.blocks.length =
      1024 + 8192 * curBlk + (s.content ++ [c]).length + 8192
    rw [hposc, List.length_append, List.length_singleton]
    have hfdpos := h.pos
    omega
  · exact ⟨h.long.table.trans hlen, h.long.directory.trans hlen⟩
  · rw [hbytes]
    exact (same_outside_byte _ fd.pos c).fat hf (by omega)

/-- A file has at most all the blocks of the image. -/
theorem StoredAt.blocks_le (h : StoredAt bytes f i s) : s.blocks.length ≤ f.numOfBlk := by
  obtain ⟨blk, _, hchain⟩ := h.record
  exact hchain.length_le fun b hb => (h.range b hb).2

/-- A byte behind a full block: `search_blk_null` takes a free block, and `write_blk` links the last
block to it. -/
theorem Copying.new_block {curBlk : Nat} (h : Copying fd f slot k s curBlk) (hk : k < 64)
    (hfull : s.content.length = 8192 * s.blocks.length) (hcount : 0 < freeCount fd.bytes f)
    (c : Byte) :
    ∃ b fd₁, searchBlkNull fd f = (b, fd₁) ∧
      let fd₂ := ((writeBlk b curBlk fd₁ f).fseek (dataOffset f b)).fputc c
      let s₂ := { s with blocks := s.blocks ++ [b], content := s.content ++ [c] }
      Copying fd₂ f (Function.update slot k (some s₂)) k s₂ b ∧
        freeCount fd₂.bytes f + 1 = freeCount fd.bytes f := by
  have hf := h.volume.layout
  have htable := hf.table
  have hsmall := hf.small
  obtain ⟨b, hb⟩ := exists_first_free hcount
  obtain ⟨l, hl⟩ := h.last
  have hown := h.volume.stored k hk s h.stored
  have hrangea := hown.range curBlk (by simp [hl])
  have hrange := h.volume.free_range hb.range hb.free
  refine ⟨b, _, search_blk_null_spec hf hb h.long.table, ?_⟩
  have hwrite := write_blk_spec ⟨writeWord fd.bytes (1024 + 4 * b) endMark, fd.len, 0⟩ hf
    hrangea.2 b h.long.table
  rw [hwrite, hf.data_offset hb.range.le]
  obtain ⟨hbytes, hpos, hlen⟩ := fputc_spec (HostFile.fseek
    ⟨writeWord (writeWord fd.bytes (1024 + 4 * b) endMark) (1024 + 4 * curBlk) b, fd.len, 0⟩
    (1024 + 8192 * b)) c
  have hvolume := h.volume.append_block hk h.stored hfull hb.free hb.range hl c
  refine ⟨⟨hbytes ▸ hvolume, Function.update_self _ _ _, ⟨s.blocks, rfl⟩, ?_,
    ⟨h.long.table.trans hlen, h.long.directory.trans hlen⟩⟩, ?_⟩
  · show _ + 8192 * (s.blocks ++ [b]).length = 1024 + 8192 * b + (s.content ++ [c]).length + 8192
    rw [hpos]
    show 1024 + 8192 * b + 1 + 8192 * (s.blocks ++ [b]).length = _
    simp only [List.length_append, List.length_singleton]
    omega
  · rw [hbytes]
    exact linked_free_count hf hb.range hrange.1 c
      (fun hzero => hown.not_free hzero (by simp [hl])) hb.free

/-- The loop of `copy` appends all bytes of the host file. The induction is on the bytes that are
left; every block boundary takes one of the free blocks. -/
theorem copy_loop_spec (hk : k < 64) (content : List Byte) : ∀ (fd : HostFile)
    (slot : Nat → Option Stored) (s : Stored) (curBlk : Nat), Copying fd f slot k s curBlk →
    blocksFor (s.content.length + content.length) ≤ s.blocks.length + freeCount fd.bytes f →
    ∃ blocks curBlk', Copying (copyLoop f content s.content.length s.blocks.length curBlk fd) f
      (Function.update slot k (some { s with blocks, content := s.content ++ content })) k
      { s with blocks, content := s.content ++ content } curBlk' := by
  induction content with
  | nil =>
      intro fd slot s curBlk h _
      refine ⟨s.blocks, curBlk, ?_⟩
      rw [List.append_nil, ← h.stored, Function.update_eq_self]
      exact h
  | cons c content ih =>
      intro fd slot s curBlk h hcount
      have hf := h.volume.layout
      have hsmall := hf.small
      have hown := h.volume.stored k hk s h.stored
      have hexact := h.volume.exact k hk s h.stored
      have hle := hown.blocks_le
      have hroom := hown.room
      have htest : f.sectorPerBlk * f.bytePerSector * s.blocks.length % 2 ^ 32 =
          8192 * s.blocks.length := by
        rw [hf.sectorPerBlk, hf.bytePerSector, Nat.mod_eq_of_lt (by omega)]
      rw [copyLoop, htest]
      rw [List.length_cons] at hcount
      by_cases hfull : s.content.length = 8192 * s.blocks.length
      · have hfree : 0 < freeCount fd.bytes f := by
          unfold blocksFor at hcount
          omega
        obtain ⟨b, fd₁, hsearch, hnext, hless⟩ := h.new_block hk hfull hfree c
        rw [if_pos hfull, hsearch]
        have hrun := ih _ _ _ _ hnext (by
          simp only [List.length_append, List.length_singleton]
          rw [Nat.add_assoc, Nat.add_comm 1]
          omega)
        simpa only [List.length_append, List.length_singleton, Function.update_idem,
          List.append_assoc, List.singleton_append] using hrun
      · obtain ⟨hnext, hsame⟩ := h.fputc hk (by omega) c
        rw [if_neg hfull]
        have hrun := ih _ _ _ _ hnext (by
          simp only [List.length_append, List.length_singleton]
          rw [Nat.add_assoc, Nat.add_comm 1, hsame]
          exact hcount)
        simpa only [List.length_append, List.length_singleton, Function.update_idem,
          List.append_assoc, List.singleton_append] using hrun

/-! ### `create_file` -/

/-- The entry that `create_file` fills in. -/
def newEntry (path : List Byte) (blk index : Nat) (attr : Byte) : Bytes :=
  let dir := padNulls (strcpy (fun _ => 0#8) 0 (getFileName path)) 0
  let dir := writeWord (writeWord (writeWord dir 111 0) 107 blk) 115 index
  Function.update (Function.update dir 97 0xff#8) 98 attr

section Entry

variable {path : List Byte} {blk index : Nat} (attr : Byte)

/-- The words behind the attribute do not depend on the name. -/
theorem new_entry_word {a : Nat} (ha : 99 ≤ a) :
    readWord (newEntry path blk index attr) a = readWord (writeWord (writeWord (writeWord
      (padNulls (strcpy (fun _ => 0#8) 0 (getFileName path)) 0) 111 0) 107 blk) 115 index) a := by
  rw [newEntry, read_update_word (by omega), read_update_word (by omega)]

theorem new_entry_first_blk (hblk : blk < 2 ^ 32) :
    Cfs.firstBlk (newEntry path blk index attr) 0 = blk := by
  show readWord _ 107 = blk
  rw [new_entry_word attr (by omega), read_write_word_other (by omega), read_write_word_same hblk]

theorem new_entry_dir_entry (hindex : index < 2 ^ 32) :
    Cfs.dirEntry (newEntry path blk index attr) 0 = index := by
  show readWord _ 115 = index
  rw [new_entry_word attr (by omega), read_write_word_same hindex]

/-- It is the record of an empty file. -/
theorem new_entry_record (hname : ValidName (getFileName path)) (hblk : blk < 2 ^ 32)
    (hindex : index < 2 ^ 32) :
    IsRecord (newEntry path blk index attr) (getFileName path) blk 0 index := by
  refine ⟨fun k hk => ?_, ?_, new_entry_first_blk attr hblk, ?_, new_entry_dir_entry attr hindex⟩
  · rw [newEntry, Function.update_of_ne (by omega), Function.update_of_ne (by omega),
      write_word_outside (by omega), write_word_outside (by omega), write_word_outside (by omega)]
    exact pad_nulls_strcpy hname.noNull hk
  · show newEntry path blk index attr 97 ≠ 0#8
    rw [newEntry, Function.update_of_ne (by omega), Function.update_self]
    decide
  · show readWord _ 111 = 0
    rw [new_entry_word attr (by omega), read_write_word_other (by omega),
      read_write_word_other (by omega), read_write_word_same (by decide)]

/-- The size of an entry is apart from its first block and its number. -/
theorem sized_first_blk (dir : Bytes) (size : Nat) :
    Cfs.firstBlk (writeWord dir 111 size) 0 = Cfs.firstBlk dir 0 :=
  read_write_word_other (by omega)

theorem sized_dir_entry (dir : Bytes) (size : Nat) :
    Cfs.dirEntry (writeWord dir 111 size) 0 = Cfs.dirEntry dir 0 :=
  read_write_word_other (by omega)

end Entry

/-- An entry of a volume is busy if it holds a file. -/
theorem Volume.busy_iff (h : Volume bytes f slot) (hi : i < 64) :
    busy bytes (entryAddr f i) = 0#8 ↔ slot i = none := by
  constructor
  · intro hfree
    cases hslot : slot i with
    | none => rfl
    | some s =>
        obtain ⟨blk, hrecord, _⟩ := (h.stored i hi s hslot).record
        exact absurd hfree hrecord.busy
  · intro hnone
    exact h.empty i hi hnone 97 (by omega)

/-- An unused entry gives a first one. -/
theorem Volume.first_entry (h : Volume bytes f slot) (hslot : ∃ i < 64, slot i = none) :
    ∃ k, FirstEntry bytes f k ∧ slot k = none := by
  obtain ⟨i, hi, hnone⟩ := hslot
  have hexists : ∃ k, k < 64 ∧ slot k = none := ⟨i, hi, hnone⟩
  obtain ⟨hk, hfree⟩ := Nat.find_spec hexists
  refine ⟨Nat.find hexists, ⟨hk, (h.busy_iff hk).mpr hfree, fun j hj hzero => ?_⟩, hfree⟩
  have hj64 : j < 64 := hj.trans hk
  exact Nat.find_min hexists hj ⟨hj64, (h.busy_iff hj64).mp hzero⟩

/-- The image with a new entry `k` for a file that has the block `b`. -/
def created (fd : HostFile) (f : SuperBlock) (path : List Byte) (b k : Nat) (attr : Byte) :
    HostFile :=
  (HostFile.fwrite ⟨writeWord fd.bytes (1024 + 4 * b) endMark, fd.len, entryAddr f k⟩
    (newEntry path b k attr) 128).rewind

/-- Marking a block in the allocation table leaves the directory alone. -/
theorem mark_busy (hf : Layout f) (bytes : Bytes) (hb : b < f.numOfBlk) (i : Nat) :
    busy (writeWord bytes (1024 + 4 * b) endMark) (entryAddr f i) = busy bytes (entryAddr f i) := by
  have htable := hf.table
  refine same_outside_word bytes (1024 + 4 * b) endMark _ ?_
  unfold entryAddr
  omega

section Create

variable {path : List Byte} {source : Option (List Byte)} {attr : Byte}

/-- `create_file` with a free block and an unused entry. -/
theorem create_file_eq (hf : Layout f) (hlong : LongEnough fd f)
    (hsource : ¬ (attr = 0x20#8 ∧ source = none)) (hb : FirstFree fd.bytes f b)
    (hk : FirstEntry fd.bytes f k) :
    createFile path source fd f attr = (0, created fd f path b k attr, newEntry path b k attr) := by
  have hsmall := hf.small
  have hrange := hb.range
  have hmark := mark_busy hf fd.bytes hb.range
  have hfirst : FirstEntry (writeWord fd.bytes (1024 + 4 * b) endMark) f k :=
    ⟨hk.range, (hmark k).trans hk.free, fun i hi => by rw [hmark]; exact hk.first i hi⟩
  obtain ⟨pos, hloop⟩ := entry_loop_spec hf hfirst hlong.directory 64 0 0 (fun _ => 0#8) rfl
    (Nat.zero_le k)
  have hmarked : b ≠ endMark := by
    unfold endMark
    omega
  rw [createFile, if_neg hsource, search_blk_null_spec hf hb hlong.table]
  simp only [if_neg hmarked, hloop, if_neg (Nat.not_le.mpr hk.range), hf.entry_offset hk.range]
  rfl

/-- `search_blk_null` returns -1 when no block is free. -/
theorem search_blk_null_full (hf : Layout f) (hlen : 1024 + 4 * f.numOfBlk ≤ fd.len)
    (hfull : freeCount fd.bytes f = 0) : searchBlkNull fd f = (endMark, ⟨fd.bytes, fd.len, 0⟩) := by
  obtain ⟨b, hb, -⟩ | hnone := search_blk_null_cases hf hlen
  · exact absurd hb.free (not_free hfull hb.range)
  · exact hnone

/-- The three results of `create_file` for a file of the host: a new entry, no unused entry, where the
block stays marked, or no free block. -/
theorem create_file_cases (hf : Layout f) (hlong : LongEnough fd f)
    (hsource : ¬ (attr = 0x20#8 ∧ source = none)) (path : List Byte) :
    (∃ b k, FirstFree fd.bytes f b ∧ FirstEntry fd.bytes f k ∧ createFile path source fd f attr =
      (0, created fd f path b k attr, newEntry path b k attr)) ∨
    (∃ b pos, FirstFree fd.bytes f b ∧ (∀ i < 64, busy fd.bytes (entryAddr f i) ≠ 0#8) ∧
      (createFile path source fd f attr).1 = -1 ∧ (createFile path source fd f attr).2.1 =
        ⟨writeWord fd.bytes (1024 + 4 * b) endMark, fd.len, pos⟩) ∨
    (freeCount fd.bytes f = 0 ∧ (createFile path source fd f attr).1 = 1 ∧
      (createFile path source fd f attr).2.1 = ⟨fd.bytes, fd.len, 0⟩) := by
  obtain hfull | hcount := Nat.eq_zero_or_pos (freeCount fd.bytes f)
  · refine .inr (.inr ⟨hfull, ?_⟩)
    rw [createFile, if_neg hsource, search_blk_null_full hf hlong.table hfull]
    simp only [if_true, and_self]
  obtain ⟨b, hb⟩ := exists_first_free hcount
  by_cases hentry : ∃ k, k < 64 ∧ busy fd.bytes (entryAddr f k) = 0#8
  · have hk : FirstEntry fd.bytes f (Nat.find hentry) :=
      ⟨(Nat.find_spec hentry).1, (Nat.find_spec hentry).2, fun i hi hzero =>
        Nat.find_min hentry hi ⟨hi.trans (Nat.find_spec hentry).1, hzero⟩⟩
    exact .inl ⟨b, _, hb, hk, create_file_eq hf hlong hsource hb hk⟩
  · have hbusy : ∀ i < 64, busy fd.bytes (entryAddr f i) ≠ 0#8 :=
      fun i hi hzero => hentry ⟨i, hi, hzero⟩
    have hsmall := hf.small
    have hrange := hb.range
    have hmarked : b ≠ endMark := by
      unfold endMark
      omega
    have hmark := mark_busy hf fd.bytes hb.range
    obtain ⟨pos, hloop⟩ := entry_loop_full hf (fun i hi => (hmark i).trans_ne (hbusy i hi))
      hlong.directory 64 0 0 (fun _ => 0#8) rfl
    refine .inr (.inl ⟨b, pos, hb, hbusy, ?_⟩)
    rw [createFile, if_neg hsource, search_blk_null_spec hf hb hlong.table]
    simp only [if_neg hmarked, hloop, le_refl, if_true, and_self]

/-- The allocation table with the block of the new file. -/
theorem created_fat (hf : Layout f) {c : Nat} (hc : c < f.numOfBlk) :
    fat (created fd f path b k attr).bytes f c = if c = b then endMark else fat fd.bytes f c := by
  have htable := hf.table
  have hentry : fat (created fd f path b k attr).bytes f c =
      fat (writeWord fd.bytes (1024 + 4 * b) endMark) f c :=
    (same_outside_copy _ (entryAddr f k) 128 _).fat hf (by unfold entryAddr; omega)
  rw [hentry]
  by_cases hcb : c = b
  · rw [if_pos hcb, hcb, hf.fat_eq, read_write_word_same (by decide)]
  · rw [if_neg hcb, (same_outside_word fd.bytes (1024 + 4 * b) endMark).fat hf (by omega)]

theorem created_free_count (hf : Layout f) (hb : FirstFree fd.bytes f b) :
    freeCount (created fd f path b k attr).bytes f + 1 = freeCount fd.bytes f := by
  refine free_count_take hb.range hb.free ?_ fun c hc hcb => ?_
  · rw [created_fat hf hb.range, if_pos rfl]
    decide
  · rw [created_fat hf hc, if_neg hcb]

end Create

/-- `create_file` on a volume with a free block and an unused entry. -/
theorem create_file_spec (h : Volume fd.bytes f slot) (hlong : LongEnough fd f)
    {path : List Byte} (hname : ValidName (getFileName path)) (source : Option (List Byte))
    (attr : Byte) (hsource : ¬ (attr = 0x20#8 ∧ source = none)) (hcount : 0 < freeCount fd.bytes f)
    (hslot : ∃ i < 64, slot i = none) :
    ∃ k b fd', createFile path source fd f attr = (0, fd', newEntry path b k attr) ∧ k < 64 ∧
      slot k = none ∧ b < f.numOfBlk ∧
      Volume fd'.bytes f (Function.update slot k (some ⟨getFileName path, 0, [b], []⟩)) ∧
      LongEnough fd' f ∧ freeCount fd'.bytes f + 1 = freeCount fd.bytes f := by
  have hf := h.layout
  have hsmall := hf.small
  obtain ⟨b, hb⟩ := exists_first_free hcount
  obtain ⟨k, hk, hnone⟩ := h.first_entry hslot
  have hrange := hb.range
  have hk64 := hk.range
  have hrecord := new_entry_record attr hname (show b < 2 ^ 32 by omega) (show k < 2 ^ 32 by omega)
  exact ⟨k, b, created fd f path b k attr, create_file_eq hf hlong hsource hb hk, hk.range, hnone,
    hb.range, h.create hk.range hb.free hb.range hname hrecord,
    ⟨hlong.table.trans (Nat.le_max_left _ _), hlong.directory.trans (Nat.le_max_left _ _)⟩,
    created_free_count hf hb⟩

end Sirius.Cfs.Host
