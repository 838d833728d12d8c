import Sirius.Cfs.ImageHistory

/-!
# Copying to a full disk

`copy` takes a new block whenever one is full, and it does not look at the result -1 of
`search_blk_null`. The number -1 goes into the offsets of `write_blk` and of the data. The bytes that
have no block are written to one place behind all blocks, again and again, and from the second such
block on -1 is written in front of the allocation table.
-/

namespace Sirius.Cfs.Host

open Library

/-- An image that the tool works on: the file is as long as the blocks that its super block counts,
and the blocks of the allocation table and of the root directory are taken. -/
structure Image (fd : HostFile) (f : SuperBlock) : Prop where
  layout : Layout f
  super : superBlockAt fd.bytes 512 = f
  reserved : ∀ b ≤ f.rootBlk, b < f.numOfBlk → fat fd.bytes f b ≠ 0
  long : LongEnough fd f
  blocks : 1024 + 8192 * f.numOfBlk ≤ fd.len

/-- Byte `x` belongs to a free block: to its entry in the allocation table, or to its data. -/
def InFree (bytes : Bytes) (f : SuperBlock) (x : Nat) : Prop :=
  ∃ b < f.numOfBlk, fat bytes f b = 0 ∧
    ((1024 + 4 * b ≤ x ∧ x < 1024 + 4 * b + 4) ∨
      (1024 + 8192 * b ≤ x ∧ x < 1024 + 8192 * b + 8192))

/-- Byte `x` belongs to entry `e` of the root directory, which is not busy. -/
def InEntry (bytes : Bytes) (f : SuperBlock) (e x : Nat) : Prop :=
  e < 64 ∧ busy bytes (entryAddr f e) = 0#8 ∧ entryAddr f e ≤ x ∧ x < entryAddr f e + 128

/-- What belongs to other files is in the result as it was before, and the chain of the new file, if
there is one in entry `e`, goes through blocks that were free and ends. -/
structure FilesKept (fd : HostFile) (f : SuperBlock) (e : Nat) (result : Int × HostFile) : Prop where
  super : superBlockAt result.2.bytes 512 = f
  table : ∀ b < f.numOfBlk, fat fd.bytes f b ≠ 0 → fat result.2.bytes f b = fat fd.bytes f b
  data : ∀ b < f.numOfBlk, f.rootBlk < b → fat fd.bytes f b ≠ 0 → ∀ k < 8192,
    result.2.bytes (1024 + 8192 * b + k) = fd.bytes (1024 + 8192 * b + k)
  entries : ∀ i < 64, busy fd.bytes (entryAddr f i) ≠ 0#8 → ∀ k < 128,
    result.2.bytes (entryAddr f i + k) = fd.bytes (entryAddr f i + k)
  chain : result.1 = 0 → ∃ l, Chain result.2.bytes f (firstBlk result.2.bytes (entryAddr f e)) l ∧
    ∀ b ∈ l, b < f.numOfBlk ∧ fat fd.bytes f b = 0

/-- Besides, only free blocks, their entries in the allocation table and entry `e` have changed. -/
structure Contained (fd : HostFile) (f : SuperBlock) (e : Nat) (result : Int × HostFile) : Prop
    extends FilesKept fd f e result where
  only : ∀ x < result.2.len, (x < fd.len ∧ result.2.bytes x = fd.bytes x) ∨
    InFree fd.bytes f x ∨ InEntry fd.bytes f e x

/-- Where the bytes without a block go. -/
def spillAddr : Nat := 2 ^ 32 - 7168

variable {fd im : HostFile} {f : SuperBlock} {e x b i : Nat} {result : Int × HostFile}

/-! ### Places -/

/-- Free blocks lie behind the root directory. -/
theorem Image.free_behind (h : Image fd f) (hb : b < f.numOfBlk) (hfree : fat fd.bytes f b = 0) :
    f.rootBlk < b :=
  not_le.mp fun hle => h.reserved b hle hb hfree

theorem Layout.spill_offset (h : Layout f) : dataOffset f endMark = spillAddr := by
  rw [dataOffset, h.rsv, h.sectorPerBlk, h.bytePerSector]
  rfl

/-- The blocks and the root directory end before the bytes without a block. -/
theorem Layout.blocks_below (h : Layout f) : 8192 * f.numOfBlk + 9216 ≤ spillAddr := by
  have hsmall := h.small
  unfold spillAddr
  omega

/-- Between the super block and the spilled bytes the image has changed in places of the new file
only, and perhaps in the word in front of the allocation table. -/
def Framed (fd : HostFile) (f : SuperBlock) (e : Nat) (im : HostFile) : Prop :=
  ∀ x, x < 1020 ∨ 1024 ≤ x → x < spillAddr →
    im.bytes x = fd.bytes x ∨ InFree fd.bytes f x ∨ InEntry fd.bytes f e x

section Places

variable (h : Image fd f)

include h

/-- The bytes of a free block and of an unused entry are behind the super block. -/
theorem Image.new_place (hx : InFree fd.bytes f x ∨ InEntry fd.bytes f e x) :
    1024 ≤ x ∧ x < spillAddr := by
  have hbelow := h.layout.blocks_below
  obtain ⟨b, hb, hfree, hplace⟩ | ⟨he, hfree, hplace⟩ := hx
  · omega
  · have hroot := h.layout.root
    unfold entryAddr at hplace
    omega

/-- The entry of a taken block in the allocation table. -/
theorem Image.table_kept (hframe : Framed fd f e im) (hb : b < f.numOfBlk)
    (hused : fat fd.bytes f b ≠ 0) : fat im.bytes f b = fat fd.bytes f b := by
  rw [h.layout.fat_eq, h.layout.fat_eq]
  refine read_word_congr fun k hk => ?_
  have htable := h.layout.table
  have hbelow := h.layout.blocks_below
  obtain hsame | ⟨c, hc, hfree, hplace⟩ | ⟨he, hfree, hplace⟩ :=
    hframe (1024 + 4 * b + k) (by omega) (by omega)
  · exact hsame
  · have hbehind := h.free_behind hc hfree
    have hcb : c = b := by omega
    exact absurd (hcb ▸ hfree) hused
  · unfold entryAddr at hplace
    omega

/-- The data of a taken block. -/
theorem Image.data_kept (hframe : Framed fd f e im) (hb : b < f.numOfBlk) (hroot : f.rootBlk < b)
    (hused : fat fd.bytes f b ≠ 0) {k : Nat} (hk : k < 8192) :
    im.bytes (1024 + 8192 * b + k) = fd.bytes (1024 + 8192 * b + k) := by
  have htable := h.layout.table
  have hbelow := h.layout.blocks_below
  obtain hsame | ⟨c, hc, hfree, hplace⟩ | ⟨he, hfree, hplace⟩ :=
    hframe (1024 + 8192 * b + k) (by omega) (by omega)
  · exact hsame
  · have hcb : c = b := by omega
    exact absurd (hcb ▸ hfree) hused
  · unfold entryAddr at hplace
    omega

/-- A busy entry of the root directory. -/
theorem Image.entry_kept (hframe : Framed fd f e im) (hi : i < 64)
    (hbusy : busy fd.bytes (entryAddr f i) ≠ 0#8) {k : Nat} (hk : k < 128) :
    im.bytes (entryAddr f i + k) = fd.bytes (entryAddr f i + k) := by
  have htable := h.layout.table
  have hbelow := h.layout.blocks_below
  have hroot := h.layout.root
  have hplaced : entryAddr f i = 1024 + 8192 * f.rootBlk + 128 * i := rfl
  obtain hsame | ⟨c, hc, hfree, hplace⟩ | ⟨he, hfree, hplace⟩ :=
    hframe (entryAddr f i + k) (by omega) (by omega)
  · exact hsame
  · have hbehind := h.free_behind hc hfree
    omega
  · have hie : e = i := by
      unfold entryAddr at hplace
      omega
    exact absurd (hie ▸ hfree) hbusy

/-- A framed image has all files. -/
theorem Image.files_kept (hframe : Framed fd f e result.2)
    (hchain : result.1 = 0 → ∃ l,
      Chain result.2.bytes f (firstBlk result.2.bytes (entryAddr f e)) l ∧
        ∀ b ∈ l, b < f.numOfBlk ∧ fat fd.bytes f b = 0) : FilesKept fd f e result := by
  refine ⟨?_, fun b => h.table_kept hframe,
    fun b hb hroot hused k => h.data_kept hframe hb hroot hused,
    fun i hi hbusy k => h.entry_kept hframe hi hbusy, hchain⟩
  rw [← h.super]
  refine super_block_fields fun k hk => ?_
  obtain hsame | hnew := hframe (512 + k) (by omega) (by unfold spillAddr; omega)
  · exact hsame
  · have hlow := (h.new_place hnew).1
    omega

end Places

/-! ### Blocks for the file -/

/-- A byte behind the position that was set. -/
theorem fputc_fseek (bytes : Bytes) (len pos a : Nat) (c : Byte) :
    (HostFile.fseek ⟨bytes, len, pos⟩ a).fputc c =
      ⟨Function.update bytes a c, max len (a + 1), a + 1⟩ := by
  have hbytes : copyBytes bytes a (fun _ => c) 0 1 = Function.update bytes a c :=
    (fputc_spec ⟨bytes, len, a⟩ c).1
  rw [← hbytes]
  rfl

/-- The loop of `copy` after `i` bytes, while there were free blocks: the file has the blocks `l`, of
which `cur` is the last one. -/
structure Filling (fd : HostFile) (f : SuperBlock) (e start i : Nat) (l : List Nat) (cur : Nat)
    (im : HostFile) : Prop where
  chain : Chain im.bytes f start l
  last : ∃ front, l = front ++ [cur]
  free : ∀ b ∈ l, b < f.numOfBlk ∧ fat fd.bytes f b = 0
  count : freeCount im.bytes f + l.length = freeCount fd.bytes f
  kept : ∀ x, im.bytes x = fd.bytes x ∨ InFree fd.bytes f x ∨ InEntry fd.bytes f e x
  entry : firstBlk im.bytes (entryAddr f e) = start
  len : im.len = fd.len
  pos : im.pos + 8192 * l.length = 1024 + 8192 * cur + i + 8192
  low : 8192 * l.length ≤ i + 8192
  high : i ≤ 8192 * l.length

/-- The first block in an entry that a write does not touch. -/
theorem SameOutside.first_blk {bytes bytes' : Bytes} {a n : Nat} (h : SameOutside bytes bytes' a n)
    (hout : entryAddr f e + 128 ≤ a ∨ a + n ≤ entryAddr f e) :
    firstBlk bytes' (entryAddr f e) = firstBlk bytes (entryAddr f e) :=
  read_word_congr fun k hk => h _ (by omega)

namespace Filling

variable {start cur : Nat} {l : List Nat}

theorem cur_mem (hfill : Filling fd f e start i l cur im) : cur ∈ l := by
  obtain ⟨front, rfl⟩ := hfill.last
  simp

/-- The last block has the end mark. -/
theorem last_fat (hfill : Filling fd f e start i l cur im) : fat im.bytes f cur = endMark := by
  obtain ⟨front, hfront⟩ := hfill.last
  have hchain := hfill.chain
  rw [hfront] at hchain
  exact (Linked.of_append hchain).2.2

/-- The blocks of the file are not free any more. -/
theorem used (h : Image fd f) (hfill : Filling fd f e start i l cur im) :
    ∀ b ∈ l, fat im.bytes f b ≠ 0 := by
  intro b hb hzero
  obtain hend | hmem := Linked.next_mem hfill.chain hb
  · rw [hzero] at hend
    exact absurd hend (by decide)
  · rw [hzero] at hmem
    have hbehind := h.free_behind (hfill.free 0 hmem).1 (hfill.free 0 hmem).2
    omega

/-- A block that is free now was free at the start. -/
theorem was_free (h : Image fd f) (hfill : Filling fd f e start i l cur im) (hb : b < f.numOfBlk)
    (hfree : fat im.bytes f b = 0) : fat fd.bytes f b = 0 := by
  by_contra hused
  have hsame := h.table_kept (fun x _ _ => hfill.kept x) hb hused
  exact hused (hsame.symm.trans hfree)

section Step

variable (h : Image fd f) (he : e < 64) (hfill : Filling fd f e start i l cur im)

include h he hfill

/-- A byte in the last block. -/
theorem fputc (hroom : i < 8192 * l.length) (c : Byte) :
    Filling fd f e start (i + 1) l cur (im.fputc c) := by
  have hf := h.layout
  have htable := hf.table
  obtain ⟨hcur, hfree⟩ := hfill.free cur hfill.cur_mem
  have hbehind := h.free_behind hcur hfree
  have hblocks := h.blocks
  have hlow := hfill.low
  have hpos := hfill.pos
  have hlen := hfill.len
  obtain ⟨hbytes, hnext, -⟩ := fputc_spec im c
  have hsame := same_outside_byte im.bytes im.pos c
  have hfat : ∀ b < f.numOfBlk, fat (im.fputc c).bytes f b = fat im.bytes f b := by
    intro b hb
    rw [hbytes]
    exact hsame.fat hf (by omega)
  refine ⟨hfill.chain.congr fun b hb => hfat b (hfill.free b hb).1, hfill.last, hfill.free, ?_,
    fun x => ?_, ?_, ?_, ?_, by omega, by omega⟩
  · rw [free_count_same hfat]
    exact hfill.count
  · rw [hbytes]
    by_cases hx : x = im.pos
    · exact .inr (.inl ⟨cur, hcur, hfree, .inr (by omega)⟩)
    · rw [Function.update_of_ne hx]
      exact hfill.kept x
  · rw [hbytes, hsame.first_blk (by unfold entryAddr; omega)]
    exact hfill.entry
  · show max im.len (im.pos + 1) = fd.len
    omega
  · rw [hnext]
    omega

/-- A byte behind the last block, when there is a free block `b`. -/
theorem new_block (hfull : i = 8192 * l.length) (hb : FirstFree im.bytes f b) (c : Byte) :
    Filling fd f e start (i + 1) (l ++ [b]) b
      (((writeBlk b cur ⟨writeWord im.bytes (1024 + 4 * b) endMark, im.len, 0⟩ f).fseek
        (dataOffset f b)).fputc c) := by
  have hf := h.layout
  have htable := hf.table
  have hsmall := hf.small
  have hblocks := h.blocks
  have hrange := hb.range
  have hlen := hfill.len
  obtain ⟨hcur, hcurfree⟩ := hfill.free cur hfill.cur_mem
  have hbl : b ∉ l := fun hmem => hfill.used h b hmem hb.free
  have hfree := hfill.was_free h hrange hb.free
  have hbehind := h.free_behind hrange hfree
  have hcurbehind := h.free_behind hcur hcurfree
  have hmark := same_outside_word im.bytes (1024 + 4 * b) endMark
  have hlink := same_outside_word (writeWord im.bytes (1024 + 4 * b) endMark) (1024 + 4 * cur) b
  have hbyte := same_outside_byte (writeWord (writeWord im.bytes (1024 + 4 * b) endMark)
    (1024 + 4 * cur) b) (1024 + 8192 * b) c
  have hwrite := write_blk_spec ⟨writeWord im.bytes (1024 + 4 * b) endMark, im.len, 0⟩ hf hcur b
    (show 1024 + 4 * f.numOfBlk ≤ im.len by omega)
  rw [hwrite, hf.data_offset hrange.le, fputc_fseek]
  dsimp only
  have hlength : (l ++ [b]).length = l.length + 1 := by simp
  refine ⟨?_, ⟨l, rfl⟩, fun d hd => ?_, ?_, fun x => ?_, ?_, ?_, ?_, ?_, ?_⟩
  · -- the last block is linked to the new one
    obtain ⟨front, rfl⟩ := hfill.last
    refine (linked_chain hf hrange hfill.chain hbl).congr fun d hd => hbyte.fat hf (.inl ?_)
    obtain hd | hd := List.mem_append.mp hd
    · have hdrange := (hfill.free d hd).1
      omega
    · rw [List.mem_singleton.mp hd]
      omega
  · obtain hd | hd := List.mem_append.mp hd
    · exact hfill.free d hd
    · rw [List.mem_singleton.mp hd]
      exact ⟨hrange, hfree⟩
  · have hcount := hfill.count
    have htake := linked_free_count hf hrange hbehind c
      (hfill.used h cur hfill.cur_mem) hb.free
    rw [hlength]
    show freeCount (Function.update _ _ _) f + _ = _
    omega
  · show Function.update _ _ _ x = _ ∨ _
    by_cases hx : x = 1024 + 8192 * b
    · exact .inr (.inl ⟨b, hrange, hfree, .inr (by omega)⟩)
    rw [Function.update_of_ne hx]
    by_cases hxc : 1024 + 4 * cur ≤ x ∧ x < 1024 + 4 * cur + 4
    · exact .inr (.inl ⟨cur, hcur, hcurfree, .inl hxc⟩)
    rw [hlink x (by omega)]
    by_cases hxb : 1024 + 4 * b ≤ x ∧ x < 1024 + 4 * b + 4
    · exact .inr (.inl ⟨b, hrange, hfree, .inl hxb⟩)
    rw [hmark x (by omega)]
    exact hfill.kept x
  · have hplaced : entryAddr f e = 1024 + 8192 * f.rootBlk + 128 * e := rfl
    show firstBlk (Function.update _ _ _) _ = start
    rw [hbyte.first_blk (by omega), hlink.first_blk (by omega), hmark.first_blk (by omega)]
    exact hfill.entry
  · show max im.len (1024 + 8192 * b + 1) = fd.len
    omega
  · rw [hlength]
    show 1024 + 8192 * b + 1 + 8192 * (l.length + 1) = _
    omega
  · rw [hlength]
    omega
  · rw [hlength]
    omega

end Step

end Filling

/-! ### Bytes without a block -/

/-- The loop of `copy` after `i` bytes, when there were blocks for the first `8192 * k` bytes of
`content` only. The last one of the other bytes for each place is there. -/
structure Spilling (fd : HostFile) (f : SuperBlock) (e start : Nat) (content : List Byte) (k i : Nat)
    (im : HostFile) : Prop where
  chain : ∃ l, Chain im.bytes f start l ∧ ∀ b ∈ l, b < f.numOfBlk ∧ fat fd.bytes f b = 0
  full : freeCount im.bytes f = 0
  kept : ∀ x, x < 1020 ∨ 1024 ≤ x →
    x < spillAddr ∨ spillAddr + (i - 8192 * k) ≤ x ∨ spillAddr + 8192 ≤ x →
    im.bytes x = fd.bytes x ∨ InFree fd.bytes f x ∨ InEntry fd.bytes f e x
  front : ∀ x, 1020 ≤ x → x < 1024 →
    im.bytes x = if 8192 * (k + 1) < i then 0xff#8 else fd.bytes x
  tail : ∀ m, 8192 * k ≤ m → m < i → i ≤ m + 8192 →
    content[m]? = some (im.bytes (spillAddr + m % 8192))
  entry : firstBlk im.bytes (entryAddr f e) = start
  len : im.len = max fd.len (spillAddr + min 8192 (i - 8192 * k))
  pos : i % 8192 ≠ 0 → im.pos = spillAddr + i % 8192
  behind : 8192 * k < i

/-- One more byte at its place behind the blocks. With the first byte of a block the word in front of
the allocation table is written as well. -/
structure PutSpilled (im im' : HostFile) (i : Nat) (c : Byte) : Prop where
  bytes : ∀ x, im'.bytes x = if x = spillAddr + i % 8192 then c
    else if i % 8192 = 0 ∧ 1020 ≤ x ∧ x < 1024 then 0xff#8 else im.bytes x
  len : im'.len = max im.len (spillAddr + i % 8192 + 1)
  pos : im'.pos = spillAddr + i % 8192 + 1

namespace Spilling

variable {start k : Nat} {content : List Byte} {c : Byte} {im' : HostFile}

/-- The part of the image that holds the blocks. -/
theorem framed (hspill : Spilling fd f e start content k i im) : Framed fd f e im :=
  fun x hx hlow => hspill.kept x hx (.inl hlow)

theorem put (h : Image fd f) (he : e < 64) (hspill : Spilling fd f e start content k i im)
    (hput : PutSpilled im im' i c) (hc : content[i]? = some c) :
    Spilling fd f e start content k (i + 1) im' := by
  have hf := h.layout
  have htable := hf.table
  have hbelow := hf.blocks_below
  have hroot := h.layout.root
  have hbehind := hspill.behind
  have hsame : ∀ x, 1024 ≤ x → x < spillAddr → im'.bytes x = im.bytes x := by
    intro x hx hlow
    rw [hput.bytes, if_neg (by omega), if_neg (by omega)]
  have hfat : ∀ b < f.numOfBlk, fat im'.bytes f b = fat im.bytes f b := by
    intro b hb
    rw [hf.fat_eq, hf.fat_eq]
    exact read_word_congr fun j hj => hsame _ (by omega) (by omega)
  obtain ⟨l, hchain, hl⟩ := hspill.chain
  refine ⟨⟨l, hchain.congr fun b hb => hfat b (hl b hb).1, hl⟩, ?_, fun x hx hplace => ?_,
    fun x hx hlow => ?_, fun m hm hlt hlast => ?_, ?_, ?_, fun hmod => ?_, by omega⟩
  · rw [free_count_same hfat]
    exact hspill.full
  · rw [hput.bytes, if_neg (by omega), if_neg (by omega)]
    exact hspill.kept x hx (by omega)
  · rw [hput.bytes, if_neg (by unfold spillAddr; omega)]
    by_cases hfirst : i % 8192 = 0
    · rw [if_pos ⟨hfirst, hx, hlow⟩, if_pos (by omega)]
    · rw [if_neg (by omega), hspill.front x hx hlow]
      exact if_congr (by omega) rfl rfl
  · rw [hput.bytes]
    by_cases hmi : m = i
    · rw [hmi, if_pos rfl, hc]
    · rw [if_neg (by omega), if_neg (by unfold spillAddr; omega)]
      exact hspill.tail m hm (by omega) (by omega)
  · rw [← hspill.entry]
    refine read_word_congr fun j hj => hsame _ ?_ ?_
    · unfold entryAddr
      omega
    · unfold entryAddr
      omega
  · rw [hput.len, hspill.len]
    omega
  · rw [hput.pos]
    omega

end Spilling

/-- `write_blk` with the number -1 writes in front of the allocation table. -/
theorem write_blk_end (hf : Layout f) (fd : HostFile) (v : Nat) (hlen : 1024 ≤ fd.len) :
    writeBlk v endMark fd f = ⟨writeWord fd.bytes 1020 v, fd.len, 0⟩ := by
  have hoff : (f.rsv * f.bytePerSector + 4 * endMark) % 2 ^ 32 = 1020 := by
    rw [hf.rsv, hf.bytePerSector]
    rfl
  rw [writeBlk]
  simp only [hoff]
  rw [HostFile.fseek, fwrite_word _ (show 1020 + 4 ≤ fd.len by omega)]
  rfl

/-- The four bytes of -1. -/
theorem write_end_mark (m : Bytes) {a x : Nat} (hx : a ≤ x ∧ x < a + 4) :
    writeWord m a endMark x = 0xff#8 := by
  obtain ⟨k, rfl⟩ := Nat.exists_eq_add_of_le hx.1
  rw [writeWord, if_pos hx, Nat.add_sub_cancel_left]
  have hk : k < 4 := by omega
  interval_cases k
  all_goals rfl

/-- A byte that is put at its place. -/
theorem put_spilled (hpos : im.pos = spillAddr + i % 8192) (hmod : i % 8192 ≠ 0) (c : Byte) :
    PutSpilled im (im.fputc c) i c := by
  obtain ⟨hbytes, hnext, -⟩ := fputc_spec im c
  refine ⟨fun x => ?_, ?_, by rw [hnext, hpos]⟩
  · rw [hbytes, hpos]
    by_cases hx : x = spillAddr + i % 8192
    · rw [if_pos hx, hx, Function.update_self]
    · rw [if_neg hx, if_neg (by omega), Function.update_of_ne hx]
  · show max im.len (im.pos + 1) = _
    rw [hpos]

/-- The first byte of a block that there is not, behind another one. -/
theorem put_spilled_block (hf : Layout f) (hmod : i % 8192 = 0) (hlen : 1024 ≤ im.len) (c : Byte) :
    PutSpilled im (((writeBlk endMark endMark ⟨im.bytes, im.len, 0⟩ f).fseek
      (dataOffset f endMark)).fputc c) i c := by
  rw [write_blk_end hf ⟨im.bytes, im.len, 0⟩ endMark hlen, hf.spill_offset, fputc_fseek]
  dsimp only
  rw [← Nat.add_zero spillAddr, ← hmod]
  refine ⟨fun x => ?_, rfl, rfl⟩
  dsimp only
  rw [hmod, Nat.add_zero]
  by_cases hx : x = spillAddr
  · rw [if_pos hx, hx, Function.update_self]
  rw [if_neg hx, Function.update_of_ne hx]
  by_cases hfront : 1020 ≤ x ∧ x < 1024
  · rw [if_pos ⟨rfl, hfront⟩, write_end_mark _ (by omega)]
  · rw [if_neg (by omega), write_word_outside (by omega)]

/-- The first byte without a block. The last block of the file keeps its end mark. -/
theorem Filling.spill {start cur k : Nat} {l : List Nat} {content : List Byte} (h : Image fd f)
    (he : e < 64) (hfill : Filling fd f e start i l cur im) (hk : k = freeCount fd.bytes f)
    (hfull : i = 8192 * l.length) (hnone : freeCount im.bytes f = 0) {c : Byte}
    (hc : content[i]? = some c) :
    Spilling fd f e start content k (i + 1)
      (((writeBlk endMark cur ⟨im.bytes, im.len, 0⟩ f).fseek (dataOffset f endMark)).fputc c) := by
  have hf := h.layout
  have htable := hf.table
  have hbelow := hf.blocks_below
  have hblocks := h.blocks
  have hroot := h.layout.root
  have hlen := hfill.len
  have hlength : l.length = k := by
    have hcount := hfill.count
    omega
  obtain ⟨hcur, -⟩ := hfill.free cur hfill.cur_mem
  have hsame : writeWord im.bytes (1024 + 4 * cur) endMark = im.bytes := by
    rw [← hfill.last_fat, hf.fat_eq, write_read_word]
  rw [write_blk_spec ⟨im.bytes, im.len, 0⟩ hf hcur endMark (show _ ≤ im.len by omega), hsame,
    hf.spill_offset, fputc_fseek]
  dsimp only
  have hbyte := same_outside_byte im.bytes spillAddr c
  have hfat : ∀ b < f.numOfBlk, fat (Function.update im.bytes spillAddr c) f b = fat im.bytes f b :=
    fun b hb => hbyte.fat hf (by omega)
  refine ⟨⟨l, ?_, hfill.free⟩, ?_, fun x hx hplace => ?_, fun x hx hlow => ?_,
    fun m hm hlt _ => ?_, ?_, ?_, fun _ => ?_, by omega⟩
  · exact hfill.chain.congr fun b hb => hfat b (hfill.free b hb).1
  · rw [free_count_same hfat]
    exact hnone
  · dsimp only
    rw [Function.update_of_ne (by omega)]
    exact hfill.kept x
  · dsimp only
    rw [Function.update_of_ne (by unfold spillAddr; omega), if_neg (by omega)]
    obtain hsame | hnew := hfill.kept x
    · exact hsame
    · have hplace := (h.new_place hnew).1
      omega
  · have hmi : m = i := by omega
    have hmod : spillAddr + i % 8192 = spillAddr := by omega
    dsimp only
    rw [hmi, hmod, Function.update_self, hc]
  · rw [hbyte.first_blk (by unfold entryAddr; omega)]
    exact hfill.entry
  · dsimp only
    rw [hlen]
    omega
  · dsimp only
    omega

/-! ### The loop -/

/-- The loop of `copy` after `i` bytes. -/
def CopyState (fd : HostFile) (f : SuperBlock) (e start : Nat) (content : List Byte) (i n cur : Nat)
    (im : HostFile) : Prop :=
  (∃ l, l.length = n ∧ Filling fd f e start i l cur im) ∨
    (Spilling fd f e start content (freeCount fd.bytes f) i im ∧ cur = endMark ∧
      n = (i + 8191) / 8192)

section Loop

variable {start n cur : Nat} {content : List Byte} {c : Byte} (h : Image fd f) (he : e < 64)
  (hc : content[i]? = some c) (rest : List Byte)

include h he hc

/-- One byte, while there were free blocks: it goes into the last block, into a new one, or behind all
blocks. -/
theorem Filling.step {l : List Nat} (hfill : Filling fd f e start i l cur im) (hl : l.length = n) :
    ∃ n' cur' im', copyLoop f (c :: rest) i n cur im = copyLoop f rest (i + 1) n' cur' im' ∧
      CopyState fd f e start content (i + 1) n' cur' im' := by
  have hf := h.layout
  have hsmall := hf.small
  have hlen : l.length ≤ f.numOfBlk := hfill.chain.length_le fun b hb => (hfill.free b hb).1
  have htest : 16 * 512 * n % 2 ^ 32 = 8192 * l.length := by
    rw [hl, Nat.mod_eq_of_lt (by omega)]
  rw [copyLoop, hf.sectorPerBlk, hf.bytePerSector, htest]
  by_cases hfull : i = 8192 * l.length
  · rw [if_pos hfull]
    have htable : 1024 + 4 * f.numOfBlk ≤ im.len := by
      rw [hfill.len]
      exact h.long.table
    obtain hnone | hcount := Nat.eq_zero_or_pos (freeCount im.bytes f)
    · rw [search_blk_null_full hf htable hnone]
      refine ⟨_, _, _, rfl, .inr ⟨hfill.spill h he rfl hfull hnone hc, rfl, ?_⟩⟩
      omega
    · obtain ⟨b, hb⟩ := exists_first_free hcount
      rw [search_blk_null_spec hf hb htable]
      refine ⟨_, _, _, rfl, .inl ⟨l ++ [b], ?_, hfill.new_block h he hfull hb c⟩⟩
      rw [List.length_append, hl, List.length_singleton]
  · rw [if_neg hfull]
    have hhigh := hfill.high
    exact ⟨_, _, _, rfl, .inl ⟨l, hl, hfill.fputc h he (by omega) c⟩⟩

/-- One byte after that. -/
theorem Spilling.step (hsize : content.length < 2 ^ 32)
    (hspill : Spilling fd f e start content (freeCount fd.bytes f) i im) (hcur : cur = endMark)
    (hn : n = (i + 8191) / 8192) :
    ∃ n' cur' im', copyLoop f (c :: rest) i n cur im = copyLoop f rest (i + 1) n' cur' im' ∧
      CopyState fd f e start content (i + 1) n' cur' im' := by
  have hf := h.layout
  have hlong := h.long.table
  have hlen := hspill.len
  have hbehind := hspill.behind
  have hlt : i < content.length := (List.getElem?_eq_some_iff.mp hc).1
  rw [copyLoop, hf.sectorPerBlk, hf.bytePerSector]
  by_cases hmod : i % 8192 = 0
  · have htest : i = 16 * 512 * n % 2 ^ 32 := by omega
    rw [if_pos htest, search_blk_null_full hf (by omega) hspill.full, hcur]
    have hput := put_spilled_block hf hmod (show 1024 ≤ im.len by omega) c
    refine ⟨_, _, _, rfl, .inr ⟨hspill.put h he hput hc, rfl, ?_⟩⟩
    omega
  · have htest : ¬ i = 16 * 512 * n % 2 ^ 32 := by omega
    rw [if_neg htest]
    have hput := put_spilled (hspill.pos hmod) hmod c
    refine ⟨_, _, _, rfl, .inr ⟨hspill.put h he hput hc, hcur, ?_⟩⟩
    omega

end Loop

/-- The loop of `copy` on any image. The induction is on the bytes that are left. -/
theorem copy_loop_state (h : Image fd f) (he : e < 64) {start : Nat} {content : List Byte}
    (hsize : content.length < 2 ^ 32) (rest : List Byte) : ∀ {i n cur : Nat} {im : HostFile},
    content.drop i = rest → i ≤ content.length → CopyState fd f e start content i n cur im →
    ∃ n' cur', CopyState fd f e start content content.length n' cur'
      (copyLoop f rest i n cur im) := by
  induction rest with
  | nil =>
      intro i n cur im hrest hi hstate
      have hend : i = content.length := le_antisymm hi (List.drop_eq_nil_iff.mp hrest)
      exact ⟨n, cur, hend ▸ hstate⟩
  | cons c rest ih =>
      intro i n cur im hrest hi hstate
      have hc : content[i]? = some c := by
        rw [← List.head?_drop, hrest]
        rfl
      have hnext : content.drop (i + 1) = rest := by
        rw [← List.tail_drop, hrest]
        rfl
      have hlt : i < content.length := (List.getElem?_eq_some_iff.mp hc).1
      obtain ⟨n', cur', im', hstep, hstate'⟩ : ∃ n' cur' im',
          copyLoop f (c :: rest) i n cur im = copyLoop f rest (i + 1) n' cur' im' ∧
            CopyState fd f e start content (i + 1) n' cur' im' := by
        obtain ⟨l, hl, hfill⟩ | ⟨hspill, hcur, hn⟩ := hstate
        · exact hfill.step h he hc rest hl
        · exact Spilling.step h he hc rest hsize hspill hcur hn
      rw [hstep]
      exact ih hnext hlt hstate'

/-! ### One call of the tool -/

/-- The bytes of a host file that `copy` writes: their number is an `unsigned`. -/
def copied (content : List Byte) : List Byte := content.take (content.length % 2 ^ 32)

theorem copied_length (content : List Byte) :
    (copied content).length = content.length % 2 ^ 32 := by
  rw [copied, List.length_take]
  exact Nat.min_eq_left (Nat.mod_le _ _)

section Call

variable {k : Nat} (h : Image fd f) (path content : List Byte)

include h

/-- The state in which the loop of `copy` starts. -/
theorem Filling.start (hb : FirstFree fd.bytes f b) (hk : FirstEntry fd.bytes f k) (attr : Byte)
    (n : Nat) :
    Filling fd f k b 0 [b] b ((((created fd f path b k attr).fseek (entryAddr f k)).fwrite
      (writeWord (newEntry path b k attr) 111 n) 128).fseek (1024 + 8192 * b)) := by
  have hf := h.layout
  have htable := hf.table
  have hsmall := hf.small
  have hrange := hb.range
  have hk64 := hk.range
  have hdirectory := h.long.directory
  have hplaced : entryAddr f k = 1024 + 8192 * f.rootBlk + 128 * k := rfl
  have hend : entryAddr f 64 = 1024 + 8192 * f.rootBlk + 128 * 64 := rfl
  have hagain := same_outside_copy (created fd f path b k attr).bytes (entryAddr f k) 128
    (writeWord (newEntry path b k attr) 111 n)
  have hfirst := same_outside_copy (writeWord fd.bytes (1024 + 4 * b) endMark) (entryAddr f k) 128
    (newEntry path b k attr)
  have hmark := same_outside_word fd.bytes (1024 + 4 * b) endMark
  have hfat : ∀ c < f.numOfBlk, fat (copyBytes (created fd f path b k attr).bytes (entryAddr f k)
      (writeWord (newEntry path b k attr) 111 n) 0 128) f c =
        fat (created fd f path b k attr).bytes f c := fun c hc => hagain.fat hf (by omega)
  refine ⟨⟨rfl, ?_, ?_⟩, ⟨[], rfl⟩, fun c hc => ?_, ?_, fun x => ?_, ?_, ?_, ?_, ?_, Nat.zero_le _⟩
  · unfold endMark
    omega
  · exact (hfat b hb.range).trans ((created_fat hf hb.range).trans (if_pos rfl))
  · rw [List.mem_singleton.mp hc]
    exact ⟨hb.range, hb.free⟩
  · show freeCount (copyBytes _ _ _ 0 128) f + 1 = _
    rw [fseek_bytes, fseek_pos, free_count_same hfat]
    exact created_free_count hf hb
  · by_cases hentry : entryAddr f k ≤ x ∧ x < entryAddr f k + 128
    · exact .inr (.inr ⟨hk.range, hk.free, hentry⟩)
    by_cases hx : 1024 + 4 * b ≤ x ∧ x < 1024 + 4 * b + 4
    · exact .inr (.inl ⟨b, hb.range, hb.free, .inl hx⟩)
    · exact .inl ((hagain x (by omega)).trans
        ((hfirst x (by omega)).trans (hmark x (by omega))))
  · have hcopy : Cfs.firstBlk (copyBytes (created fd f path b k attr).bytes (entryAddr f k)
        (writeWord (newEntry path b k attr) 111 n) 0 128) (entryAddr f k) =
          Cfs.firstBlk (writeWord (newEntry path b k attr) 111 n) 0 :=
      read_copy_word_inside (by omega)
    rw [sized_first_blk, new_entry_first_blk attr (by omega)] at hcopy
    exact hcopy
  · show max (max fd.len (entryAddr f k + 128)) (entryAddr f k + 128) = fd.len
    omega
  · show 1024 + 8192 * b + 8192 * 1 = _
    omega
  · show 8192 * 1 ≤ _
    omega

/-- The three results of the tool: a new entry and the run of `copy`, no unused entry, where a free
block is marked, or no free block. -/
theorem gravar_cases :
    (∃ b k n cur im, FirstFree fd.bytes f b ∧ FirstEntry fd.bytes f k ∧
      CopyState fd f k b (copied content) (copied content).length n cur im ∧
      gravar path (some content) fd = (0, im.rewind)) ∨
    (∃ b pos, FirstFree fd.bytes f b ∧ (∀ i < 64, busy fd.bytes (entryAddr f i) ≠ 0#8) ∧
      gravar path (some content) fd =
        (-1, ⟨writeWord fd.bytes (1024 + 4 * b) endMark, fd.len, pos⟩)) ∨
    (freeCount fd.bytes f = 0 ∧ gravar path (some content) fd = (1, ⟨fd.bytes, fd.len, 0⟩)) := by
  have hf := h.layout
  have hsmall := hf.small
  have hlong : LongEnough fd.rewind f := h.long.mono (le_refl _)
  rw [gravar, read_super_block_eq h.super h.long]
  obtain ⟨b, k, hb, hk, hcreate⟩ | ⟨b, pos, hb, hbusy, hresult, himage⟩ | ⟨hnone, hresult, himage⟩ :=
    @create_file_cases f fd.rewind (some content) 0x20#8 hf hlong
      (fun hmissing => Option.some_ne_none content hmissing.2) path
  · have hrange := hb.range
    have hk64 := hk.range
    have hentry : Cfs.dirEntry (newEntry path b k 0x20#8) 0 = k :=
      new_entry_dir_entry 0x20#8 (by omega)
    have hblock : Cfs.firstBlk (newEntry path b k 0x20#8) 0 = b :=
      new_entry_first_blk 0x20#8 (by omega)
    have hsize : Cfs.fileSize (writeWord (newEntry path b k 0x20#8) 111 content.length) 0 =
        content.length % 2 ^ 32 := read_write_word_mod _ _ _
    have hless : (copied content).length < 2 ^ 32 := by
      rw [copied_length]
      exact Nat.mod_lt _ (by omega)
    obtain ⟨n, cur, hstate⟩ := copy_loop_state h hk.range hless (copied content) rfl (Nat.zero_le _)
      (.inl ⟨[b], rfl, Filling.start h path hb hk 0x20#8 content.length⟩)
    refine .inl ⟨b, k, n, cur, _, hb, hk, hstate, ?_⟩
    simp only [hcreate, if_true, copy, sized_dir_entry, sized_first_blk, hentry, hblock, hsize,
      hf.entry_offset hk.range, hf.data_offset hb.range.le]
    rfl
  · refine .inr (.inl ⟨b, pos, hb, hbusy, ?_⟩)
    simp only [hresult, himage]
    rfl
  · refine .inr (.inr ⟨hnone, ?_⟩)
    simp only [hresult, himage]
    rfl

end Call

/-! ### The results -/

/-- The bytes that have no block are in the image already, and with more than one block of them the
word in front of the allocation table is -1. -/
structure SpilledBefore (fd : HostFile) (f : SuperBlock) (content : List Byte) : Prop where
  tail : ∀ m, 8192 * freeCount fd.bytes f ≤ m → m < content.length → content.length ≤ m + 8192 →
    spillAddr + m % 8192 < fd.len ∧ content[m]? = some (fd.bytes (spillAddr + m % 8192))
  front : 8192 * (freeCount fd.bytes f + 1) < content.length →
    ∀ x, 1020 ≤ x → x < 1024 → fd.bytes x = 0xff#8

section Result

variable {start cur k : Nat} {l : List Nat} {content : List Byte}

/-- The file has a block for each byte. -/
theorem Filling.fits (hfill : Filling fd f e start i l cur im) :
    i ≤ 8192 * freeCount fd.bytes f := by
  have hcount := hfill.count
  have hhigh := hfill.high
  omega

theorem Filling.files_kept (h : Image fd f) (hfill : Filling fd f e start i l cur im) :
    FilesKept fd f e (0, im.rewind) := by
  refine h.files_kept (fun x _ _ => hfill.kept x) fun _ => ⟨l, ?_, hfill.free⟩
  show Chain im.bytes f (firstBlk im.bytes (entryAddr f e)) l
  rw [hfill.entry]
  exact hfill.chain

theorem Filling.contained (h : Image fd f) (hfill : Filling fd f e start i l cur im) :
    Contained fd f e (0, im.rewind) := by
  refine ⟨hfill.files_kept h, fun x hx => ?_⟩
  have hlen : x < im.len := hx
  rw [hfill.len] at hlen
  exact (hfill.kept x).imp_left fun hsame => ⟨hlen, hsame⟩

/-- The bytes without a block do not reach another file. -/
theorem Spilling.files_kept (h : Image fd f) (hspill : Spilling fd f e start content k i im) :
    FilesKept fd f e (0, im.rewind) := by
  refine h.files_kept hspill.framed fun _ => ?_
  show ∃ l, Chain im.bytes f (firstBlk im.bytes (entryAddr f e)) l ∧ _
  rw [hspill.entry]
  exact hspill.chain

/-- The place of a byte without a block holds what it held before if that was the last byte for it. -/
theorem Spilling.tail_same
    (hspill : Spilling fd f e start content (freeCount fd.bytes f) content.length im)
    (hbefore : SpilledBefore fd f content) {j : Nat} (hj : j < 8192)
    (hlt : j < content.length - 8192 * freeCount fd.bytes f) :
    spillAddr + j < fd.len ∧ im.bytes (spillAddr + j) = fd.bytes (spillAddr + j) := by
  obtain ⟨m, hm, hlow, hhigh, hlast⟩ : ∃ m, m % 8192 = j ∧ 8192 * freeCount fd.bytes f ≤ m ∧
      m < content.length ∧ content.length ≤ m + 8192 :=
    ⟨content.length - 1 - (content.length - 1 - j) % 8192, by omega, by omega, by omega, by omega⟩
  obtain ⟨hlen, hold⟩ := hbefore.tail m hlow hhigh hlast
  have hnew := hspill.tail m hlow hhigh hlast
  rw [hm] at hlen hold hnew
  exact ⟨hlen, Option.some.inj (hnew.symm.trans hold)⟩

/-- If they were in the image before, the copy stays within the new file. -/
theorem Spilling.contained (h : Image fd f)
    (hspill : Spilling fd f e start content (freeCount fd.bytes f) content.length im)
    (hbefore : SpilledBefore fd f content) : Contained fd f e (0, im.rewind) := by
  have hbehind := hspill.behind
  have hlen : im.len = fd.len := by
    have hend := (@tail_same fd im f e start content hspill hbefore
      (min 8192 (content.length - 8192 * freeCount fd.bytes f) - 1) (by omega) (by omega)).1
    rw [hspill.len]
    omega
  refine ⟨hspill.files_kept h, fun x hx => ?_⟩
  have hxlen : x < fd.len := hlen ▸ hx
  by_cases hfront : 1020 ≤ x ∧ x < 1024
  · refine .inl ⟨hxlen, (hspill.front x hfront.1 hfront.2).trans ?_⟩
    split
    case isTrue hmore => exact (hbefore.front hmore x hfront.1 hfront.2).symm
    case isFalse => rfl
  by_cases htail : spillAddr ≤ x ∧
      x < spillAddr + min 8192 (content.length - 8192 * freeCount fd.bytes f)
  · obtain ⟨j, rfl⟩ := Nat.exists_eq_add_of_le htail.1
    exact .inl (hspill.tail_same hbefore (by omega) (by omega))
  · exact (hspill.kept x (by omega) (by omega)).imp_left fun hsame => ⟨hxlen, hsame⟩

/-- And only then. -/
theorem Spilling.spilled_before (h : Image fd f) {e' : Nat}
    (hspill : Spilling fd f e start content (freeCount fd.bytes f) content.length im)
    (hcontained : Contained fd f e' (0, im.rewind)) : SpilledBefore fd f content := by
  -- the places of the spilled bytes are in no block and in no entry
  have hold : ∀ x < im.len, x < 1024 ∨ spillAddr ≤ x → x < fd.len ∧ im.bytes x = fd.bytes x := by
    intro x hx hout
    obtain hsame | hnew := hcontained.only x hx
    · exact hsame
    · have hplace := h.new_place hnew
      omega
  have hlen := hspill.len
  refine ⟨fun m hm hlt hlast => ?_, fun hmore x hx hlow => ?_⟩
  · obtain ⟨hin, hsame⟩ := hold (spillAddr + m % 8192) (by omega) (.inr (by omega))
    rw [← hsame]
    exact ⟨hin, hspill.tail m hm hlt hlast⟩
  · have hsame := (hold x (by unfold spillAddr at hlen; omega) (.inl hlow)).2
    rw [← hsame, hspill.front x hx hlow, if_pos hmore]

/-- A call that fails leaves the length of the image, and at most takes a free block. -/
theorem Image.failed (h : Image fd f) {bytes : Bytes} {pos : Nat} {r : Int} (hr : r ≠ 0)
    (hkept : ∀ x, bytes x = fd.bytes x ∨ InFree fd.bytes f x) :
    Contained fd f 0 (r, ⟨bytes, fd.len, pos⟩) := by
  have hplaces : ∀ x, bytes x = fd.bytes x ∨ InFree fd.bytes f x ∨ InEntry fd.bytes f 0 x :=
    fun x => (hkept x).imp_right .inl
  exact ⟨h.files_kept (fun x _ _ => hplaces x) fun hzero => absurd hzero hr,
    fun x hx => (hplaces x).imp_left fun hsame => ⟨hx, hsame⟩⟩

/-- The block that is marked before the tool finds no unused entry. -/
theorem FirstFree.mark_in_free (hb : FirstFree fd.bytes f b) (x : Nat) :
    writeWord fd.bytes (1024 + 4 * b) endMark x = fd.bytes x ∨ InFree fd.bytes f x := by
  by_cases hx : 1024 + 4 * b ≤ x ∧ x < 1024 + 4 * b + 4
  · exact .inr ⟨b, hb.range, hb.free, .inl hx⟩
  · exact .inl (write_word_outside (by omega))

end Result

section Call

variable (h : Image fd f) (path content : List Byte)

include h

/-- On a full disk or not: the super block, the files of an image and their blocks are as they were,
and the chain of the new file ends within the image. -/
theorem gravar_keeps_files : ∃ e, FilesKept fd f e (gravar path (some content) fd) := by
  obtain ⟨b, k, n, cur, im, -, -, hstate, hrun⟩ | ⟨b, pos, hb, -, hrun⟩ | ⟨-, hrun⟩ :=
    gravar_cases h path content
  · rw [hrun]
    obtain ⟨l, -, hfill⟩ | ⟨hspill, -, -⟩ := hstate
    · exact ⟨k, hfill.files_kept h⟩
    · exact ⟨k, hspill.files_kept h⟩
  · rw [hrun]
    exact ⟨0, (h.failed (by decide) hb.mark_in_free).toFilesKept⟩
  · rw [hrun]
    exact ⟨0, (h.failed (by decide) fun x => .inl rfl).toFilesKept⟩

/-- The image does not get shorter. -/
theorem gravar_len : fd.len ≤ (gravar path (some content) fd).2.len := by
  obtain ⟨b, k, n, cur, im, -, -, hstate, hrun⟩ | ⟨b, pos, -, -, hrun⟩ | ⟨-, hrun⟩ :=
    gravar_cases h path content
  · rw [hrun]
    show fd.len ≤ im.len
    obtain ⟨l, -, hfill⟩ | ⟨hspill, -, -⟩ := hstate
    · exact hfill.len.ge
    · exact hspill.len.ge.trans' (Nat.le_max_left _ _)
  · rw [hrun]
  · rw [hrun]

theorem folder_len : fd.len ≤ (folder path fd).2.len := by
  have hlong : LongEnough fd.rewind f := h.long.mono (le_refl _)
  rw [folder, read_super_block_eq h.super h.long]
  obtain ⟨b, k, -, -, hcreate⟩ | ⟨b, pos, -, -, -, himage⟩ | ⟨-, -, himage⟩ :=
    @create_file_cases f fd.rewind none 0x40#8 h.layout hlong
      (fun hmissing => absurd hmissing.1 (by decide)) path
  · simp only [hcreate]
    exact Nat.le_max_left _ _
  · simp only [himage]
    exact le_refl _
  · simp only [himage]
    exact le_refl _

end Call

/-! ### Images that the tool builds -/

/-- Every image that the tool has formatted and filled has all its blocks. -/
theorem Built.image {entries : List (List Byte × Kind)} (h : Built fd entries) :
    ∃ f slot, Volume fd.bytes f slot ∧ Image fd f := by
  induction h with
  | format fd boot hlow hhigh =>
      obtain ⟨f, hvolume, hlong, hblocks, -, -, hgrow, -⟩ := format_spec fd boot hlow hhigh
      exact ⟨f, _, hvolume, hvolume.layout, hvolume.super, hvolume.reserved, hlong, by omega⟩
  | @file fd entries path content hbuilt hname hfresh hroom ih =>
      obtain ⟨f, slot, hvolume, himage⟩ := ih
      obtain ⟨hblocks, i, hi, hentry⟩ := hroom
      rw [hvolume.super] at hblocks hentry
      obtain ⟨k, blocks, -, -, -, hnext, hlong⟩ := gravar_spec hvolume himage.long hname hblocks
        ⟨i, hi, (hvolume.busy_iff hi).mp hentry⟩
      exact ⟨f, _, hnext, hnext.layout, hnext.super, hnext.reserved, hlong,
        himage.blocks.trans (gravar_len himage path content)⟩
  | @folder fd entries path hbuilt hname hfresh hroom ih =>
      obtain ⟨f, slot, hvolume, himage⟩ := ih
      obtain ⟨hblocks, i, hi, hentry⟩ := hroom
      rw [hvolume.super] at hblocks hentry
      obtain ⟨k, blocks, -, -, hnext, hlong⟩ := folder_spec hvolume himage.long hname hblocks
        ⟨i, hi, (hvolume.busy_iff hi).mp hentry⟩
      exact ⟨f, _, hnext, hnext.layout, hnext.super, hnext.reserved, hlong,
        himage.blocks.trans (folder_len himage path)⟩

/-! ### Full disks -/

/-- A copy changes nothing but free blocks, their entries and the new entry exactly when there is no
free block at the start, or no unused entry, or a block for each byte, or when the bytes without a
block were in the image before. -/
theorem full_disk_iff (h : Image fd f) (path content : List Byte) :
    (∃ e, Contained fd f e (gravar path (some content) fd)) ↔
      freeCount fd.bytes f = 0 ∨ (∀ i < 64, busy fd.bytes (entryAddr f i) ≠ 0#8) ∨
        content.length % 2 ^ 32 ≤ 8192 * freeCount fd.bytes f ∨
        SpilledBefore fd f (copied content) := by
  rw [← copied_length]
  obtain ⟨b, k, n, cur, im, hb, hk, hstate, hrun⟩ | ⟨b, pos, hb, hbusy, hrun⟩ | ⟨hnone, hrun⟩ :=
    gravar_cases h path content
  · rw [hrun]
    obtain ⟨l, -, hfill⟩ | ⟨hspill, -, -⟩ := hstate
    · exact iff_of_true ⟨k, hfill.contained h⟩ (.inr (.inr (.inl hfill.fits)))
    constructor
    · rintro ⟨e, hcontained⟩
      exact .inr (.inr (.inr (hspill.spilled_before h hcontained)))
    · rintro (hnone | hbusy | hfits | hbefore)
      · exact absurd hb.free (not_free hnone hb.range)
      · exact absurd hk.free (hbusy k hk.range)
      · exact absurd hspill.behind (not_lt.mpr hfits)
      · exact ⟨k, hspill.contained h hbefore⟩
  · rw [hrun]
    exact iff_of_true ⟨0, h.failed (by decide) hb.mark_in_free⟩ (.inr (.inl hbusy))
  · rw [hrun]
    exact iff_of_true ⟨0, h.failed (by decide) fun x => .inl rfl⟩ (.inl hnone)

/-- An image of four blocks, two of them for files. -/
def fourBlocks : HostFile := format ⟨fun _ => 0#8, 36864, 0⟩ fun _ => 0#8

theorem four_blocks_image : ∃ f, Image fourBlocks f ∧ f.numOfBlk = 4 ∧
    freeCount fourBlocks.bytes f ≠ 0 ∧
    (∀ i < 64, busy fourBlocks.bytes (entryAddr f i) = 0#8) ∧ fourBlocks.bytes 1020 = 0#8 := by
  obtain ⟨f, hvolume, hlong, hblocks, hroot, hfree, hgrow, hfront⟩ :=
    format_spec ⟨fun _ => 0#8, 36864, 0⟩ (fun _ => 0#8) (by decide) (by decide)
  have hnum : f.numOfBlk = 4 := hblocks
  refine ⟨f, ⟨hvolume.layout, hvolume.super, hvolume.reserved, hlong, ?_⟩, hnum, fun hnone => ?_,
    fun i hi => (hvolume.busy_iff hi).mpr rfl, hfront 1020 (by omega) (by omega)⟩
  · rw [hnum]
    exact hgrow.trans' (by decide)
  · exact not_free hnone (show 2 < f.numOfBlk by omega) (hfree 2 (by omega) (by omega))

/-- A file of one byte fits on it. -/
theorem full_disk_iff_byte :
    ∃ f e, Contained fourBlocks f e (gravar [0x61#8] (some [0x68#8]) fourBlocks) := by
  obtain ⟨f, himage, -, hfree, -, -⟩ := four_blocks_image
  refine ⟨f, (full_disk_iff himage [0x61#8] [0x68#8]).mpr (.inr (.inr (.inl ?_)))⟩
  show 1 ≤ _
  omega

/-- A file with more bytes than all its blocks have does not. The first block that is missing makes
the file of the image larger, and the second one writes -1 in front of the allocation table. -/
theorem full_disk_spills : ∃ f, Image fourBlocks f ∧
    8192 * freeCount fourBlocks.bytes f < (List.replicate 40961 0#8).length ∧
    ¬ ∃ e, Contained fourBlocks f e
      (gravar [0x61#8] (some (List.replicate 40961 0#8)) fourBlocks) := by
  obtain ⟨f, himage, hnum, hfree, hentries, hfront⟩ := four_blocks_image
  have hcount := free_count_le fourBlocks.bytes f
  refine ⟨f, himage, ?_, ?_⟩
  · rw [List.length_replicate]
    omega
  rintro ⟨e, hcontained⟩
  have hlength : (copied (List.replicate 40961 0#8)).length = 40961 := by
    rw [copied_length, List.length_replicate]
    exact Nat.mod_eq_of_lt (by decide)
  obtain ⟨b, k, n, cur, im, hb, hk, hstate, hrun⟩ | ⟨b, pos, hb, hbusy, hrun⟩ | ⟨hnone, hrun⟩ :=
    gravar_cases himage [0x61#8] (List.replicate 40961 0#8)
  · rw [hrun] at hcontained
    obtain ⟨l, -, hfill⟩ | ⟨hspill, -, -⟩ := hstate
    · have hfits := hfill.fits
      omega
    · have hend := (hspill.spilled_before himage hcontained).front (by omega) 1020 (le_refl _)
        (by omega)
      rw [hfront] at hend
      exact absurd hend (by decide)
  · exact hbusy 0 (by omega) (hentries 0 (by omega))
  · exact hfree hnone

end Sirius.Cfs.Host
