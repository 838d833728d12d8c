import Mathlib.Data.List.GetD
import Sirius.Cfs.HostImage

/-!
# Images with files

A volume is an image together with the files that the entries of its root directory hold. Every
file has a chain of blocks of its own behind the root directory, and its bytes are in these blocks
in order. A write of the host tool to one place leaves the files that do not use it alone.
-/

namespace Sirius.Cfs.Host

open Library

/-- The number of blocks that `n` bytes take; every file has at least one. -/
def blocksFor (n : Nat) : Nat := max 1 ((n + 8191) / 8192)

/-- A file of an image: its name, the size in its entry, its blocks and its bytes. -/
structure Stored where
  name : List Byte
  size : Nat
  blocks : List Nat
  content : List Byte

/-- A file name: 1 to 96 characters, no slash, no spaces at the end. -/
structure ValidName (name : List Byte) : Prop where
  nonempty : name ≠ []
  length : name.length ≤ 96
  noNull : 0#8 ∉ name
  noSlash : slash ∉ name
  noSpace : name.getLast? ≠ some space

/-- The directory entry that the tool writes for a file. -/
structure IsRecord (dir : Bytes) (name : List Byte) (blk size index : Nat) : Prop where
  name : ∀ k < 96, dir k = name.getD k space
  busy : busy dir 0 ≠ 0#8
  firstBlk : firstBlk dir 0 = blk
  fileSize : fileSize dir 0 = size
  dirEntry : dirEntry dir 0 = index

/-- Entry `i` of the root directory, as a record of its own. -/
def rootEntry (bytes : Bytes) (f : SuperBlock) (i : Nat) : Bytes :=
  fun k => bytes (entryAddr f i + k)

/-- Entry `i` of the image is a file. -/
structure StoredAt (bytes : Bytes) (f : SuperBlock) (i : Nat) (s : Stored) : Prop where
  valid : ValidName s.name
  record : ∃ blk, IsRecord (rootEntry bytes f i) s.name blk s.size i ∧ Chain bytes f blk s.blocks
  range : ∀ b ∈ s.blocks, f.rootBlk < b ∧ b < f.numOfBlk
  room : s.content.length ≤ 8192 * s.blocks.length
  data : ∀ j < s.content.length,
    s.content[j]? = some (bytes (1024 + 8192 * s.blocks.getD (j / 8192) 0 + j % 8192))

/-- The image holds the files `slot`, one for each entry of the root directory that is not
cleared. -/
structure Volume (bytes : Bytes) (f : SuperBlock) (slot : Nat → Option Stored) : Prop where
  layout : Layout f
  super : superBlockAt bytes 512 = f
  reserved : ∀ b ≤ f.rootBlk, b < f.numOfBlk → fat bytes f b ≠ 0
  empty : ∀ i < 64, slot i = none → ∀ k < 128, rootEntry bytes f i k = 0#8
  stored : ∀ i < 64, ∀ s, slot i = some s → StoredAt bytes f i s
  exact : ∀ i < 64, ∀ s, slot i = some s → s.blocks.length = blocksFor s.content.length
  disjoint : ∀ i < 64, ∀ j < 64, ∀ s t, i ≠ j → slot i = some s → slot j = some t →
    s.blocks.Disjoint t.blocks

variable {f : SuperBlock} {bytes bytes' : Bytes} {b i k : Nat} {s t : Stored}
  {slot : Nat → Option Stored}

/-! ### What a file depends on -/

/-- A record depends on its 128 bytes. -/
theorem IsRecord.congr {dir dir' : Bytes} {name : List Byte} {blk size index : Nat}
    (h : IsRecord dir name blk size index) (hsame : ∀ k < 128, dir' k = dir k) :
    IsRecord dir' name blk size index := by
  have hword : ∀ a, a + 4 ≤ 128 → readWord dir' a = readWord dir a :=
    fun a ha => read_word_congr fun k hk => hsame _ (by omega)
  refine ⟨fun k hk => (hsame k (by omega)).trans (h.name k hk), ?_, ?_, ?_, ?_⟩
  · rw [Cfs.busy, hsame _ (by omega)]
    exact h.busy
  · exact (hword _ (by omega)).trans h.firstBlk
  · exact (hword _ (by omega)).trans h.fileSize
  · exact (hword _ (by omega)).trans h.dirEntry

/-- The block of a byte of a file is one of its blocks. -/
theorem StoredAt.block_mem {j : Nat} (h : StoredAt bytes f i s) (hj : j < s.content.length) :
    s.blocks.getD (j / 8192) 0 ∈ s.blocks := by
  have hroom := h.room
  have hlt : j / 8192 < s.blocks.length := by omega
  rw [List.getD_eq_getElem?_getD, List.getElem?_eq_getElem hlt]
  exact List.getElem_mem hlt

/-- A file depends on its entry, on the entries of its blocks in the allocation table and on the
data in its blocks. -/
theorem StoredAt.frame (h : StoredAt bytes f i s)
    (hentry : ∀ k < 128, rootEntry bytes' f i k = rootEntry bytes f i k)
    (hfat : ∀ b ∈ s.blocks, fat bytes' f b = fat bytes f b)
    (hdata : ∀ b ∈ s.blocks, ∀ k < 8192, bytes' (1024 + 8192 * b + k) = bytes (1024 + 8192 * b + k)) :
    StoredAt bytes' f i s := by
  obtain ⟨blk, hrecord, hchain⟩ := h.record
  refine ⟨h.valid, ⟨blk, hrecord.congr hentry, hchain.congr hfat⟩, h.range, h.room,
    fun j hj => ?_⟩
  rw [hdata _ (h.block_mem hj) _ (Nat.mod_lt _ (by omega))]
  exact h.data j hj

/-- The image outside `n` bytes at `a` is unchanged. -/
def SameOutside (bytes bytes' : Bytes) (a n : Nat) : Prop :=
  ∀ x, (x < a ∨ a + n ≤ x) → bytes' x = bytes x

theorem same_outside_word (bytes : Bytes) (a v : Nat) : SameOutside bytes (writeWord bytes a v) a 4 :=
  fun _ hx => write_word_outside hx

theorem same_outside_copy (bytes : Bytes) (a n : Nat) (src : Bytes) :
    SameOutside bytes (copyBytes bytes a src 0 n) a n :=
  fun _ hx => copy_bytes_outside hx

theorem same_outside_byte (bytes : Bytes) (a : Nat) (c : Byte) :
    SameOutside bytes (Function.update bytes a c) a 1 :=
  fun _ hx => Function.update_of_ne (by omega) _ _

/-- Entries of the allocation table outside a changed range. -/
theorem SameOutside.fat {a n : Nat} (h : SameOutside bytes bytes' a n) (hf : Layout f)
    (hout : 1024 + 4 * b + 4 ≤ a ∨ a + n ≤ 1024 + 4 * b) :
    Cfs.fat bytes' f b = Cfs.fat bytes f b := by
  rw [hf.fat_eq, hf.fat_eq]
  exact read_word_congr fun k hk => h _ (by omega)

/-- Entries of the root directory outside a changed range. -/
theorem SameOutside.entry {a n : Nat} (h : SameOutside bytes bytes' a n)
    (hout : entryAddr f i + 128 ≤ a ∨ a + n ≤ entryAddr f i) (hk : k < 128) :
    rootEntry bytes' f i k = rootEntry bytes f i k :=
  h _ (by omega)

/-- The super block in front of a changed range. -/
theorem SameOutside.super {a n : Nat} (h : SameOutside bytes bytes' a n) (ha : 1024 ≤ a) :
    superBlockAt bytes' 512 = superBlockAt bytes 512 :=
  super_block_congr fun _ _ => h _ (by omega)

/-- A new entry in the allocation table leaves a file without the block alone. -/
theorem StoredAt.mark (h : StoredAt bytes f i s) (hf : Layout f) (hb : b < f.numOfBlk)
    (hother : b ∉ s.blocks) (v : Nat) : StoredAt (writeWord bytes (1024 + 4 * b) v) f i s := by
  have hsame := same_outside_word bytes (1024 + 4 * b) v
  have htable := hf.table
  refine h.frame (fun k hk => hsame.entry ?_ hk) (fun c hc => hsame.fat hf ?_)
    fun c hc k hk => hsame _ ?_
  · unfold entryAddr
    omega
  · have hne : c ≠ b := fun heq => hother (heq ▸ hc)
    omega
  · have hrange := h.range c hc
    omega

/-- A new directory entry leaves the files of the other entries alone. -/
theorem StoredAt.enter (h : StoredAt bytes f i s) (hf : Layout f) (hk : k < 64)
    (hother : i ≠ k) (dir : Bytes) :
    StoredAt (copyBytes bytes (entryAddr f k) dir 0 128) f i s := by
  have hsame := same_outside_copy bytes (entryAddr f k) 128 dir
  have htable := hf.table
  refine h.frame (fun j hj => hsame.entry ?_ hj) (fun c hc => hsame.fat hf ?_)
    fun c hc j hj => hsame _ ?_
  · unfold entryAddr
    omega
  · have hrange := h.range c hc
    unfold entryAddr
    omega
  · have hrange := h.range c hc
    unfold entryAddr
    omega

/-- A byte in a block leaves a file without the block alone. -/
theorem StoredAt.store (h : StoredAt bytes f i s) (hf : Layout f) (hi : i < 64)
    (hb : f.rootBlk < b) (hk : k < 8192) (hother : b ∉ s.blocks) (c : Byte) :
    StoredAt (Function.update bytes (1024 + 8192 * b + k) c) f i s := by
  have hsame := same_outside_byte bytes (1024 + 8192 * b + k) c
  have htable := hf.table
  refine h.frame (fun j hj => hsame.entry ?_ hj) (fun a ha => hsame.fat hf ?_)
    fun a ha j hj => hsame _ ?_
  · unfold entryAddr
    omega
  · have hrange := h.range a ha
    omega
  · have hne : a ≠ b := fun heq => hother (heq ▸ ha)
    omega

/-! ### How a file grows -/

/-- The allocation table when the block `b` is linked behind `a`. -/
theorem linked_fat {a c : Nat} (hf : Layout f) (hb : b < f.numOfBlk) :
    fat (writeWord (writeWord bytes (1024 + 4 * b) endMark) (1024 + 4 * a) b) f c =
      if c = a then b else if c = b then endMark else fat bytes f c := by
  have hsmall := hf.small
  by_cases hca : c = a
  · rw [if_pos hca, hca, hf.fat_eq, read_write_word_same (by omega)]
  rw [if_neg hca, (same_outside_word _ (1024 + 4 * a) b).fat hf (by omega)]
  by_cases hcb : c = b
  · rw [if_pos hcb, hcb, hf.fat_eq, read_write_word_same (by decide)]
  · rw [if_neg hcb, (same_outside_word _ (1024 + 4 * b) endMark).fat hf (by omega)]

/-- A chain whose last block is `a` gets one more block. -/
theorem linked_chain {blk a : Nat} {l : List Nat} (hf : Layout f) (hb : b < f.numOfBlk)
    (h : Chain bytes f blk (l ++ [a])) (hnew : b ∉ l ++ [a]) :
    Chain (writeWord (writeWord bytes (1024 + 4 * b) endMark) (1024 + 4 * a) b) f blk
      (l ++ [a] ++ [b]) := by
  have hsmall := hf.small
  have hapart := (List.nodup_append.mp h.nodup).2.2
  rw [List.mem_append, List.mem_singleton, not_or] at hnew
  refine h.snoc (fun c hc => ?_) ?_ ?_ (by unfold endMark; omega)
  · have hca : c ≠ a := hapart c hc a (List.mem_singleton_self a)
    have hcb : c ≠ b := fun heq => hnew.1 (heq ▸ hc)
    rw [linked_fat hf hb, if_neg hca, if_neg hcb]
  · rw [linked_fat hf hb, if_pos rfl]
  · rw [linked_fat hf hb, if_neg hnew.2, if_pos rfl]

/-- A block at the end of the chain. -/
theorem StoredAt.grow {l : List Nat} {a : Nat} (h : StoredAt bytes f i s) (hf : Layout f)
    (hi : i < 64) (hl : s.blocks = l ++ [a]) (hb : f.rootBlk < b ∧ b < f.numOfBlk)
    (hnew : b ∉ s.blocks) :
    StoredAt (writeWord (writeWord bytes (1024 + 4 * b) endMark) (1024 + 4 * a) b) f i
      { s with blocks := s.blocks ++ [b] } := by
  obtain ⟨blk, hrecord, hchain⟩ := h.record
  have htable := hf.table
  have hsmall := hf.small
  have hrangea := h.range a (by simp [hl])
  have hsame : SameOutside bytes (writeWord (writeWord bytes (1024 + 4 * b) endMark)
      (1024 + 4 * a) b) 1024 (4 * f.numOfBlk) := fun x hx =>
    (write_word_outside (by omega)).trans (write_word_outside (by omega))
  refine ⟨h.valid, ⟨blk, hrecord.congr fun k hk => hsame.entry ?_ hk, ?_⟩, fun c hc => ?_, ?_,
    fun j hj => ?_⟩
  · unfold entryAddr
    omega
  · show Chain _ f blk (s.blocks ++ [b])
    rw [hl] at hchain hnew ⊢
    exact linked_chain hf hb.2 hchain hnew
  · obtain hc | hc := List.mem_append.mp hc
    · exact h.range c hc
    · rw [List.mem_singleton.mp hc]
      exact hb
  · have hroom := h.room
    show s.content.length ≤ 8192 * (s.blocks ++ [b]).length
    rw [List.length_append, List.length_singleton]
    omega
  · have hroom := h.room
    have hmem := h.range _ (h.block_mem hj)
    show s.content[j]? = some (writeWord _ _ _
      (1024 + 8192 * (s.blocks ++ [b]).getD (j / 8192) 0 + j % 8192))
    rw [List.getD_append _ _ _ _ (show j / 8192 < s.blocks.length from by
      have hj' : j < s.content.length := hj
      omega), hsame _ (by omega)]
    exact h.data j hj

/-- A chain holds a block at one place only. -/
theorem getD_inj {l : List Nat} (h : l.Nodup) {x y : Nat} (hx : x < l.length) (hy : y < l.length)
    (heq : l.getD x 0 = l.getD y 0) : x = y := by
  rw [List.getD_eq_getElem _ _ hx, List.getD_eq_getElem _ _ hy] at heq
  exact (List.Nodup.getElem_inj_iff h).mp heq

/-- A byte behind the last one, in a block that the file has already. -/
theorem StoredAt.append_byte (h : StoredAt bytes f i s) (hf : Layout f) (hi : i < 64)
    (hroom : s.content.length / 8192 < s.blocks.length) (c : Byte) :
    StoredAt (Function.update bytes (1024 + 8192 * s.blocks.getD (s.content.length / 8192) 0 +
      s.content.length % 8192) c) f i { s with content := s.content ++ [c] } := by
  obtain ⟨blk, hrecord, hchain⟩ := h.record
  have htable := hf.table
  have hmem : s.blocks.getD (s.content.length / 8192) 0 ∈ s.blocks := by
    rw [List.getD_eq_getElem _ _ hroom]
    exact List.getElem_mem hroom
  have hrange := h.range _ hmem
  have hsame := same_outside_byte bytes
    (1024 + 8192 * s.blocks.getD (s.content.length / 8192) 0 + s.content.length % 8192) c
  refine ⟨h.valid, ⟨blk, hrecord.congr fun k hk => hsame.entry ?_ hk,
    hchain.congr fun a ha => hsame.fat hf ?_⟩, h.range, ?_, fun j hj => ?_⟩
  · unfold entryAddr
    omega
  · have hrangea := h.range a ha
    omega
  · show (s.content ++ [c]).length ≤ 8192 * s.blocks.length
    rw [List.length_append, List.length_singleton]
    omega
  · show (s.content ++ [c])[j]? = some (Function.update bytes _ c
      (1024 + 8192 * s.blocks.getD (j / 8192) 0 + j % 8192))
    have hj' : j < s.content.length + 1 := by
      have hlength : j < (s.content ++ [c]).length := hj
      rwa [List.length_append, List.length_singleton] at hlength
    by_cases hlast : j = s.content.length
    · rw [hlast, Function.update_self, List.getElem?_concat_length]
    · have hlt : j < s.content.length := by omega
      have hne : 1024 + 8192 * s.blocks.getD (j / 8192) 0 + j % 8192 ≠
          1024 + 8192 * s.blocks.getD (s.content.length / 8192) 0 + s.content.length % 8192 := by
        intro heq
        have hblock := getD_inj hchain.nodup (show j / 8192 < s.blocks.length by omega) hroom
          (by omega)
        rw [hblock] at heq
        omega
      rw [Function.update_of_ne hne, List.getElem?_append_left hlt]
      exact h.data j hlt

/-! ### Changing one file of a volume -/

/-- The blocks of a file are not free. -/
theorem StoredAt.not_free (h : StoredAt bytes f i s) (hb : fat bytes f b = 0) : b ∉ s.blocks := by
  intro hmem
  obtain ⟨blk, _, hchain⟩ := h.record
  obtain hmark | hnext := hchain.next_mem hmem
  · rw [hb] at hmark
    exact absurd hmark (by decide)
  · have hrange := h.range _ hnext
    rw [hb] at hrange
    omega

/-- A free block lies behind the root directory. -/
theorem Volume.free_range (h : Volume bytes f slot) (hb : b < f.numOfBlk)
    (hfree : fat bytes f b = 0) : f.rootBlk < b ∧ b < f.numOfBlk := by
  refine ⟨?_, hb⟩
  by_contra hle
  exact h.reserved b (by omega) hb hfree

/-- One entry of the root directory gets a new file, and the other files stay. -/
theorem Volume.replace (h : Volume bytes f slot) (hk : k < 64)
    (hsuper : superBlockAt bytes' 512 = superBlockAt bytes 512)
    (hreserved : ∀ b ≤ f.rootBlk, b < f.numOfBlk → fat bytes' f b = fat bytes f b)
    (hentry : ∀ i < 64, i ≠ k → ∀ j < 128, rootEntry bytes' f i j = rootEntry bytes f i j)
    (hother : ∀ i < 64, i ≠ k → ∀ t, slot i = some t → StoredAt bytes' f i t)
    (hown : StoredAt bytes' f k s) (hexact : s.blocks.length = blocksFor s.content.length)
    (hdisjoint : ∀ i < 64, i ≠ k → ∀ t, slot i = some t → s.blocks.Disjoint t.blocks) :
    Volume bytes' f (Function.update slot k (some s)) := by
  have hold : ∀ i t, i ≠ k → Function.update slot k (some s) i = some t → slot i = some t :=
    fun i t hik hi => by rwa [Function.update_of_ne hik] at hi
  have hnew : ∀ t, Function.update slot k (some s) k = some t → s = t := fun t ht => by
    rw [Function.update_self] at ht
    exact Option.some.inj ht
  refine ⟨h.layout, hsuper.trans h.super, fun b hroot hb => ?_, fun i hi hnone j hj => ?_,
    fun i hi t ht => ?_, fun i hi t ht => ?_, fun i hi j hj t u hij ht hu => ?_⟩
  · rw [hreserved b hroot hb]
    exact h.reserved b hroot hb
  · have hik : i ≠ k := fun heq => by
      rw [heq, Function.update_self] at hnone
      exact absurd hnone (by simp)
    rw [Function.update_of_ne hik] at hnone
    rw [hentry i hi hik j hj]
    exact h.empty i hi hnone j hj
  · by_cases hik : i = k
    · subst hik
      exact hnew t ht ▸ hown
    · exact hother i hi hik t (hold i t hik ht)
  · by_cases hik : i = k
    · subst hik
      exact hnew t ht ▸ hexact
    · exact h.exact i hi t (hold i t hik ht)
  · by_cases hik : i = k
    · subst hik
      cases hnew t ht
      exact hdisjoint j hj (Ne.symm hij) u (hold j u (Ne.symm hij) hu)
    · by_cases hjk : j = k
      · subst hjk
        cases hnew u hu
        exact (hdisjoint i hi hij t (hold i t hij ht)).symm
      · exact h.disjoint i hi j hj t u hij (hold i t hik ht) (hold j u hjk hu)

end Sirius.Cfs.Host
