import Sirius.Cfs.CreateAtomicity
import Sirius.Cfs.RemoveFile

/-!
# Well-formed file systems

The directories form a tree under the root directory, and every busy entry of a directory owns a
chain in the allocation table. In a well-formed file system these chains end, stay behind the root
directory, and do not share a block. A new entry and a removed entry change one entry of one
directory and the table entries of one chain; what follows for all other entries is said here once
for both.
-/

namespace Sirius.Cfs.User

open Library

/-- The geometry of a formatted disk: the allocation table starts with block 0 and ends before the
block of the root directory. -/
structure Geometry (f : SuperBlock) : Prop extends Formatted f where
  table : 4 * f.numOfBlk ≤ 8192 * f.rootBlk
  root : f.rootBlk < f.numOfBlk

/-- The address of entry `e.2` of the directory block `e.1`. -/
def entryAt (f : SuperBlock) (e : Nat × Nat) : Nat := f.firstSector e.1 * 512 + e.2 * 128

/-- The directory blocks: the root directory, and the first block of every busy entry of a directory
block that is a directory. -/
inductive IsDirBlk (bytes : Bytes) (f : SuperBlock) : Nat → Prop
  | root : IsDirBlk bytes f f.rootBlk
  | sub {e : Nat × Nat} (hdir : IsDirBlk bytes f e.1) (hrange : e.2 < 64)
      (hbusy : busy bytes (entryAt f e) ≠ 0#8) (hattr : attr bytes (entryAt f e) &&& 0x40#8 ≠ 0#8) :
      IsDirBlk bytes f (firstBlk bytes (entryAt f e))

/-- A busy entry of a directory. -/
structure BusyEntry (bytes : Bytes) (f : SuperBlock) (e : Nat × Nat) : Prop where
  dir : IsDirBlk bytes f e.1
  range : e.2 < 64
  busy : busy bytes (entryAt f e) ≠ 0#8

/-- The chain of an entry. -/
abbrev ChainOf (bytes : Bytes) (f : SuperBlock) (e : Nat × Nat) (l : List Nat) : Prop :=
  Chain bytes f (firstBlk bytes (entryAt f e)) l

/-- Every busy entry has a finite chain of blocks behind the root directory, and the chains of two
entries have no block in common. -/
structure WellFormed (bytes : Bytes) (f : SuperBlock) : Prop where
  chain : ∀ e, BusyEntry bytes f e → ∃ l, ChainOf bytes f e l ∧ l ≠ [] ∧
    ∀ b ∈ l, f.rootBlk < b ∧ b < f.numOfBlk
  disjoint : ∀ e e' l l', BusyEntry bytes f e → BusyEntry bytes f e' → e ≠ e' →
    ChainOf bytes f e l → ChainOf bytes f e' l' → l.Disjoint l'

/-- No block of the allocation table or of the root directory is free. -/
def ReservedTaken (bytes : Bytes) (f : SuperBlock) : Prop := ∀ b ≤ f.rootBlk, fat bytes f b ≠ 0

/-- Entry `e'` keeps its bytes, its chain and the bytes in its blocks. The directory block of the
changed entry `e` may itself be one of these blocks, where only the bytes of `e` may differ. -/
structure Keeps (bytes bytes' : Bytes) (f : SuperBlock) (e e' : Nat × Nat) : Prop where
  entry : ∀ k < 128, bytes' (entryAt f e' + k) = bytes (entryAt f e' + k)
  chain : ∀ l, ChainOf bytes f e' l → ChainOf bytes' f e' l
  data : ∀ l, ChainOf bytes f e' l → ∀ b ∈ l, ∀ k < 8192,
    (b = e.1 → k < e.2 * 128 ∨ e.2 * 128 + 128 ≤ k) →
    bytes' (f.firstSector b * 512 + k) = bytes (f.firstSector b * 512 + k)

variable {bytes bytes' : Bytes} {f : SuperBlock} {e e' : Nat × Nat} {b c k : Nat} {l : List Nat}

/-! ### Where things are -/

/-- The bytes of a block. -/
theorem Geometry.block_addr (h : Geometry f) (hb : b < f.numOfBlk) :
    f.firstSector b * 512 = f.dataSector * 512 + 8192 * b := by
  rw [h.toFormatted.first_sector hb]
  omega

theorem Geometry.entry_addr (h : Geometry f) (he : e.1 < f.numOfBlk) :
    entryAt f e = f.dataSector * 512 + (8192 * e.1 + 128 * e.2) := by
  rw [entryAt, h.block_addr he]
  omega

/-- The allocation table starts behind the super block. -/
theorem Geometry.behind_super (h : Geometry f) : 1024 ≤ f.dataSector * 512 := by
  have hdata := h.dataSector
  rw [h.toFormatted.data_sector]
  omega

/-- The allocation table ends before the root directory and the blocks behind it. -/
theorem Geometry.table_before (h : Geometry f) (hb : f.rootBlk ≤ b ∧ b < f.numOfBlk) :
    fatAddr f f.numOfBlk ≤ f.firstSector b * 512 := by
  have htable := h.table
  rw [h.block_addr hb.2, fatAddr]
  omega

/-- A word of the allocation table is in it. -/
theorem fat_addr_below (hb : b < f.numOfBlk) : fatAddr f b + 4 ≤ fatAddr f f.numOfBlk := by
  unfold fatAddr
  omega

/-- Two blocks do not overlap. -/
theorem Geometry.blocks_apart (h : Geometry f) (hb : b < f.numOfBlk) (hc : c < f.numOfBlk)
    (hne : b ≠ c) : f.firstSector b * 512 + 8192 ≤ f.firstSector c * 512 ∨
      f.firstSector c * 512 + 8192 ≤ f.firstSector b * 512 := by
  rw [h.block_addr hb, h.block_addr hc]
  generalize f.dataSector * 512 = start
  omega

/-- An entry lies in its directory block. -/
theorem entry_in_block (he : e.2 < 64) : f.firstSector e.1 * 512 ≤ entryAt f e ∧
    entryAt f e + 128 ≤ f.firstSector e.1 * 512 + 8192 := by
  unfold entryAt
  omega

/-- Two entries of directory blocks do not overlap. -/
theorem Geometry.entries_apart (h : Geometry f) (he : e.1 < f.numOfBlk) (he' : e'.1 < f.numOfBlk)
    (hi : e.2 < 64) (hi' : e'.2 < 64) (hne : e ≠ e') :
    entryAt f e + 128 ≤ entryAt f e' ∨ entryAt f e' + 128 ≤ entryAt f e := by
  have hpair : e.1 ≠ e'.1 ∨ e.2 ≠ e'.2 := by
    by_contra hsame
    rw [not_or, not_not, not_not] at hsame
    exact hne (Prod.ext hsame.1 hsame.2)
  rw [h.entry_addr he, h.entry_addr he']
  generalize f.dataSector * 512 = start
  omega

/-- The bytes of a block are outside an entry, if it is not the directory block of the entry or they are
other bytes of it. -/
theorem Geometry.off_entry (h : Geometry f) (hb : b < f.numOfBlk) (he : e.1 < f.numOfBlk)
    (hi : e.2 < 64) (hk : k < 8192) (hdir : b = e.1 → k < e.2 * 128 ∨ e.2 * 128 + 128 ≤ k) :
    f.firstSector b * 512 + k < entryAt f e ∨ entryAt f e + 128 ≤ f.firstSector b * 512 + k := by
  by_cases hsame : b = e.1
  · have hother := hdir hsame
    rw [hsame, entryAt]
    omega
  · have hblocks := h.blocks_apart hb he hsame
    have hplaced : f.firstSector e.1 * 512 ≤ entryAt f e ∧ _ := entry_in_block hi
    omega

/-! ### Directory blocks of a well-formed file system -/

/-- The first block of a chain is one of its blocks. -/
theorem chain_head_mem {p : Nat} (h : Chain bytes f p l) (hne : l ≠ []) : p ∈ l := by
  cases l with
  | nil => exact absurd rfl hne
  | cons q l => exact h.1 ▸ List.mem_cons_self ..

theorem WellFormed.dir_range (h : WellFormed bytes f) (hf : Geometry f) {d : Nat}
    (hd : IsDirBlk bytes f d) : f.rootBlk ≤ d ∧ d < f.numOfBlk := by
  cases hd with
  | root => exact ⟨le_refl _, hf.root⟩
  | @sub e hdir hrange hbusy hattr =>
      obtain ⟨l, hchain, hne, hl⟩ := h.chain e ⟨hdir, hrange, hbusy⟩
      have hhead := hl _ (chain_head_mem hchain hne)
      exact ⟨hhead.1.le, hhead.2⟩

/-- A block of a chain is not free. -/
theorem WellFormed.chain_taken (h : WellFormed bytes f) (he : BusyEntry bytes f e)
    (hchain : ChainOf bytes f e l) (hb : b ∈ l) : fat bytes f b ≠ 0 := by
  obtain ⟨l', hchain', -, hl⟩ := h.chain e he
  rw [hchain.unique hchain'] at hb
  intro hfree
  obtain hmark | hnext := hchain'.next_mem hb
  · rw [hfree] at hmark
    exact absurd hmark (by decide)
  · rw [hfree] at hnext
    exact absurd (hl 0 hnext).1 (Nat.not_lt_zero _)

theorem WellFormed.dir_taken (h : WellFormed bytes f) (htaken : ReservedTaken bytes f) {d : Nat}
    (hd : IsDirBlk bytes f d) : fat bytes f d ≠ 0 := by
  cases hd with
  | root => exact htaken _ (le_refl _)
  | @sub e hdir hrange hbusy hattr =>
      obtain ⟨l, hchain, hne, -⟩ := h.chain e ⟨hdir, hrange, hbusy⟩
      exact h.chain_taken ⟨hdir, hrange, hbusy⟩ hchain (chain_head_mem hchain hne)

/-- A chain that the caller has is the one that the file system promises. -/
theorem WellFormed.chain_range (h : WellFormed bytes f) (he : BusyEntry bytes f e)
    (hchain : ChainOf bytes f e l) : l ≠ [] ∧ ∀ b ∈ l, f.rootBlk < b ∧ b < f.numOfBlk := by
  obtain ⟨l', hchain', hl⟩ := h.chain e he
  rw [hchain.unique hchain']
  exact hl

/-! ### What one changed entry means for the others -/

/-- The images agree on the 128 bytes of an entry. -/
def SameEntry (bytes bytes' : Bytes) (f : SuperBlock) (e : Nat × Nat) : Prop :=
  ∀ k < 128, bytes' (entryAt f e + k) = bytes (entryAt f e + k)

theorem SameEntry.busy (h : SameEntry bytes bytes' f e) :
    busy bytes' (entryAt f e) = busy bytes (entryAt f e) := h 97 (by omega)

theorem SameEntry.attr (h : SameEntry bytes bytes' f e) :
    attr bytes' (entryAt f e) = attr bytes (entryAt f e) := h 98 (by omega)

theorem SameEntry.first_blk (h : SameEntry bytes bytes' f e) :
    firstBlk bytes' (entryAt f e) = firstBlk bytes (entryAt f e) :=
  read_word_congr fun k hk => by
    rw [Nat.add_assoc]
    exact h _ (by omega)

/-- All entries of directory blocks but `e` are the same. -/
def OthersSame (bytes bytes' : Bytes) (f : SuperBlock) (e : Nat × Nat) : Prop :=
  ∀ e', IsDirBlk bytes f e'.1 → e'.2 < 64 → e' ≠ e → SameEntry bytes bytes' f e'

/-- When `e` was not busy, every directory block stays one. -/
theorem OthersSame.dir_stays (h : OthersSame bytes bytes' f e)
    (hfree : Cfs.busy bytes (entryAt f e) = 0#8) {d : Nat} (hd : IsDirBlk bytes f d) :
    IsDirBlk bytes' f d := by
  induction hd with
  | root => exact .root
  | @sub e' hdir hrange hbusy hattr ih =>
      have hne : e' ≠ e := fun heq => hbusy (heq ▸ hfree)
      have hsame := h e' hdir hrange hne
      rw [← hsame.first_blk]
      exact .sub ih hrange (hsame.busy ▸ hbusy) (hsame.attr ▸ hattr)

/-- When `e` is not a directory, every directory block stays one too. -/
theorem OthersSame.dir_stays_of_file (h : OthersSame bytes bytes' f e)
    (hfile : Cfs.attr bytes (entryAt f e) &&& 0x40#8 = 0#8) {d : Nat} (hd : IsDirBlk bytes f d) :
    IsDirBlk bytes' f d := by
  induction hd with
  | root => exact .root
  | @sub e' hdir hrange hbusy hattr ih =>
      have hne : e' ≠ e := fun heq => hattr (heq ▸ hfile)
      have hsame := h e' hdir hrange hne
      rw [← hsame.first_blk]
      exact .sub ih hrange (hsame.busy ▸ hbusy) (hsame.attr ▸ hattr)

/-- When `e` is not busy any more, there is no new directory block. -/
theorem OthersSame.dir_of_removed (h : OthersSame bytes bytes' f e)
    (hgone : Cfs.busy bytes' (entryAt f e) = 0#8) {d : Nat} (hd : IsDirBlk bytes' f d) :
    IsDirBlk bytes f d := by
  induction hd with
  | root => exact .root
  | @sub e' hdir hrange hbusy hattr ih =>
      have hne : e' ≠ e := fun heq => hbusy (heq ▸ hgone)
      have hsame := h e' ih hrange hne
      rw [hsame.first_blk]
      exact .sub ih hrange (hsame.busy ▸ hbusy) (hsame.attr ▸ hattr)

/-- When `e` is a new entry, the only new directory block is its first block, and nothing in that is
busy. -/
theorem OthersSame.dir_of_created (h : OthersSame bytes bytes' f e)
    (hempty : Cfs.attr bytes' (entryAt f e) &&& 0x40#8 ≠ 0#8 →
      ∀ i < 64, Cfs.busy bytes' (entryAt f (firstBlk bytes' (entryAt f e), i)) = 0#8)
    {d : Nat} (hd : IsDirBlk bytes' f d) :
    IsDirBlk bytes f d ∨ (d = firstBlk bytes' (entryAt f e) ∧
      Cfs.attr bytes' (entryAt f e) &&& 0x40#8 ≠ 0#8) := by
  induction hd with
  | root => exact .inl .root
  | @sub e' hdir hrange hbusy hattr ih =>
      obtain hold | ⟨hnew, hisdir⟩ := ih
      · by_cases heq : e' = e
        · subst heq
          exact .inr ⟨rfl, hattr⟩
        · have hsame := h e' hold hrange heq
          rw [hsame.first_blk]
          exact .inl (.sub hold hrange (hsame.busy ▸ hbusy) (hsame.attr ▸ hattr))
      · have hpair : e' = (firstBlk bytes' (entryAt f e), e'.2) := Prod.ext hnew rfl
        exact absurd (hpair ▸ hempty hisdir e'.2 hrange) hbusy

end Sirius.Cfs.User
