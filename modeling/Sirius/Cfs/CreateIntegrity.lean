import Mathlib.Data.Nat.Bitwise
import Sirius.Cfs.WellFormed

/-!
# Well-formedness after `create_file`

`create_file` marks one free block and gives it to a new entry. The file system stays well formed,
and every other entry keeps its chain and its bytes. What the function does to the bytes of the disk
is said once (`CreateEffect`); the rest follows from that.
-/

namespace Sirius.Cfs.User

open Library

variable {bytes bytes' dir : Bytes} {f : SuperBlock} {e e' : Nat × Nat} {b c k : Nat}
  {l : List Nat}

/-- Entry `e` was created: it was free, and it is busy now with the bytes `dir`. Its first block is
the only block whose table entry changed, and it is a chain of one block. -/
structure Created (bytes bytes' : Bytes) (f : SuperBlock) (e : Nat × Nat) (dir : Bytes) : Prop where
  free : Cfs.busy bytes (entryAt f e) = 0#8
  busy : BusyEntry bytes' f e
  entry : ∀ k < 128, bytes' (entryAt f e + k) = dir k
  block : fat bytes f (firstBlk dir 0) = 0
  chain : ChainOf bytes' f e [firstBlk dir 0]
  table : ∀ c < f.numOfBlk, c ≠ firstBlk dir 0 → fat bytes' f c = fat bytes f c
  entries : ∀ e', BusyEntry bytes' f e' ↔ e' = e ∨ BusyEntry bytes f e'
  others : ∀ e', BusyEntry bytes f e' → Keeps bytes bytes' f e e'
  wellFormed : WellFormed bytes' f
  taken : ReservedTaken bytes' f
  super : superBlockAt bytes' 512 = superBlockAt bytes 512

/-! ### A new entry -/

/-- What `create_file` does to the bytes of the disk. -/
structure CreateEffect (bytes bytes' : Bytes) (f : SuperBlock) (e : Nat × Nat) (b : Nat)
    (dir : Bytes) : Prop where
  entry : ∀ k < 128, bytes' (entryAt f e + k) = dir k
  clear : attr dir 0 &&& 0x40#8 ≠ 0#8 → ∀ k < 8192, bytes' (f.firstSector b * 512 + k) = 0#8
  table : fat bytes' f b = endMark
  same : ∀ x, (x < entryAt f e ∨ entryAt f e + 128 ≤ x) →
    (x < fatAddr f b ∨ fatAddr f b + 4 ≤ x) →
    (x < f.firstSector b * 512 ∨ f.firstSector b * 512 + 8192 ≤ x) → bytes' x = bytes x

/-- An entry of a directory block and a block, both behind the allocation table. -/
structure PlaceIn (f : SuperBlock) (e : Nat × Nat) (b : Nat) : Prop where
  dir : f.rootBlk ≤ e.1 ∧ e.1 < f.numOfBlk
  range : e.2 < 64
  low : f.rootBlk < b
  high : b < f.numOfBlk

section Apart

variable (heffect : CreateEffect bytes bytes' f e b dir) (hf : Geometry f) (hin : PlaceIn f e b)

include heffect hf hin

/-- Entries of other directory blocks, and the other entries of this one. -/
theorem CreateEffect.entry_same (he' : f.rootBlk ≤ e'.1 ∧ e'.1 < f.numOfBlk) (hrange : e'.2 < 64)
    (hne : e' ≠ e) (hother : e'.1 ≠ b) : SameEntry bytes bytes' f e' := by
  intro k hk
  have he := hin.dir
  have hapart := hf.entries_apart he'.2 he.2 hrange hin.range hne
  have hplaced : f.firstSector e'.1 * 512 ≤ entryAt f e' ∧ _ := entry_in_block hrange
  refine heffect.same _ (by omega) (.inr ?_) ?_
  · have htable := hf.table_before he'
    have hbelow : fatAddr f b + 4 ≤ _ := fat_addr_below hin.high
    omega
  · have hblocks := hf.blocks_apart he'.2 hin.high hother
    omega

/-- The other entries of the allocation table. -/
theorem CreateEffect.fat_same (hc : c < f.numOfBlk) (hne : c ≠ b) :
    fat bytes' f c = fat bytes f c := by
  have hword : fatAddr f c + 4 ≤ _ := fat_addr_below hc
  refine read_word_congr fun k hk => heffect.same (fatAddr f c + k) (.inl ?_) ?_ (.inl ?_)
  · have htable := hf.table_before hin.dir
    have hplaced : f.firstSector e.1 * 512 ≤ entryAt f e ∧ _ := entry_in_block hin.range
    omega
  · unfold fatAddr
    omega
  · have htable := hf.table_before ⟨hin.low.le, hin.high⟩
    omega

/-- The super block. -/
theorem CreateEffect.super_same : superBlockAt bytes' 512 = superBlockAt bytes 512 := by
  have he := hin.dir
  have hhigh := hin.high
  have hstart := hf.behind_super
  refine super_block_congr fun i hi => heffect.same _ ?_ ?_ ?_
  · rw [hf.entry_addr he.2]
    omega
  · rw [fatAddr]
    omega
  · rw [hf.block_addr hhigh]
    omega

end Apart

/-- A free entry of a directory and a free block, which lies behind the root directory. -/
structure FreePlace (bytes : Bytes) (f : SuperBlock) (e : Nat × Nat) (b : Nat) : Prop where
  dir : IsDirBlk bytes f e.1
  range : e.2 < 64
  entry : Cfs.busy bytes (entryAt f e) = 0#8
  low : f.rootBlk < b
  high : b < f.numOfBlk
  block : fat bytes f b = 0

section Create

variable (hf : Geometry f) (hwell : WellFormed bytes f) (htaken : ReservedTaken bytes f)
  (hplace : FreePlace bytes f e b) (heffect : CreateEffect bytes bytes' f e b dir)

include hf hwell htaken hplace heffect

omit htaken heffect in
theorem FreePlace.place_in : PlaceIn f e b :=
  ⟨hwell.dir_range hf hplace.dir, hplace.range, hplace.low, hplace.high⟩

theorem create_others_same : OthersSame bytes bytes' f e := by
  intro e' hdir hrange hne
  have hother : e'.1 ≠ b := fun heq => hwell.dir_taken htaken hdir (heq ▸ hplace.block)
  exact heffect.entry_same hf (hplace.place_in hf hwell) (hwell.dir_range hf hdir) hrange hne hother

omit htaken in
theorem create_fat (hc : c < f.numOfBlk) (hne : c ≠ b) : fat bytes' f c = fat bytes f c :=
  heffect.fat_same hf (hplace.place_in hf hwell) hc hne

/-- The other entries keep their chains and their bytes. -/
theorem create_keeps (hbusy : BusyEntry bytes f e') : Keeps bytes bytes' f e e' := by
  have he := hwell.dir_range hf hplace.dir
  have hhigh := hplace.high
  have hrange := hplace.range
  have hne : e' ≠ e := fun heq => hbusy.busy (heq ▸ hplace.entry)
  have hsame := create_others_same hf hwell htaken hplace heffect e' hbusy.dir hbusy.range hne
  have hother : ∀ l, ChainOf bytes f e' l → ∀ c ∈ l, c ≠ b := fun l hchain c hc heq =>
    hwell.chain_taken hbusy hchain hc (heq ▸ hplace.block)
  refine ⟨hsame, fun l hchain => ?_, fun l hchain c hc k hk hdir => ?_⟩
  · show Chain bytes' f (firstBlk bytes' (entryAt f e')) l
    rw [hsame.first_blk]
    exact hchain.congr fun c hc => create_fat hf hwell hplace heffect
      ((hwell.chain_range hbusy hchain).2 c hc).2 (hother l hchain c hc)
  · have hblock := (hwell.chain_range hbusy hchain).2 c hc
    have hcb := hother l hchain c hc
    refine heffect.same _ (hf.off_entry hblock.2 he.2 hrange hk hdir) (.inr ?_) ?_
    · have htable := hf.table_before ⟨hblock.1.le, hblock.2⟩
      have hbelow : fatAddr f b + 4 ≤ _ := fat_addr_below hhigh
      omega
    · have hblocks := hf.blocks_apart hblock.2 hhigh hcb
      omega

omit hf hwell htaken hplace in
/-- The bytes of the new entry. -/
theorem create_new_entry :
    Cfs.busy bytes' (entryAt f e) = Cfs.busy dir 0 ∧
      Cfs.attr bytes' (entryAt f e) = Cfs.attr dir 0 ∧
      firstBlk bytes' (entryAt f e) = firstBlk dir 0 := by
  have hbyte : ∀ k < 128, bytes' (entryAt f e + k) = dir (0 + k) := fun k hk => by
    rw [heffect.entry k hk, Nat.zero_add]
  refine ⟨hbyte 97 (by omega), hbyte 98 (by omega), read_word_congr fun k hk => ?_⟩
  rw [Nat.add_assoc, Nat.add_assoc]
  exact hbyte _ (by omega)

/-- The busy entries are the new one and those before. -/
theorem create_entries (hbusy : Cfs.busy dir 0 ≠ 0#8) (hfirst : firstBlk dir 0 = b) :
    BusyEntry bytes' f e' ↔ e' = e ∨ BusyEntry bytes f e' := by
  obtain ⟨hnewBusy, hnewAttr, hnewFirst⟩ := create_new_entry heffect
  have hothers := create_others_same hf hwell htaken hplace heffect
  have hempty : Cfs.attr bytes' (entryAt f e) &&& 0x40#8 ≠ 0#8 →
      ∀ i < 64, Cfs.busy bytes' (entryAt f (firstBlk bytes' (entryAt f e), i)) = 0#8 := by
    intro hisdir i hi
    rw [hnewAttr] at hisdir
    rw [hnewFirst, hfirst, Cfs.busy, entryAt, Nat.add_assoc]
    exact heffect.clear hisdir _ (by omega)
  constructor
  · intro h
    by_cases heq : e' = e
    · exact .inl heq
    · obtain hold | ⟨hnew, hisdir⟩ := hothers.dir_of_created hempty h.dir
      · have hsame := hothers e' hold h.range heq
        exact .inr ⟨hold, h.range, hsame.busy ▸ h.busy⟩
      · have hpair : e' = (firstBlk bytes' (entryAt f e), e'.2) := Prod.ext hnew rfl
        exact absurd (hpair ▸ hempty hisdir e'.2 h.range) h.busy
  · rintro (rfl | h)
    · exact ⟨hothers.dir_stays hplace.entry hplace.dir, hplace.range, hnewBusy ▸ hbusy⟩
    · have hne : e' ≠ e := fun heq => h.busy (heq ▸ hplace.entry)
      have hsame := hothers e' h.dir h.range hne
      exact ⟨hothers.dir_stays hplace.entry h.dir, h.range, hsame.busy ▸ h.busy⟩

omit hwell htaken in
/-- The block of the new entry is a chain of its own. -/
theorem create_chain (hfirst : firstBlk dir 0 = b) : ChainOf bytes' f e [b] := by
  obtain ⟨-, -, hnewFirst⟩ := create_new_entry heffect
  have hhigh := hplace.high
  have hsectors := hf.sectors
  refine ⟨hnewFirst.trans hfirst, ?_, heffect.table⟩
  unfold endMark
  omega

/-- The chains of the new file system. -/
theorem create_well_formed (hbusy : Cfs.busy dir 0 ≠ 0#8) (hfirst : firstBlk dir 0 = b) :
    WellFormed bytes' f := by
  have hentries : ∀ e', BusyEntry bytes' f e' ↔ e' = e ∨ BusyEntry bytes f e' := fun _ =>
    create_entries hf hwell htaken hplace heffect hbusy hfirst
  have hnew := create_chain hf hplace heffect hfirst
  have hold : ∀ e' l, BusyEntry bytes f e' → ChainOf bytes' f e' l → ChainOf bytes f e' l := by
    intro e' l h hchain
    obtain ⟨l', hchain', -⟩ := hwell.chain e' h
    have hkept := (create_keeps hf hwell htaken hplace heffect h).chain l' hchain'
    exact hchain.unique hkept ▸ hchain'
  have hapart : ∀ e' l, BusyEntry bytes f e' → ChainOf bytes f e' l → b ∉ l :=
    fun e' l h hchain hmem => hwell.chain_taken h hchain hmem hplace.block
  refine ⟨fun e' h => ?_, fun e₁ e₂ l₁ l₂ h₁ h₂ hne hl₁ hl₂ => ?_⟩
  · obtain rfl | h := (hentries e').mp h
    · exact ⟨[b], hnew, List.cons_ne_nil _ _, fun c hc => by
        rw [List.mem_singleton.mp hc]
        exact ⟨hplace.low, hplace.high⟩⟩
    · obtain ⟨l, hchain, hl⟩ := hwell.chain e' h
      exact ⟨l, (create_keeps hf hwell htaken hplace heffect h).chain l hchain, hl⟩
  · obtain heq₁ | h₁ := (hentries e₁).mp h₁
    · obtain heq₂ | h₂ := (hentries e₂).mp h₂
      · exact absurd (heq₁.trans heq₂.symm) hne
      · subst heq₁
        rw [hl₁.unique hnew, List.singleton_disjoint]
        exact hapart e₂ l₂ h₂ (hold e₂ l₂ h₂ hl₂)
    · obtain heq₂ | h₂ := (hentries e₂).mp h₂
      · subst heq₂
        rw [hl₂.unique hnew, List.disjoint_singleton]
        exact hapart e₁ l₁ h₁ (hold e₁ l₁ h₁ hl₁)
      · exact hwell.disjoint e₁ e₂ l₁ l₂ h₁ h₂ hne (hold e₁ l₁ h₁ hl₁) (hold e₂ l₂ h₂ hl₂)

/-- The new file system. -/
theorem create_spec (hbusy : Cfs.busy dir 0 ≠ 0#8) (hfirst : firstBlk dir 0 = b) :
    Created bytes bytes' f e dir where
  free := hplace.entry
  busy := (create_entries hf hwell htaken hplace heffect hbusy hfirst).mpr (.inl rfl)
  entry := heffect.entry
  block := hfirst ▸ hplace.block
  chain := by
    rw [hfirst]
    exact create_chain hf hplace heffect hfirst
  table := by
    rw [hfirst]
    exact fun c hc hne => create_fat hf hwell hplace heffect hc hne
  entries := fun e' => create_entries hf hwell htaken hplace heffect hbusy hfirst
  others := fun e' h => create_keeps hf hwell htaken hplace heffect h
  wellFormed := create_well_formed hf hwell htaken hplace heffect hbusy hfirst
  taken := by
    intro c hc
    have hlow := hplace.low
    have hroot := hf.root
    rw [create_fat hf hwell hplace heffect (by omega) (by omega)]
    exact htaken c hc
  super := heffect.super_same hf (hplace.place_in hf hwell)

end Create

/-! ### What `create_file` does to the bytes -/

theorem cleared_ok (n : Nat) : cleared n [] = n := by
  induction n with
  | zero => rfl
  | succ n ih =>
      show cleared n [] + 1 = n + 1
      rw [ih]

/-- The directory mark of an attribute is in its low byte. -/
theorem dir_mark_byte (attr : BitVec 32) :
    attr.setWidth 8 &&& 0x40#8 ≠ 0#8 ↔ attr &&& 0x40#32 ≠ 0#32 := by
  have hzero : attr.setWidth 8 &&& 0x40#8 = 0#8 ↔ attr &&& 0x40#32 = 0#32 := by
    rw [← BitVec.toNat_inj, ← BitVec.toNat_inj, BitVec.toNat_and, BitVec.toNat_and,
      BitVec.toNat_setWidth]
    show attr.toNat % 2 ^ 8 &&& 2 ^ 6 = 0 ↔ attr.toNat &&& 2 ^ 6 = 0
    rw [Nat.and_comm, Nat.two_pow_and, Nat.and_comm, Nat.two_pow_and, Nat.testBit_mod_two_pow]
    simp
  exact hzero.not

/-- The attribute byte of the new entry. -/
theorem new_entry_attr {path : List Byte} {attr : BitVec 32} {i : Nat} :
    Cfs.attr (newEntry path attr i b) 0 = attr.setWidth 8 := by
  unfold newEntry Cfs.attr
  rw [write_word_outside (by omega), Function.update_self]

/-- The sectors of the allocation table, as `search_blk_null` goes through them. -/
theorem Geometry.table_addr (hf : Geometry f) (hb : b < f.numOfBlk) :
    tableAddr f b = fatAddr f b := by
  have hsectors := hf.sectors
  have hdata := hf.toFormatted.data_sector
  rw [tableAddr, chunkSector, fatAddr, Nat.mod_eq_of_lt (by omega)]
  omega

/-- A free block lies behind the root directory. -/
theorem ReservedTaken.free_behind (h : ReservedTaken bytes f) (hfree : fat bytes f b = 0) :
    f.rootBlk < b := by
  by_contra hle
  exact h b (by omega) hfree

/-- The sectors that are cleared for a new directory on a disk without faults. -/
theorem cleared_sectors_ok (hf : Geometry f) {D : Nat} {attr : BitVec 32} {m : Nat} :
    clearedSectors { f with rootBlk := D } attr (([] : List Bool).drop m) =
      if attr &&& 0x40#32 ≠ 0#32 then 16 else 0 := by
  rw [clearedSectors, List.drop_nil, cleared_ok]
  exact if_congr Iff.rfl hf.sectorPerBlk rfl

/-- The sectors of a block. -/
theorem Geometry.sector_of_block (hf : Geometry f) (hb : b < f.numOfBlk) {n x : Nat} (hn : n ≤ 16) :
    (∃ j < n, (f.firstSector b + j) % 2 ^ 32 = x / 512) ↔
      f.firstSector b * 512 ≤ x ∧ x < f.firstSector b * 512 + n * 512 := by
  have hsectors := hf.sectors
  have hdata := hf.toFormatted.data_sector
  have hfirst := hf.toFormatted.first_sector hb
  constructor
  · intro ⟨j, hj, hsector⟩
    rw [Nat.mod_eq_of_lt (by omega)] at hsector
    omega
  · intro hx
    refine ⟨x / 512 - f.firstSector b, by omega, ?_⟩
    rw [Nat.mod_eq_of_lt (by omega)]
    omega

section Effect

variable {path : List Byte} {attr : BitVec 32} {blk heap : Bytes} {D i : Nat} {ready : Disk}

/-- The directory block as it was read. -/
theorem same_directory_byte (hf : Geometry f) (D : Nat) (bytes heap : Bytes) {x : Nat}
    (hx : x < 8192) :
    directoryBlock ⟨bytes, []⟩ { f with rootBlk := D } heap x =
      bytes (f.firstSector D * 512 + x) := by
  refine directory_block_inside heap ?_
  show x < f.sectorPerBlk * 512
  rw [hf.sectorPerBlk]
  exact hx

/-- The entry and the block that a call takes. -/
theorem alloc_place (hf : Geometry f)
    (halloc : Allocates { f with rootBlk := D } heap ⟨bytes, []⟩ i b) :
    i < 64 ∧ Cfs.busy bytes (entryAt f (D, i)) = 0#8 ∧ b < f.numOfBlk ∧ fat bytes f b = 0 := by
  have hhigh : b < f.numOfBlk := by
    have hbelow := halloc.free.high
    rwa [Nat.zero_add] at hbelow
  have hfree : fat bytes f b = 0 := by
    rw [fat, ← fatAddr, ← hf.table_addr hhigh]
    exact halloc.free.free
  have hrange := halloc.range
  have hunused := halloc.unused
  rw [Cfs.busy, same_directory_byte hf D bytes heap (by omega), ← Nat.add_assoc] at hunused
  exact ⟨hrange, hunused, hhigh, hfree⟩

/-- The bytes of the disk before the directory block is written. -/
theorem Prepared.byte (h : Prepared { f with rootBlk := D } attr ⟨bytes, []⟩ b ready)
    (hf : Geometry f) (hb : b < f.numOfBlk) (x : Nat) :
    ready.bytes x =
      if attr &&& 0x40#32 ≠ 0#32 ∧ f.firstSector b * 512 ≤ x ∧ x < f.firstSector b * 512 + 8192
        then 0#8
      else writeWord bytes (fatAddr f b) endMark x := by
  rw [h.bytes x]
  show (if ∃ j < clearedSectors { f with rootBlk := D } attr (([] : List Bool).drop (b / 512 + 3)),
      (f.firstSector b + j) % 2 ^ 32 = x / 512 then 0#8
    else writeWord bytes (tableAddr f b) endMark x) = _
  rw [cleared_sectors_ok hf, hf.table_addr hb]
  by_cases hisdir : attr &&& 0x40#32 ≠ 0#32
  · rw [if_pos hisdir]
    refine if_congr ?_ rfl rfl
    rw [hf.sector_of_block hb (le_refl 16), and_iff_right hisdir]
  · rw [if_neg hisdir, if_neg (by simp), if_neg (fun h => hisdir h.1)]

/-- The three places that a call writes to. -/
theorem create_effect (path : List Byte) (heap : Bytes) (hf : Geometry f) (hD : D < f.numOfBlk)
    (hroot : f.rootBlk ≤ D) (hi : i < 64) (hlow : f.rootBlk < b) (hb : b < f.numOfBlk)
    (hother : D ≠ b) (hready : Prepared { f with rootBlk := D } attr ⟨bytes, []⟩ b ready) :
    CreateEffect bytes (copyBytes ready.bytes (f.firstSector D * 512)
      (newDirectory { f with rootBlk := D } path attr heap ⟨bytes, []⟩ i b) 0 (16 * 512)) f (D, i) b
      (newEntry path attr i b) := by
  have htable := hf.table
  have hentry : entryAt f (D, i) = f.firstSector D * 512 + i * 128 := rfl
  -- the addresses of the three places, relative to the start of the table
  obtain ⟨start, hdirAt, hblockAt, hfatAt⟩ : ∃ start, f.firstSector D * 512 = start + 8192 * D ∧
      f.firstSector b * 512 = start + 8192 * b ∧ fatAddr f b = start + 4 * b :=
    ⟨_, hf.block_addr hD, hf.block_addr hb, rfl⟩
  have hbyte := hready.byte hf hb
  refine ⟨fun k hk => ?_, fun hisdir k hk => ?_, ?_, fun x hx₁ hx₂ hx₃ => ?_⟩
  · rw [hentry, Nat.add_assoc, copy_bytes_start (by omega)]
    exact new_directory_entry hk
  · rw [new_entry_attr, dir_mark_byte] at hisdir
    rw [copy_bytes_outside (by omega), hbyte, if_pos ⟨hisdir, by omega, by omega⟩]
  · show fat _ f b = endMark
    have hword : fat (copyBytes ready.bytes (f.firstSector D * 512)
        (newDirectory { f with rootBlk := D } path attr heap ⟨bytes, []⟩ i b) 0 (16 * 512)) f b =
        fat (writeWord bytes (fatAddr f b) endMark) f b := by
      refine read_word_congr fun k hk => ?_
      rw [← fatAddr, copy_bytes_outside (by omega), hbyte, if_neg]
      intro hin
      omega
    rw [hword]
    exact fat_write_same (by decide)
  · by_cases hin : f.firstSector D * 512 ≤ x ∧ x < f.firstSector D * 512 + 16 * 512
    · -- in the directory block, which is written back as it was read
      obtain ⟨y, rfl⟩ := Nat.exists_eq_add_of_le hin.1
      rw [copy_bytes_start (by omega), newDirectory, copy_bytes_outside (by omega),
        same_directory_byte hf D bytes heap (by omega)]
    · have hblock : ¬ (attr &&& 0x40#32 ≠ 0#32 ∧ f.firstSector b * 512 ≤ x ∧
          x < f.firstSector b * 512 + 8192) := fun h => hx₃.elim (not_lt.mpr h.2.1) (not_le.mpr h.2.2)
      rw [not_and_or, not_le, not_lt] at hin
      rw [copy_bytes_outside hin, hbyte, if_neg hblock, write_word_outside hx₂]

/-- A call on a disk without faults takes a free entry and a free block, or it returns an error and
leaves the bytes as they are. -/
theorem create_file_run (hf : Geometry f) (htaken : ReservedTaken bytes f) (hD : D < f.numOfBlk)
    (hroot : f.rootBlk ≤ D) (hused : fat bytes f D ≠ 0) :
    (∃ i b bytes', i < 64 ∧ Cfs.busy bytes (entryAt f (D, i)) = 0#8 ∧ f.rootBlk < b ∧
      b < f.numOfBlk ∧ fat bytes f b = 0 ∧
      createFile { f with rootBlk := D } path attr blk heap ⟨bytes, []⟩ =
        (0, newEntry path attr i b, ⟨bytes', []⟩) ∧
      CreateEffect bytes bytes' f (D, i) b (newEntry path attr i b)) ∨
    ((createFile { f with rootBlk := D } path attr blk heap ⟨bytes, []⟩).1 ≠ 0 ∧
      (createFile { f with rootBlk := D } path attr blk heap ⟨bytes, []⟩).2.2.bytes = bytes) := by
  have hsectors := hf.sectors
  obtain ⟨i, b, ready, halloc, hready, hrun⟩ | ⟨-, herror, hsame⟩ := create_file_cases
    (f := { f with rootBlk := D }) (show f.numOfBlk < 2 ^ 32 by omega) path attr blk heap ⟨bytes, []⟩
  · obtain ⟨hrange, hunused, hhigh, hfree⟩ := alloc_place hf halloc
    have hlow := htaken.free_behind hfree
    have hother : D ≠ b := fun heq => hused (heq ▸ hfree)
    have hfails : ready.fails = [] := by
      rw [hready.fails]
      exact List.drop_nil
    refine .inl ⟨i, b, _, hrange, hunused, hlow, hhigh, hfree, ?_,
      create_effect path heap hf hD hroot hrange hlow hhigh hother hready⟩
    rw [hrun]
    show (0, newEntry path attr i b, (writeSector ready f.sectorPerBlk (f.firstSector D) _).2) = _
    rw [write_sector_ok hfails, hf.sectorPerBlk, hfails]
  · exact .inr ⟨herror, hsame⟩

/-- A call that returns 0, on a disk without faults. -/
theorem create_file_effect (hf : Geometry f) (hwell : WellFormed bytes f)
    (htaken : ReservedTaken bytes f) (hdir : IsDirBlk bytes f D)
    (hzero : (createFile { f with rootBlk := D } path attr blk heap ⟨bytes, []⟩).1 = 0) :
    ∃ i, Created bytes
      (createFile { f with rootBlk := D } path attr blk heap ⟨bytes, []⟩).2.2.bytes f (D, i)
      (createFile { f with rootBlk := D } path attr blk heap ⟨bytes, []⟩).2.1 := by
  have hrange := hwell.dir_range hf hdir
  have hsectors := hf.sectors
  obtain ⟨i, b, bytes', hi, hunused, hlow, hhigh, hfree, hrun, heffect⟩ | ⟨herror, -⟩ :=
    create_file_run hf htaken hrange.2 hrange.1 (hwell.dir_taken htaken hdir)
  · refine ⟨i, ?_⟩
    rw [hrun]
    refine create_spec hf hwell htaken ⟨hdir, hi, hunused, hlow, hhigh, hfree⟩ heffect ?_
      (new_entry_first_blk (by omega))
    rw [new_entry_busy]
    decide
  · exact absurd hzero herror

end Effect

end Sirius.Cfs.User
