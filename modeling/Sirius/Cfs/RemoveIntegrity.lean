import Sirius.Cfs.WellFormed

/-!
# Well-formedness after `remove_file`

`remove_file` clears the busy mark of one entry and the table entries of its chain. The file system
stays well formed, and every other entry keeps its chain and its bytes.
-/

namespace Sirius.Cfs.User

open Library

variable {bytes bytes' : Bytes} {f : SuperBlock} {e e' : Nat × Nat} {b c k : Nat} {l : List Nat}

/-- Entry `e` was removed: it was busy with the chain `l`, and it is not busy now. Exactly the table
entries of `l` are free now in addition. -/
structure Removed (bytes bytes' : Bytes) (f : SuperBlock) (e : Nat × Nat) (l : List Nat) : Prop where
  found : BusyEntry bytes f e
  chain : ChainOf bytes f e l
  gone : Cfs.busy bytes' (entryAt f e) = 0#8
  table : ∀ c < f.numOfBlk, fat bytes' f c = if c ∈ l then 0 else fat bytes f c
  entries : ∀ e', BusyEntry bytes' f e' → e' ≠ e ∧ BusyEntry bytes f e'
  stays : attr bytes (entryAt f e) &&& 0x40#8 = 0#8 →
    ∀ e', e' ≠ e → BusyEntry bytes f e' → BusyEntry bytes' f e'
  others : ∀ e', e' ≠ e → BusyEntry bytes f e' → Keeps bytes bytes' f e e'
  wellFormed : WellFormed bytes' f
  taken : ReservedTaken bytes' f
  super : superBlockAt bytes' 512 = superBlockAt bytes 512

/-! ### A cleared entry -/

/-- What `remove_file` does to the bytes of the disk. -/
structure RemoveEffect (bytes bytes' : Bytes) (f : SuperBlock) (e : Nat × Nat) (l : List Nat) :
    Prop where
  gone : Cfs.busy bytes' (entryAt f e) = 0#8
  table : ∀ c < f.numOfBlk, fat bytes' f c = if c ∈ l then 0 else fat bytes f c
  same : ∀ x, x ≠ entryAt f e + 97 → (x < fatAddr f 0 ∨ fatAddr f f.numOfBlk ≤ x) →
    bytes' x = bytes x

section Remove

variable (hf : Geometry f) (hwell : WellFormed bytes f) (hfound : BusyEntry bytes f e)
  (hchain : ChainOf bytes f e l) (heffect : RemoveEffect bytes bytes' f e l)

include hf hwell hfound heffect

theorem remove_others_same : OthersSame bytes bytes' f e := by
  intro e' hdir hrange hne k hk
  have he := hwell.dir_range hf hfound.dir
  have he' := hwell.dir_range hf hdir
  have hapart := hf.entries_apart he'.2 he.2 hrange hfound.range hne
  have htable := hf.table_before he'
  have hplaced : f.firstSector e'.1 * 512 ≤ entryAt f e' ∧ _ := entry_in_block hrange
  exact heffect.same _ (by omega) (.inr (by omega))

include hchain

omit hf in
/-- The table entries of another chain stay. -/
theorem remove_chain_fat (hbusy : BusyEntry bytes f e') (hne : e' ≠ e) {l' : List Nat}
    (hchain' : ChainOf bytes f e' l') (hc : c ∈ l') : fat bytes' f c = fat bytes f c := by
  have hblock := (hwell.chain_range hbusy hchain').2 c hc
  rw [heffect.table c hblock.2, if_neg]
  exact fun hmem => hwell.disjoint e' e l' l hbusy hfound hne hchain' hchain hc hmem

/-- The other entries keep their chains and their bytes. -/
theorem remove_keeps (hbusy : BusyEntry bytes f e') (hne : e' ≠ e) :
    Keeps bytes bytes' f e e' := by
  have he := hwell.dir_range hf hfound.dir
  have hrange := hfound.range
  have hsame := remove_others_same hf hwell hfound heffect e' hbusy.dir hbusy.range hne
  refine ⟨hsame, fun l' hchain' => ?_, fun l' hchain' c hc k hk hdir => ?_⟩
  · show Chain bytes' f (firstBlk bytes' (entryAt f e')) l'
    rw [hsame.first_blk]
    exact hchain'.congr fun c hc =>
      remove_chain_fat hwell hfound hchain heffect hbusy hne hchain' hc
  · have hblock := (hwell.chain_range hbusy hchain').2 c hc
    have hout := hf.off_entry hblock.2 he.2 hrange hk hdir
    have htable := hf.table_before ⟨hblock.1.le, hblock.2⟩
    exact heffect.same _ (by omega) (.inr (htable.trans (Nat.le_add_right _ _)))

omit hchain in
/-- Nothing becomes busy. -/
theorem remove_entries (hbusy : BusyEntry bytes' f e') : e' ≠ e ∧ BusyEntry bytes f e' := by
  have hne : e' ≠ e := fun heq => hbusy.busy (heq ▸ heffect.gone)
  have hothers := remove_others_same hf hwell hfound heffect
  have hdir := hothers.dir_of_removed heffect.gone hbusy.dir
  have hsame := hothers e' hdir hbusy.range hne
  exact ⟨hne, hdir, hbusy.range, hsame.busy ▸ hbusy.busy⟩

/-- The chains of the file system that is left. -/
theorem remove_well_formed : WellFormed bytes' f := by
  have hentries := fun e' (h : BusyEntry bytes' f e') =>
    remove_entries hf hwell hfound heffect h
  have hold : ∀ e' l', BusyEntry bytes' f e' → ChainOf bytes' f e' l' → ChainOf bytes f e' l' := by
    intro e' l' h hchain'
    obtain ⟨hne, hbusy⟩ := hentries e' h
    obtain ⟨l₀, hchain₀, -⟩ := hwell.chain e' hbusy
    have hkept := (remove_keeps hf hwell hfound hchain heffect hbusy hne).chain l₀ hchain₀
    exact hchain'.unique hkept ▸ hchain₀
  refine ⟨fun e' h => ?_, fun e₁ e₂ l₁ l₂ h₁ h₂ hne hl₁ hl₂ => ?_⟩
  · obtain ⟨hne, hbusy⟩ := hentries e' h
    obtain ⟨l', hchain', hl'⟩ := hwell.chain e' hbusy
    exact ⟨l', (remove_keeps hf hwell hfound hchain heffect hbusy hne).chain l' hchain', hl'⟩
  · exact hwell.disjoint e₁ e₂ l₁ l₂ (hentries e₁ h₁).2 (hentries e₂ h₂).2 hne
      (hold e₁ l₁ h₁ hl₁) (hold e₂ l₂ h₂ hl₂)

/-- The file system that is left. -/
theorem remove_spec (htaken : ReservedTaken bytes f) : Removed bytes bytes' f e l where
  found := hfound
  chain := hchain
  gone := heffect.gone
  table := heffect.table
  entries := fun e' h => remove_entries hf hwell hfound heffect h
  stays := by
    intro hfile e' hne hbusy
    have hothers := remove_others_same hf hwell hfound heffect
    have hsame := hothers e' hbusy.dir hbusy.range hne
    exact ⟨hothers.dir_stays_of_file hfile hbusy.dir, hbusy.range, hsame.busy ▸ hbusy.busy⟩
  others := fun e' hne h => remove_keeps hf hwell hfound hchain heffect h hne
  wellFormed := remove_well_formed hf hwell hfound hchain heffect
  taken := by
    intro c hc
    have hroot := hf.root
    rw [heffect.table c (by omega), if_neg]
    · exact htaken c hc
    · intro hmem
      have hlow := ((hwell.chain_range hfound hchain).2 c hmem).1
      omega
  super := by
    have he := hwell.dir_range hf hfound.dir
    have hstart := hf.behind_super
    refine super_block_congr fun i hi => heffect.same _ ?_ (.inl ?_)
    · rw [hf.entry_addr he.2]
      omega
    · rw [fatAddr]
      omega

end Remove

/-! ### Directory blocks in memory -/

/-- `root` holds the directory block `d`. -/
def HoldsDir (root bytes : Bytes) (f : SuperBlock) (d : Nat) : Prop :=
  ∀ k < 8192, root k = bytes (f.firstSector d * 512 + k)

section Directory

variable {root heap blk : Bytes} {d i n : Nat} {disk : Disk} {tpath filename : List Byte}

theorem holds_dir_read (hsectors : f.sectorPerBlk = 16) (root bytes : Bytes) (d : Nat) :
    HoldsDir (copyBytes root 0 bytes (f.firstSector d * 512) (f.sectorPerBlk * 512)) bytes f d := by
  intro k hk
  rw [hsectors]
  have hcopy : copyBytes root 0 bytes (f.firstSector d * 512) (16 * 512) (0 + k) =
      bytes (f.firstSector d * 512 + k) := copy_bytes_inside (by omega)
  rwa [Nat.zero_add] at hcopy

/-- A byte of entry `i`. -/
theorem HoldsDir.byte (h : HoldsDir root bytes f d) (hi : i < 64) (hk : k < 128) :
    root (i * 128 + k) = bytes (entryAt f (d, i) + k) := by
  rw [h _ (by omega), entryAt, Nat.add_assoc]

theorem HoldsDir.busy (h : HoldsDir root bytes f d) (hi : i < 64) :
    Cfs.busy root (i * 128) = Cfs.busy bytes (entryAt f (d, i)) := h.byte hi (by omega)

theorem HoldsDir.attr (h : HoldsDir root bytes f d) (hi : i < 64) :
    Cfs.attr root (i * 128) = Cfs.attr bytes (entryAt f (d, i)) := h.byte hi (by omega)

theorem HoldsDir.first_blk (h : HoldsDir root bytes f d) (hi : i < 64) :
    firstBlk root (i * 128) = firstBlk bytes (entryAt f (d, i)) :=
  read_word_congr fun k hk => by
    rw [Nat.add_assoc, Nat.add_assoc]
    exact h.byte hi (by omega)

/-- The loop of `read_directory_blk` ends at a directory block or at 0. The induction is on the
components of the path. -/
theorem directory_loop_spec (hf : Geometry f) (hok : disk.fails = []) (count : Nat) :
    ∀ (tpath : List Byte) (r : Nat) (root : Bytes), IsDirBlk disk.bytes f r →
    ∃ d, directoryLoop f count tpath r (f.firstSector r) root disk = (d, disk) ∧
      (d = 0 ∨ IsDirBlk disk.bytes f d) := by
  induction count with
  | zero => exact fun tpath r root hr => ⟨r, rfl, .inr hr⟩
  | succ count ih =>
      intro tpath r root hr
      have hholds := holds_dir_read hf.sectorPerBlk root disk.bytes r
      rw [directoryLoop, read_sector_ok hok]
      simp only [ne_eq, not_true_eq_false, if_false]
      generalize copyBytes root 0 disk.bytes (f.firstSector r * 512) (f.sectorPerBlk * 512) = root'
        at hholds ⊢
      obtain ⟨i, hi, hmatch, hfirst⟩ | habsent :=
        first_or_absent (directoryCmp root' (tpath.takeWhile (· ≠ slash)))
      · rw [search_entries_found _ 0 (Nat.zero_le i) (by omega) hmatch fun j _ hj => hfirst j hj]
        have hentry : Cfs.busy root' (i * 128) ≠ 0#8 ∧ Cfs.attr root' (i * 128) &&& 0x40#8 ≠ 0#8 := by
          by_contra hnot
          rw [directoryCmp, if_neg hnot] at hmatch
          cases hmatch
        rw [hholds.busy hi, hholds.attr hi] at hentry
        simp only [hi, and_self, if_true, hholds.first_blk hi]
        exact ih _ _ root' (.sub (e := (r, i)) hr hi hentry.1 hentry.2)
      · rw [search_entries_absent _ 63 0 0 fun j _ hj => habsent j (by omega)]
        exact ⟨0, if_neg fun h => by omega, .inl rfl⟩

/-- `read_directory_blk` on a disk without faults. -/
theorem read_directory_blk_spec (hf : Geometry f) (hok : disk.fails = []) (tpath : List Byte)
    (root : Bytes) :
    ∃ d, readDirectoryBlk f tpath root disk = (d, disk) ∧ (d = 0 ∨ IsDirBlk disk.bytes f d) :=
  directory_loop_spec hf hok (pathCount tpath) tpath f.rootBlk root .root

/-! ### What `remove_file` does to the bytes -/

/-- Writing the directory block back clears one byte. -/
theorem write_directory (hf : Geometry f) (hholds : HoldsDir root bytes f d) (hi : i < 64) :
    copyBytes bytes (f.firstSector d * 512) (Function.update root (i * 128 + 97) 0#8) 0
      (f.sectorPerBlk * 512) = Function.update bytes (entryAt f (d, i) + 97) 0#8 := by
  rw [hf.sectorPerBlk, entryAt, Nat.add_assoc]
  exact copy_update hholds (by omega)

/-- The busy mark of an entry lies behind the allocation table. -/
theorem fat_mark_cleared (hf : Geometry f) (he : e.1 < f.numOfBlk) (hroot : f.rootBlk ≤ e.1)
    (hc : c < f.numOfBlk) :
    fat (Function.update bytes (entryAt f e + 97) 0#8) f c = fat bytes f c := by
  have htable := hf.table_before ⟨hroot, he⟩
  have hbelow : fatAddr f c + 4 ≤ _ := fat_addr_below hc
  have hplaced : entryAt f e = f.firstSector e.1 * 512 + e.2 * 128 := rfl
  refine read_update_word (a := fatAddr f c) (.inr ?_)
  omega

/-- The two places that a call writes to. -/
theorem remove_effect (hf : Geometry f) (hwell : WellFormed bytes f) (hfound : BusyEntry bytes f e)
    (hchain : ChainOf bytes f e l) :
    RemoveEffect bytes (freed f l (Function.update bytes (entryAt f e + 97) 0#8)) f e l := by
  have he := hwell.dir_range hf hfound.dir
  have hrange := (hwell.chain_range hfound hchain).2
  have hbehind : fatAddr f f.numOfBlk ≤ entryAt f e :=
    (hf.table_before he).trans (entry_in_block hfound.range).1
  have hout : ∀ x, (x < fatAddr f 0 ∨ fatAddr f f.numOfBlk ≤ x) →
      freed f l (Function.update bytes (entryAt f e + 97) 0#8) x =
        Function.update bytes (entryAt f e + 97) 0#8 x :=
    fun x hx => freed_outside (fun b hb => (hrange b hb).2) hx
  refine ⟨?_, fun c hc => ?_, fun x hne hx => ?_⟩
  · rw [Cfs.busy, hout _ (.inr (by omega)), Function.update_self]
  · rw [fat_freed, fat_mark_cleared hf he.2 he.1 hc]
  · rw [hout x hx, Function.update_of_ne hne]

/-- `remove_blk` on the chain of an entry. Its super block may have another root directory. -/
theorem remove_blk_spec (hf : Geometry f) (hchain : Chain bytes f b l) (hne : l ≠ [])
    (hrange : ∀ c ∈ l, c < f.numOfBlk) (hn : f.numOfBlk ≤ n) (d : Nat) (blk : Bytes) :
    removeBlk n b { f with rootBlk := d } blk ⟨bytes, []⟩ = some (0, ⟨freed f l bytes, []⟩) := by
  have hf' : Formatted { f with rootBlk := d } :=
    ⟨hf.bytePerSector, hf.sectorPerBlk, hf.dataSector, hf.sectors⟩
  -- the blocks of a chain differ, so there are not more than the disk has
  have hlength : l.length ≤ f.numOfBlk := by
    have hsub : l ⊆ List.range f.numOfBlk := fun c hc => List.mem_range.mpr (hrange c hc)
    have hle := (hchain.nodup.subperm hsub).length_le
    rwa [List.length_range] at hle
  exact remove_loop_spec hf' l n b endMark _ 0 blk bytes ⟨bytes, []⟩ hchain hne hrange
    (hlength.trans hn) rfl (.inl ⟨rfl, rfl, rfl⟩)

/-- A call finds a busy entry, clears its mark and frees its chain, or it returns an error and leaves
the disk unchanged. -/
theorem remove_entry_cases (hsuper : superBlockAt bytes 512 = f) (hf : Geometry f)
    (hwell : WellFormed bytes f) (hn : f.numOfBlk ≤ n) (tpath filename : List Byte)
    (heap root blk : Bytes) :
    (∃ e l, (readDirectoryBlk f tpath heap ⟨bytes, []⟩).1 = e.1 ∧ BusyEntry bytes f e ∧
      ChainOf bytes f e l ∧ filenameCmp bytes (entryAt f e) (stringBytes filename) = 0 ∧
      removeEntry n tpath filename heap root blk ⟨bytes, []⟩ =
        some (0, ⟨freed f l (Function.update bytes (entryAt f e + 97) 0#8), []⟩)) ∨
    ∃ r, r ≠ 0 ∧ removeEntry n tpath filename heap root blk ⟨bytes, []⟩ = some (r, ⟨bytes, []⟩) := by
  obtain ⟨d, hread, hdir⟩ : ∃ d, readDirectoryBlk f tpath heap ⟨bytes, []⟩ = (d, ⟨bytes, []⟩) ∧
      (d = 0 ∨ IsDirBlk bytes f d) := read_directory_blk_spec hf rfl tpath heap
  unfold removeEntry
  rw [read_super_block_ok rfl]
  simp only [hsuper, hread, ne_eq, not_true_eq_false, if_false]
  by_cases hnone : d = 0
  · rw [if_pos hnone]
    exact .inr ⟨-1, by omega, rfl⟩
  rw [if_neg hnone]
  replace hdir := hdir.resolve_left hnone
  have hd := hwell.dir_range hf hdir
  have hholds : HoldsDir (copyBytes (fillBytes root 0 8192 0) 0 bytes (f.firstSector d * 512)
      (f.sectorPerBlk * 512)) bytes f d := holds_dir_read hf.sectorPerBlk _ bytes d
  have hroot : readRoot ⟨bytes, []⟩ { f with rootBlk := d } root = (0, copyBytes
      (fillBytes root 0 8192 0) 0 bytes (f.firstSector d * 512) (f.sectorPerBlk * 512),
      ⟨bytes, []⟩) := read_sector_ok rfl
  generalize copyBytes (fillBytes root 0 8192 0) 0 bytes (f.firstSector d * 512)
    (f.sectorPerBlk * 512) = block at hholds hroot
  simp only [hroot, not_true_eq_false, if_false]
  -- the search over the entries of the directory
  obtain ⟨i, hi, hmatch, hfirst⟩ | habsent := first_or_absent (removeCmp block filename)
  · rw [search_entries_found _ 0 (Nat.zero_le i) (by omega) hmatch fun j _ hj => hfirst j hj]
    have hbusy : Cfs.busy block (i * 128) ≠ 0#8 := by
      intro hfree
      rw [removeCmp, if_neg (not_not.mpr hfree)] at hmatch
      cases hmatch
    rw [removeCmp, if_pos hbusy, filename_cmp_congr fun k hk => hholds.byte hi (by omega)] at hmatch
    rw [hholds.busy hi] at hbusy
    have hfound : BusyEntry bytes f (d, i) := ⟨hdir, hi, hbusy⟩
    obtain ⟨l, hchain, hne, hrange⟩ := hwell.chain _ hfound
    refine .inl ⟨(d, i), l, rfl, hfound, hchain, hmatch, ?_⟩
    have hwrite : writeSector ⟨bytes, []⟩ f.sectorPerBlk
        (SuperBlock.firstSector { f with rootBlk := d } d)
        (Function.update block (i * 128 + 97) 0#8) =
        (0, ⟨Function.update bytes (entryAt f (d, i) + 97) 0#8, []⟩) := by
      show writeSector _ _ (f.firstSector d) _ = _
      rw [write_sector_ok rfl, write_directory hf hholds hi]
    have hblk : firstBlk (Function.update block (i * 128 + 97) 0#8) (i * 128) =
        firstBlk bytes (entryAt f (d, i)) := by
      rw [← hholds.first_blk hi]
      exact read_update_word (.inl (by omega))
    have hkept : ChainOf bytes f (d, i) l → Chain
        (Function.update bytes (entryAt f (d, i) + 97) 0#8) f (firstBlk bytes (entryAt f (d, i))) l :=
      fun h => h.congr fun c hc => fat_mark_cleared hf hd.2 hd.1 (hrange c hc).2
    simp only [not_true_eq_false, if_false, hwrite, hblk]
    exact remove_blk_spec hf (hkept hchain) hne (fun c hc => (hrange c hc).2) hn d blk
  · rw [search_entries_absent _ 63 0 0 fun j _ hj => habsent j (by omega)]
    have hlast : removeCmp block filename (0 + 63) ≠ 0 := habsent _ (by omega)
    simp only [hlast, not_false_eq_true, if_true]
    exact .inr ⟨_, hlast, rfl⟩

end Directory

end Sirius.Cfs.User
