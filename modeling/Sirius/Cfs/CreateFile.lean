import Sirius.Cfs.Lookup
import Sirius.Cfs.Names
import Sirius.Cfs.OpenFile

/-!
# Creating a file in the user library

`create_file` reads the directory block, lets `search_blk_null` mark the first free block in the
allocation table, clears the block of a new directory, and writes the directory block with the new
entry. The allocation table is searched through `_BLK_`, which holds four sectors of it. Every
request to the disk may fail; the lemmas say what a call does then.
-/

namespace Sirius.Cfs

open Library

/-! ### Requests that may fail -/

namespace Disk

/-- The `k`-th of the coming requests fails. -/
def Faulty (disk : Disk) (k : Nat) : Prop := disk.fails.getD k false = true

/-- The next `k` requests succeed. -/
def Serves (disk : Disk) (k : Nat) : Prop := ∀ j < k, ¬ disk.Faulty j

/-- The disk `k` requests later, as far as the outcomes go. -/
def skip (disk : Disk) (k : Nat) : Disk := { disk with fails := disk.fails.drop k }

variable {disk : Disk} {count addr j k : Nat} {buffer : Bytes}

@[simp] theorem skip_bytes : (disk.skip k).bytes = disk.bytes := rfl

theorem skip_skip : (disk.skip j).skip k = disk.skip (j + k) := by
  simp only [skip, List.drop_drop]

theorem faulty_skip : (disk.skip k).Faulty j ↔ disk.Faulty (k + j) := by
  simp [Faulty, skip, List.getD_eq_getElem?_getD]

theorem serves_skip (h : disk.Serves k) : (disk.skip k).Serves j ↔ disk.Serves (k + j) := by
  constructor
  · intro hserves i hi hfault
    by_cases hik : i < k
    · exact h i hik hfault
    · refine hserves (i - k) (by omega) (faulty_skip.mpr ?_)
      rwa [Nat.add_sub_cancel' (by omega)]
  · intro hserves i hi hfault
    exact hserves (k + i) (by omega) (faulty_skip.mp hfault)

theorem Serves.mono (h : disk.Serves k) (hle : j ≤ k) : disk.Serves j :=
  fun i hi => h i (by omega)

theorem serves_one : disk.Serves 1 ↔ ¬ disk.Faulty 0 := by
  constructor
  · exact fun h => h 0 (by omega)
  · intro h i hi
    rwa [show i = 0 by omega]

theorem faulty_zero : disk.fails.headD false = true ↔ disk.Faulty 0 := by
  rw [Faulty]
  cases disk.fails <;> rfl

/-- A read that succeeds. -/
theorem read_sector_served (h : ¬ disk.Faulty 0) :
    readSector disk count addr buffer =
      (0, copyBytes buffer 0 disk.bytes (addr * 512) (count * 512), disk.skip 1) := by
  rw [readSector, if_neg (mt faulty_zero.mp h), skip, List.drop_one]

/-- A read that fails. -/
theorem read_sector_faulty (h : disk.Faulty 0) :
    readSector disk count addr buffer = (-1, buffer, disk.skip 1) := by
  rw [readSector, if_pos (faulty_zero.mpr h), skip, List.drop_one]

/-- A write that succeeds. -/
theorem write_sector_served (h : ¬ disk.Faulty 0) :
    writeSector disk count addr buffer =
      (0, { disk.skip 1 with
        bytes := copyBytes disk.bytes (addr * 512) buffer 0 (count * 512) }) := by
  rw [writeSector, if_neg (mt faulty_zero.mp h), skip, List.drop_one]

/-- A write that fails. -/
theorem write_sector_faulty (h : disk.Faulty 0) :
    writeSector disk count addr buffer = (-1, disk.skip 1) := by
  rw [writeSector, if_pos (faulty_zero.mpr h), skip, List.drop_one]

end Disk

namespace User

/-! ### The functions -/

/-- The loop of `search_blk_null`: `blk` is `_BLK_`, which holds the four sectors at `start`. -/
def searchLoop : (n i start : Nat) → (blk : Bytes) → Disk → Nat × Bytes × Disk
  | 0, _, _, blk, disk => (endMark, blk, disk)
  | n + 1, i, start, blk, disk =>
      if readWord blk (i % 512 * 4) = 0 then
        let blk := writeWord blk (i % 512 * 4) endMark
        let (r, disk) := writeSector disk 4 start blk
        if r ≠ 0 then (endMark, blk, disk) else (i, blk, disk)
      else if i % 512 = 512 - 1 then
        let start := (start + 4) % 2 ^ 32
        let (r, blk, disk) := readSector disk 4 start blk
        if r ≠ 0 then (endMark, blk, disk) else searchLoop n (i + 1) start blk disk
      else searchLoop n (i + 1) start blk disk

/-- `search_blk_null`: the block that was marked or -1, and `_BLK_`. -/
def searchBlkNull (f : SuperBlock) (blk : Bytes) (disk : Disk) : Nat × Bytes × Disk :=
  let start := f.dataSector
  let (r, blk, disk) := readSector disk 4 start blk
  if r ≠ 0 then (endMark, blk, disk) else searchLoop f.numOfBlk 0 start blk disk

/-- The loop of `clean_blk_enter`, which ends at the first write that fails. -/
def cleanLoop (firstSector : Nat) (blk : Bytes) : (n i : Nat) → Disk → Disk
  | 0, _, disk => disk
  | n + 1, i, disk =>
      let (r, disk) := writeSector disk 1 ((firstSector + i) % 2 ^ 32) blk
      if r ≠ 0 then disk else cleanLoop firstSector blk n (i + 1) disk

/-- `clean_blk_enter`. `buffer` is `_BLK_`. -/
def cleanBlkEnter (blk : Nat) (f : SuperBlock) (buffer : Bytes) (disk : Disk) : Disk :=
  cleanLoop (f.firstSector blk) (fillBytes buffer 0 2048 0#8) f.sectorPerBlk 0 disk

/-- The loop of `create_file` over the directory entries: `i` and `tmp` when it ends. -/
def entryLoop (root : Bytes) : (n i tmp : Nat) → Nat × Nat
  | 0, i, tmp => (i, tmp)
  | n + 1, i, _ =>
      if busy root (i * 128) = 0#8 then (i, i * 128) else entryLoop root n (i + 1) (i * 128)

/-- The entry that `create_file` writes: entry `i` of its block, for the block `first`. -/
def newEntry (path : List Byte) (attr : BitVec 32) (i first : Nat) : Bytes :=
  let dir := padNulls (strcpy (fun _ => 0#8) 0 (getFileName path)) 0
  let dir := writeWord dir 115 i
  let dir := Function.update dir 97 0xff#8
  let dir := Function.update dir 98 (attr.setWidth 8)
  writeWord dir 107 first

/-- `create_file`: the result, the entry and the disk. `blk` is `_BLK_`, and `heap` the memory of
`root` before it is cleared. The status of the last write is not looked at. -/
def createFile (f : SuperBlock) (path : List Byte) (attr : BitVec 32) (blk heap : Bytes)
    (disk : Disk) : Int × Bytes × Disk :=
  let dir := padNulls (strcpy (fun _ => 0#8) 0 (getFileName path)) 0
  let (r, root, disk) := readRoot disk f heap
  if r ≠ 0 then (r, dir, disk)
  else
    let (i, tmp) := entryLoop root 64 0 0
    if busy root tmp = 0#8 ∧ i < 64 then
      let (first, blk, disk) := searchBlkNull f blk disk
      let dir := newEntry path attr i first
      if first = endMark then (1, dir, disk)
      else
        let disk := if attr &&& 0x40#32 ≠ 0#32 then cleanBlkEnter first f blk disk else disk
        let root := copyBytes root tmp dir 0 128
        let (_, disk) := writeSector disk f.sectorPerBlk (f.firstSector f.rootBlk) root
        (0, dir, disk)
    else (-1, dir, disk)

/-! ### The search for a free block -/

/-- The first sector of the four that `search_blk_null` reads for the entry of block `b`. -/
def chunkSector (f : SuperBlock) (b : Nat) : Nat := (f.dataSector + 4 * (b / 512)) % 2 ^ 32

/-- Where `search_blk_null` finds the entry of block `b`. -/
def tableAddr (f : SuperBlock) (b : Nat) : Nat := chunkSector f b * 512 + b % 512 * 4

/-- The entry of block `b` that `search_blk_null` looks at. -/
def tableEntry (bytes : Bytes) (f : SuperBlock) (b : Nat) : Nat := readWord bytes (tableAddr f b)

/-- `b` is the first free block among `n` blocks from `i` on. -/
structure FreeFrom (bytes : Bytes) (f : SuperBlock) (i n b : Nat) : Prop where
  low : i ≤ b
  high : b < i + n
  free : tableEntry bytes f b = 0
  first : ∀ c, i ≤ c → c < b → tableEntry bytes f c ≠ 0

variable {f : SuperBlock} {disk : Disk} {bytes blk : Bytes} {b c i n : Nat}

theorem FreeFrom.unique (h : FreeFrom bytes f i n b) (h' : FreeFrom bytes f i n c) : b = c := by
  by_contra hne
  cases Nat.lt_or_gt_of_ne hne with
  | inl hlt => exact h'.first b h.low hlt h.free
  | inr hlt => exact h.first c h'.low hlt h'.free

/-- Behind a block that is not free the search goes on with the next one. -/
theorem free_from_succ (hused : tableEntry bytes f i ≠ 0) :
    FreeFrom bytes f i (n + 1) b ↔ FreeFrom bytes f (i + 1) n b := by
  constructor
  · intro h
    have hne : i ≠ b := fun heq => hused (heq ▸ h.free)
    have hlow := h.low
    have hhigh := h.high
    exact ⟨by omega, by omega, h.free, fun c hc => h.first c (by omega)⟩
  · intro h
    have hlow := h.low
    have hhigh := h.high
    refine ⟨by omega, by omega, h.free, fun c hc hcb => ?_⟩
    by_cases hci : c = i
    · exact hci ▸ hused
    · exact h.first c (by omega) hcb

/-- `_BLK_` holds the four sectors at `start`. -/
def HoldsChunk (blk bytes : Bytes) (start : Nat) : Prop :=
  ∀ k < 2048, blk k = bytes (start * 512 + k)

theorem holds_chunk_copy (blk bytes : Bytes) (start : Nat) :
    HoldsChunk (copyBytes blk 0 bytes (start * 512) (4 * 512)) bytes start := by
  intro k hk
  have hcopy : copyBytes blk 0 bytes (start * 512) (4 * 512) (0 + k) = bytes (start * 512 + k) :=
    copy_bytes_inside (by omega)
  rwa [Nat.zero_add] at hcopy

/-- The entry of a block in `_BLK_`. -/
theorem HoldsChunk.read (h : HoldsChunk blk bytes (chunkSector f i)) :
    readWord blk (i % 512 * 4) = tableEntry bytes f i := by
  refine read_word_congr fun k hk => ?_
  rw [h _ (by omega), tableAddr, Nat.add_assoc]

/-- Writing `_BLK_` back with one entry changed. -/
theorem HoldsChunk.write (h : HoldsChunk blk bytes (chunkSector f i)) (v : Nat) :
    copyBytes bytes (chunkSector f i * 512) (writeWord blk (i % 512 * 4) v) 0 (4 * 512) =
      writeWord bytes (tableAddr f i) v := by
  funext x
  unfold tableAddr
  by_cases hin : chunkSector f i * 512 ≤ x ∧ x < chunkSector f i * 512 + 4 * 512
  · have hbyte := h (x - chunkSector f i * 512) (by omega)
    rw [Nat.add_sub_cancel' hin.1] at hbyte
    rw [copyBytes, if_pos hin, Nat.zero_add, writeWord, writeWord, hbyte]
    by_cases hword : chunkSector f i * 512 + i % 512 * 4 ≤ x ∧
        x < chunkSector f i * 512 + i % 512 * 4 + 4
    · rw [if_pos (by omega), if_pos hword, Nat.sub_sub]
    · rw [if_neg (by omega), if_neg hword]
  · rw [copyBytes, if_neg hin, write_word_outside (by omega)]

/-- The loop of `search_blk_null`: it marks the first free block when every request up to that write
succeeds, and otherwise it returns -1 and changes nothing. The induction is on the blocks that are
left. -/
theorem search_loop_spec (n : Nat) : ∀ (i : Nat) (blk : Bytes) (disk : Disk),
    HoldsChunk blk disk.bytes (chunkSector f i) →
    (∃ b blk', FreeFrom disk.bytes f i n b ∧ disk.Serves (b / 512 - i / 512 + 1) ∧
      searchLoop n i (chunkSector f i) blk disk =
        (b, blk', { disk.skip (b / 512 - i / 512 + 1) with
          bytes := writeWord disk.bytes (tableAddr f b) endMark })) ∨
    ((∀ b, FreeFrom disk.bytes f i n b → ¬ disk.Serves (b / 512 - i / 512 + 1)) ∧
      (searchLoop n i (chunkSector f i) blk disk).1 = endMark ∧
      (searchLoop n i (chunkSector f i) blk disk).2.2.bytes = disk.bytes) := by
  induction n with
  | zero =>
      intro i blk disk _
      refine .inr ⟨fun b hb => ?_, rfl, rfl⟩
      have hlow := hb.low
      have hhigh := hb.high
      omega
  | succ n ih =>
      intro i blk disk hholds
      rw [searchLoop, hholds.read]
      by_cases hfree : tableEntry disk.bytes f i = 0
      · have hfirst : FreeFrom disk.bytes f i (n + 1) i :=
          ⟨le_refl i, by omega, hfree, fun c hc hci => by omega⟩
        have hone : i / 512 - i / 512 + 1 = 1 := by omega
        rw [if_pos hfree]
        by_cases hfault : disk.Faulty 0
        · simp only [Disk.write_sector_faulty hfault]
          refine .inr ⟨fun b hb hserves => ?_, rfl, rfl⟩
          rw [hb.unique hfirst, hone, Disk.serves_one] at hserves
          exact hserves hfault
        · simp only [Disk.write_sector_served hfault, hholds.write]
          refine .inl ⟨i, writeWord blk (i % 512 * 4) endMark, hfirst, ?_, ?_⟩
          · rwa [hone, Disk.serves_one]
          · rw [hone]
            rfl
      · rw [if_neg hfree]
        by_cases hlast : i % 512 = 512 - 1
        · -- the next entry is in the next four sectors
          have hstart : (chunkSector f i + 4) % 2 ^ 32 = chunkSector f (i + 1) := by
            unfold chunkSector
            omega
          have hcount : ∀ b, i + 1 ≤ b →
              b / 512 - i / 512 + 1 = 1 + (b / 512 - (i + 1) / 512 + 1) := by
            intro b hb
            omega
          rw [if_pos hlast, hstart]
          by_cases hfault : disk.Faulty 0
          · simp only [Disk.read_sector_faulty hfault]
            exact .inr ⟨fun b hb hserves => hserves 0 (by omega) hfault, rfl, rfl⟩
          · have hserved : disk.Serves 1 := Disk.serves_one.mpr hfault
            simp only [Disk.read_sector_served hfault, ne_eq, not_true_eq_false, if_false]
            obtain ⟨b, blk', hb, hserves, hrun⟩ | ⟨hnone, hmark, hbytes⟩ :=
              ih (i + 1) _ (disk.skip 1) (holds_chunk_copy blk disk.bytes _)
            · refine .inl ⟨b, blk', (free_from_succ hfree).mpr hb, ?_, ?_⟩
              · rw [hcount b hb.low]
                exact (Disk.serves_skip hserved).mp hserves
              · rw [hrun, hcount b hb.low, Disk.skip_skip]
                rfl
            · refine .inr ⟨fun b hb hserves => ?_, hmark, hbytes⟩
              have hb' := (free_from_succ hfree).mp hb
              rw [hcount b hb'.low] at hserves
              exact hnone b hb' ((Disk.serves_skip hserved).mpr hserves)
        · have hstart : chunkSector f i = chunkSector f (i + 1) := by
            unfold chunkSector
            omega
          have hcount : ∀ b, i + 1 ≤ b →
              b / 512 - i / 512 + 1 = b / 512 - (i + 1) / 512 + 1 := by
            intro b hb
            omega
          rw [if_neg hlast, hstart]
          obtain ⟨b, blk', hb, hserves, hrun⟩ | ⟨hnone, hend⟩ :=
            ih (i + 1) blk disk (hstart ▸ hholds)
          · refine .inl ⟨b, blk', (free_from_succ hfree).mpr hb, ?_, ?_⟩
            · rwa [hcount b hb.low]
            · rw [hrun, hcount b hb.low]
          · refine .inr ⟨fun b hb hserves => ?_, hend⟩
            have hb' := (free_from_succ hfree).mp hb
            rw [hcount b hb'.low] at hserves
            exact hnone b hb' hserves

/-- `search_blk_null` with its first read. -/
theorem search_blk_null_spec (f : SuperBlock) (blk : Bytes) (disk : Disk) :
    (∃ b blk', FreeFrom disk.bytes f 0 f.numOfBlk b ∧ disk.Serves (b / 512 + 2) ∧
      searchBlkNull f blk disk =
        (b, blk', { disk.skip (b / 512 + 2) with
          bytes := writeWord disk.bytes (tableAddr f b) endMark })) ∨
    ((∀ b, FreeFrom disk.bytes f 0 f.numOfBlk b → ¬ disk.Serves (b / 512 + 2)) ∧
      (searchBlkNull f blk disk).1 = endMark ∧
      (searchBlkNull f blk disk).2.2.bytes = disk.bytes) := by
  have hstart : f.dataSector = chunkSector f 0 := by
    unfold chunkSector SuperBlock.dataSector
    omega
  have hcount : ∀ b, b / 512 + 2 = 1 + (b / 512 - 0 / 512 + 1) := by
    intro b
    omega
  unfold searchBlkNull
  by_cases hfault : disk.Faulty 0
  · simp only [Disk.read_sector_faulty hfault]
    exact .inr ⟨fun b hb hserves => hserves 0 (by omega) hfault, rfl, rfl⟩
  · have hserved : disk.Serves 1 := Disk.serves_one.mpr hfault
    simp only [Disk.read_sector_served hfault, ne_eq, not_true_eq_false, if_false]
    rw [hstart]
    obtain ⟨b, blk', hb, hserves, hrun⟩ | ⟨hnone, hend⟩ :=
      search_loop_spec f.numOfBlk 0 _ (disk.skip 1) (holds_chunk_copy blk disk.bytes _)
    · refine .inl ⟨b, blk', hb, ?_, ?_⟩
      · rw [hcount b]
        exact (Disk.serves_skip hserved).mp hserves
      · rw [hrun, hcount b, Disk.skip_skip]
        rfl
    · refine .inr ⟨fun b hb hserves => ?_, hend⟩
      rw [hcount b] at hserves
      exact hnone b hb ((Disk.serves_skip hserved).mpr hserves)

/-! ### Clearing a block -/

/-- The sectors that are cleared before the first request that fails. -/
def cleared : (n : Nat) → (fails : List Bool) → Nat
  | 0, _ => 0
  | n + 1, fails => if fails.headD false then 0 else cleared n fails.tail + 1

/-- The loop of `clean_blk_enter`: how many requests it makes, and the bytes that it clears. The
induction is on the sectors that are left. -/
theorem clean_loop_spec (first : Nat) (blk : Bytes) (hzero : ∀ k < 512, blk k = 0#8) (n : Nat) :
    ∀ (i : Nat) (disk : Disk),
    (cleanLoop first blk n i disk).fails =
        disk.fails.drop (min (cleared n disk.fails + 1) n) ∧
      ∀ x, (cleanLoop first blk n i disk).bytes x =
        if ∃ j < cleared n disk.fails, (first + (i + j)) % 2 ^ 32 = x / 512 then 0#8
        else disk.bytes x := by
  induction n with
  | zero =>
      intro i disk
      refine ⟨rfl, fun x => ?_⟩
      rw [cleared, if_neg (by simp)]
      rfl
  | succ n ih =>
      intro i disk
      rw [cleanLoop, cleared]
      by_cases hfault : disk.Faulty 0
      · rw [if_pos (Disk.faulty_zero.mpr hfault), Disk.write_sector_faulty hfault]
        refine ⟨?_, fun x => ?_⟩
        · show disk.fails.drop 1 = disk.fails.drop (min (0 + 1) (n + 1))
          rw [Nat.min_eq_left (by omega)]
        · rw [if_neg (by simp)]
          rfl
      · rw [if_neg (mt Disk.faulty_zero.mp hfault)]
        have htail : (disk.skip 1).fails = disk.fails.tail := List.drop_one
        simp only [Disk.write_sector_served hfault, ne_eq, not_true_eq_false, if_false, htail]
        obtain ⟨hfails, hbytes⟩ := ih (i + 1)
          ⟨copyBytes disk.bytes ((first + i) % 2 ^ 32 * 512) blk 0 (1 * 512), disk.fails.tail⟩
        simp only at hfails hbytes
        refine ⟨?_, fun x => ?_⟩
        · rw [hfails, ← List.drop_one, List.drop_drop]
          congr 1
          omega
        · rw [hbytes x]
          by_cases hlater : ∃ j < cleared n disk.fails.tail,
              (first + (i + 1 + j)) % 2 ^ 32 = x / 512
          · obtain ⟨j, hj, hsector⟩ := hlater
            have hsame : i + (j + 1) = i + 1 + j := by omega
            rw [if_pos ⟨j, hj, hsector⟩, if_pos ⟨j + 1, by omega, hsame ▸ hsector⟩]
          · rw [if_neg hlater]
            by_cases hhere : (first + i) % 2 ^ 32 = x / 512
            · rw [if_pos ⟨0, by omega, hhere⟩, copyBytes, if_pos (by omega)]
              exact hzero _ (by omega)
            · rw [if_neg, copy_bytes_outside (by omega)]
              rintro ⟨j, hj, hsector⟩
              cases j with
              | zero => exact hhere hsector
              | succ j =>
                  have hsame : i + (j + 1) = i + 1 + j := by omega
                  exact hlater ⟨j, by omega, hsame ▸ hsector⟩

/-- The requests of `clean_blk_enter` that succeed. -/
def clearedSectors (f : SuperBlock) (attr : BitVec 32) (fails : List Bool) : Nat :=
  if attr &&& 0x40#32 ≠ 0#32 then cleared f.sectorPerBlk fails else 0

/-- The requests that `create_file` makes to clear a new directory. -/
def clearRequests (f : SuperBlock) (attr : BitVec 32) (fails : List Bool) : Nat :=
  if attr &&& 0x40#32 ≠ 0#32 then min (cleared f.sectorPerBlk fails + 1) f.sectorPerBlk else 0

/-- The call of `clean_blk_enter` in `create_file`. -/
theorem clear_spec (f : SuperBlock) (attr : BitVec 32) (b : Nat) (blk : Bytes) (disk : Disk) :
    let cleaned := if attr &&& 0x40#32 ≠ 0#32 then cleanBlkEnter b f blk disk else disk
    cleaned.fails = disk.fails.drop (clearRequests f attr disk.fails) ∧
      ∀ x, cleaned.bytes x =
        if ∃ j < clearedSectors f attr disk.fails, (f.firstSector b + j) % 2 ^ 32 = x / 512 then 0#8
        else disk.bytes x := by
  by_cases hdir : attr &&& 0x40#32 ≠ 0#32
  · simp only [clearRequests, clearedSectors, if_pos hdir]
    have hloop := clean_loop_spec (f.firstSector b) (fillBytes blk 0 2048 0#8)
      (fun k hk => by rw [fillBytes, if_pos (by omega)]) f.sectorPerBlk 0 disk
    simp only [Nat.zero_add] at hloop
    exact hloop
  · simp only [clearRequests, clearedSectors, if_neg hdir]
    refine ⟨rfl, fun x => ?_⟩
    rw [if_neg (by simp)]

/-! ### The free entry -/

/-- The loop over the entries finds the first one that is not busy, or none. -/
theorem entry_loop_spec (root : Bytes) (n : Nat) : ∀ (i tmp : Nat),
    (∃ k, i ≤ k ∧ k < i + n ∧ busy root (k * 128) = 0#8 ∧
      (∀ j, i ≤ j → j < k → busy root (j * 128) ≠ 0#8) ∧
      entryLoop root n i tmp = (k, k * 128)) ∨
    ((∀ j, i ≤ j → j < i + n → busy root (j * 128) ≠ 0#8) ∧
      (entryLoop root n i tmp).1 = i + n) := by
  induction n with
  | zero => exact fun i tmp => .inr ⟨fun j hi hj => by omega, rfl⟩
  | succ n ih =>
      intro i tmp
      rw [entryLoop]
      by_cases hfree : busy root (i * 128) = 0#8
      · rw [if_pos hfree]
        exact .inl ⟨i, le_refl i, by omega, hfree, fun j hi hj => by omega, rfl⟩
      · have hfirst : ∀ j, i ≤ j → (i + 1 ≤ j → busy root (j * 128) ≠ 0#8) →
            busy root (j * 128) ≠ 0#8 := by
          intro j hi hrest
          by_cases hij : j = i
          · exact hij ▸ hfree
          · exact hrest (by omega)
        rw [if_neg hfree]
        obtain ⟨k, hlow, hhigh, hk, hbefore, hrun⟩ | ⟨hnone, hrun⟩ := ih (i + 1) (i * 128)
        · exact .inl ⟨k, by omega, by omega, hk,
            fun j hi hj => hfirst j hi fun hj' => hbefore j hj' hj, hrun⟩
        · refine .inr ⟨fun j hi hj => hfirst j hi fun hj' => hnone j hj' (by omega), ?_⟩
          rw [hrun]
          omega

end User

end Sirius.Cfs
