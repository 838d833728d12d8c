import Sirius.Cfs.OpenFile

/-!
# The three copies of `open_file_r`

The user library, the kernel and the boot loader each have their own `open_file_r`. Here its two
nested loops are written out over the table of 1024 rows with 1024 entries each. A walk with two
loops stores what the walk of `openBlocks` stores; so the three copies build the table of the
chain, or return `NULL` when a sector of the allocation table cannot be read.
-/

namespace Sirius.Cfs

open Library Stdio

/-- The variables of the two loops; `blocks i t` is entry `t` of row `i` of `fp->blocks`. -/
structure Walk where
  numOfBlocks : Nat
  blocks : Nat → Nat → Nat
  index : Nat
  flgStart : Nat
  blk : Bytes
  disk : Disk

/-- How a loop ends: a failed read, the end mark, or the bound of the loop. -/
inductive WalkEnd where
  | error (disk : Disk)
  | eof (w : Walk)
  | bound (w : Walk)

/-- The inner loop of `open_file_r`, for `n` more entries of row `i` from entry `t` on. -/
def innerLoop (f : SuperBlock) (i : Nat) : (n t : Nat) → Walk → WalkEnd
  | 0, _, w => .bound w
  | n + 1, t, w =>
      let row := Function.update (w.blocks i) t (f.firstSector w.index)
      let start := f.fatSector w.index
      let (r, blk, disk) :=
        if w.flgStart ≠ start then readSector w.disk 1 start w.blk else (0, w.blk, w.disk)
      if r ≠ 0 then .error disk
      else
        let index := readWord blk (w.index % (f.bytePerSector / 4) * 4)
        let w := ⟨w.numOfBlocks + 1, Function.update w.blocks i row, index, start, blk, disk⟩
        if index = endMark then .eof w else innerLoop f i n (t + 1) w

/-- The outer loop of `open_file_r`, for `n` more rows from row `i` on. A new row is cleared. -/
def outerLoop (f : SuperBlock) : (n i : Nat) → Walk → WalkEnd
  | 0, _, w => .bound w
  | n + 1, i, w =>
      match innerLoop f i 1024 0 { w with blocks := Function.update w.blocks i fun _ => 0 } with
      | .bound w => outerLoop f n (i + 1) w
      | .eof w => .eof w
      | .error disk => .error disk

/-- The stream with the table of the walk: entry `k` is `blocks[k / 1024][k % 1024]`. -/
def withTable (fp : File) (w : Walk) : File :=
  { fp with
    numOfBlocks := w.numOfBlocks
    blocks := fun k => w.blocks (k / 1024) (k % 1024) }

/-- The text the three copies share, with the size of the buffer and the memory of `fp->blocks`
before the walk. -/
def openFileWith (bsize : Nat) (rows : Nat → Nat → Nat) (d : Bytes) (f : SuperBlock)
    (heap blk : Bytes) (disk : Disk) : Option File × Disk :=
  let fp := { File.cleared heap with
    bsize := bsize
    fsize := fileSize d 0
    bytePerSector := f.bytePerSector
    count := f.sectorPerBlk }
  match outerLoop f 1024 0 ⟨0, rows, firstBlk d 0, endMark, blk, disk⟩ with
  | .error disk => (none, disk)
  | .eof w => (some (withTable fp w), w.disk)
  | .bound w => (some (withTable fp w), w.disk)

/-- `open_file_r` of the user library. -/
def User.openFileR (d : Bytes) (f : SuperBlock) (heap blk : Bytes) (disk : Disk) :
    Option File × Disk :=
  openFileWith (f.bytePerSector * f.sectorPerBlk % 2 ^ 32) (fun _ _ => 0) d f heap blk disk

/-- `open_file_r` of the kernel. -/
def Kernel.openFileR (d : Bytes) (f : SuperBlock) (heap blk : Bytes) (disk : Disk) :
    Option File × Disk :=
  openFileWith (f.bytePerSector * f.sectorPerBlk % 2 ^ 32) (fun _ _ => 0) d f heap blk disk

/-- `open_file_r` of the boot loader. The table of rows is not cleared. -/
def Boot.openFileR (rows : Nat → Nat → Nat) (d : Bytes) (f : SuperBlock) (heap blk : Bytes)
    (disk : Disk) : Option File × Disk :=
  openFileWith 8192 rows d f heap blk disk

/-! ### One loop for two -/

/-- The same result, up to entries of the table that no block has. -/
inductive SameStream : Option File × Disk → Option File × Disk → Prop where
  | null (disk : Disk) : SameStream (none, disk) (none, disk)
  | stream (fp fp' : File) (disk : Disk) (num : fp'.numOfBlocks = fp.numOfBlocks)
      (entries : ∀ k < fp.numOfBlocks, fp'.blocks k = fp.blocks k) (rest : SameButTable fp fp') :
      SameStream (some fp, disk) (some fp', disk)

variable {f : SuperBlock} {fp fp' : File} {n m i t index flgStart : Nat} {blk : Bytes} {disk : Disk}
  {w : Walk}

theorem SameStream.trans {r r' r'' : Option File × Disk} (h : SameStream r r')
    (h' : SameStream r' r'') : SameStream r r'' := by
  cases h with
  | null disk => exact h'
  | stream fp fp' disk hnum hentries hrest =>
      cases h' with
      | stream _ fp'' _ hnum' hentries' hrest' =>
          refine .stream fp fp'' disk (hnum'.trans hnum) (fun k hk => ?_) ?_
          · rw [hentries' k (hnum.symm ▸ hk), hentries k hk]
          · unfold SameButTable at *
            rw [hrest', hrest]

theorem SameStream.null_of_null {r r' : Option File × Disk} (h : SameStream r r')
    (hnull : r.1 = none) : r'.1 = none := by
  cases h with
  | null disk => rfl
  | stream fp fp' disk hnum hentries hrest => cases hnull

theorem SameStream.is_some {r r' : Option File × Disk} (h : SameStream r r') :
    r.1.isSome = r'.1.isSome := by
  cases h with
  | null => rfl
  | stream => rfl

/-- The table of a chain is found in the other stream as well. -/
theorem SameStream.has_table {r r' : Option File × Disk} (h : SameStream r r')
    (hstream : r.1 = some fp) {l : List Nat} (htable : HasTable f fp l) :
    ∃ fp', r'.1 = some fp' ∧ HasTable f fp' l := by
  cases h with
  | null disk => cases hstream
  | stream fp fp' disk hnum hentries hrest =>
      obtain rfl := Option.some.inj hstream
      refine ⟨fp', rfl, hnum.trans htable.numOfBlocks, fun k b hk => ?_⟩
      have hlt : k < l.length := (List.getElem?_eq_some_iff.mp hk).1
      rw [hentries k (htable.numOfBlocks ▸ hlt)]
      exact htable.blocks k b hk

/-- The walk does not read the entries it has not stored. -/
theorem open_blocks_congr (hnum : fp'.numOfBlocks = fp.numOfBlocks)
    (hentries : ∀ k < fp.numOfBlocks, fp'.blocks k = fp.blocks k) (hrest : SameButTable fp fp') :
    SameStream (openBlocks f n index flgStart blk fp disk)
      (openBlocks f n index flgStart blk fp' disk) := by
  induction n generalizing index flgStart blk fp fp' disk with
  | zero => exact .stream fp fp' disk hnum hentries hrest
  | succ n ih =>
      have hnext : ∀ v, SameButTable
          { fp with
            blocks := Function.update fp.blocks fp.numOfBlocks v, numOfBlocks := fp.numOfBlocks + 1 }
          { fp' with
            blocks := Function.update fp'.blocks fp'.numOfBlocks v
            numOfBlocks := fp'.numOfBlocks + 1 } := fun v => by
        unfold SameButTable at *
        rw [hrest]
      have hstored : ∀ v, ∀ k < fp.numOfBlocks + 1,
          Function.update fp'.blocks fp'.numOfBlocks v k =
            Function.update fp.blocks fp.numOfBlocks v k := by
        intro v k hk
        rw [hnum]
        by_cases hlast : k = fp.numOfBlocks
        · rw [hlast, Function.update_self, Function.update_self]
        · rw [Function.update_of_ne hlast, Function.update_of_ne hlast]
          exact hentries k (by omega)
      have hcount : fp'.numOfBlocks + 1 = fp.numOfBlocks + 1 := by rw [hnum]
      rw [openBlocks, openBlocks]
      generalize (if flgStart ≠ f.fatSector index then readSector disk 1 (f.fatSector index) blk
        else (0, blk, disk)) = read
      obtain ⟨r, blk', disk'⟩ := read
      by_cases hr : r ≠ 0
      · simp only [if_pos hr]
        exact .null disk'
      · simp only [if_neg hr]
        split
        · exact .stream _ _ disk' hcount (hstored _) (hnext _)
        · exact ih hcount (hstored _) (hnext _)

/-- Storing an entry of a row. -/
theorem with_table_store (fp : File) (hnum : w.numOfBlocks = i * 1024 + t) (ht : t < 1024) (v : Nat)
    (index flgStart : Nat) (blk : Bytes) (disk : Disk) :
    withTable fp ⟨w.numOfBlocks + 1,
        Function.update w.blocks i (Function.update (w.blocks i) t v), index, flgStart, blk, disk⟩ =
      { withTable fp w with
        blocks := Function.update (withTable fp w).blocks (withTable fp w).numOfBlocks v
        numOfBlocks := (withTable fp w).numOfBlocks + 1 } := by
  have hentries : (fun k => Function.update w.blocks i (Function.update (w.blocks i) t v)
      (k / 1024) (k % 1024)) =
      Function.update (fun k => w.blocks (k / 1024) (k % 1024)) w.numOfBlocks v := by
    funext k
    by_cases hrow : k / 1024 = i
    · rw [hrow, Function.update_self]
      by_cases hentry : k % 1024 = t
      · have hk : k = w.numOfBlocks := by omega
        rw [hentry, Function.update_self, hk, Function.update_self]
      · have hk : k ≠ w.numOfBlocks := by omega
        rw [Function.update_of_ne hentry, Function.update_of_ne hk, hrow]
    · have hk : k ≠ w.numOfBlocks := by omega
      rw [Function.update_of_ne hrow, Function.update_of_ne hk]
  simp only [withTable, hentries]

/-- What is left of the walk after a loop. -/
def WalkEnd.finish (f : SuperBlock) (fp : File) (m : Nat) : WalkEnd → Option File × Disk
  | .error disk => (none, disk)
  | .eof w => (some (withTable fp w), w.disk)
  | .bound w => openBlocks f m w.index w.flgStart w.blk (withTable fp w) w.disk

/-- The inner loop is a part of the walk, and a full row ends where the next row starts. -/
theorem inner_loop_eq (fp : File) (m : Nat) (hnum : w.numOfBlocks = i * 1024 + t)
    (hrow : t + n = 1024) :
    openBlocks f (n + m) w.index w.flgStart w.blk (withTable fp w) w.disk =
        (innerLoop f i n t w).finish f fp m ∧
      ∀ w', innerLoop f i n t w = .bound w' → w'.numOfBlocks = (i + 1) * 1024 := by
  induction n generalizing t w with
  | zero =>
      refine ⟨by rw [Nat.zero_add]; rfl, fun w' hw' => ?_⟩
      obtain rfl := WalkEnd.bound.inj hw'
      omega
  | succ n ih =>
      have hstore := with_table_store fp hnum (by omega) (f.firstSector w.index)
      have hsum : n + 1 + m = n + m + 1 := by omega
      rw [hsum, openBlocks, innerLoop]
      generalize (if w.flgStart ≠ f.fatSector w.index then
        readSector w.disk 1 (f.fatSector w.index) w.blk else (0, w.blk, w.disk)) = read
      obtain ⟨r, blk', disk'⟩ := read
      by_cases hr : r ≠ 0
      · simp only [if_pos hr]
        exact ⟨rfl, fun w' hw' => by cases hw'⟩
      · simp only [if_neg hr]
        split
        · refine ⟨?_, fun w' hw' => by cases hw'⟩
          show _ = (some (withTable fp _), disk')
          rw [hstore]
        · rw [← hstore]
          have hnext : w.numOfBlocks + 1 = i * 1024 + (t + 1) := by omega
          have hleft : t + 1 + n = 1024 := by omega
          exact ih (w := ⟨w.numOfBlocks + 1, _, _, _, blk', disk'⟩) hnext hleft

/-- Clearing a row changes no entry that has been stored. -/
theorem with_table_clear (hnum : w.numOfBlocks = i * 1024) :
    ∀ k < w.numOfBlocks, (withTable fp
      { w with blocks := Function.update w.blocks i fun _ => 0 }).blocks k =
        (withTable fp w).blocks k := by
  intro k hk
  have hrow : k / 1024 ≠ i := by omega
  show Function.update w.blocks i (fun _ => 0) (k / 1024) (k % 1024) = _
  rw [Function.update_of_ne hrow]
  rfl

/-- The two loops are one walk. -/
theorem outer_loop_same (fp : File) (hnum : w.numOfBlocks = i * 1024) :
    SameStream (openBlocks f (n * 1024) w.index w.flgStart w.blk (withTable fp w) w.disk)
      ((outerLoop f n i w).finish f fp 0) := by
  induction n generalizing i w with
  | zero =>
      rw [Nat.zero_mul]
      exact .stream _ _ _ rfl (fun _ _ => rfl) rfl
  | succ n ih =>
      have hstart : w.numOfBlocks = i * 1024 + 0 := hnum.trans (Nat.add_zero _).symm
      obtain ⟨hrow, hfull⟩ := inner_loop_eq (f := f)
        (w := { w with blocks := Function.update w.blocks i fun _ => 0 }) fp (n * 1024) hstart
        (Nat.zero_add 1024)
      have hclear : SameStream
          (openBlocks f (1024 + n * 1024) w.index w.flgStart w.blk (withTable fp w) w.disk)
          (openBlocks f (1024 + n * 1024) w.index w.flgStart w.blk
            (withTable fp { w with blocks := Function.update w.blocks i fun _ => 0 }) w.disk) :=
        open_blocks_congr rfl (with_table_clear hnum) rfl
      have hsum : (n + 1) * 1024 = 1024 + n * 1024 := by omega
      rw [hsum]
      refine hclear.trans ?_
      show SameStream (openBlocks f _ w.index w.flgStart w.blk _ w.disk) _
      rw [hrow, outerLoop]
      cases hend : innerLoop f i 1024 0
          { w with blocks := Function.update w.blocks i fun _ => 0 } with
      | error disk => exact .null disk
      | eof w' => exact .stream _ _ _ rfl (fun _ _ => rfl) rfl
      | bound w' => exact ih (hfull w' hend)

/-! ### The table of a chain -/

/-- One copy of `open_file_r` on an entry whose chain is `l`: the result is `NULL` when a read of
the allocation table fails, and otherwise a stream with the table of the chain. -/
theorem open_file_with_chain (hsize : f.bytePerSector = 512) {d : Bytes} {l : List Nat}
    (hchain : Chain disk.bytes f (firstBlk d 0) l) (hne : l ≠ [])
    (hrange : ∀ b ∈ l, f.InRange b) (hlen : l.length ≤ 1024 * 1024) (bsize : Nat)
    (rows : Nat → Nat → Nat) (heap blk : Bytes) :
    (true ∈ disk.fails.take (sectorReads f endMark l) →
      (openFileWith bsize rows d f heap blk disk).1 = none) ∧
    (true ∉ disk.fails.take (sectorReads f endMark l) →
      ∃ fp, (openFileWith bsize rows d f heap blk disk).1 = some fp ∧ HasTable f fp l) := by
  let fp : File := { File.cleared heap with
    bsize := bsize
    fsize := fileSize d 0
    bytePerSector := f.bytePerSector
    count := f.sectorPerBlk }
  let w : Walk := ⟨0, rows, firstBlk d 0, endMark, blk, disk⟩
  have hopen : openFileWith bsize rows d f heap blk disk = (outerLoop f 1024 0 w).finish f fp 0 := by
    show (match outerLoop f 1024 0 w with
      | .error disk => (none, disk)
      | .eof w => (some (withTable fp w), w.disk)
      | .bound w => (some (withTable fp w), w.disk)) = _
    cases outerLoop f 1024 0 w <;> rfl
  have hstart : w.numOfBlocks = 0 * 1024 := (Nat.zero_mul 1024).symm
  have hsame : SameStream
      (openBlocks f (1024 * 1024) (firstBlk d 0) endMark blk (withTable fp w) disk)
      ((outerLoop f 1024 0 w).finish f fp 0) := outer_loop_same fp hstart
  have hempty : HasTable f (withTable fp w) [] := ⟨rfl, fun k b hk => by simp at hk⟩
  have hwalk := open_blocks_walk (n := 1024 * 1024) hsize hchain hne hrange hempty
    (Or.inl rfl : endMark = endMark ∨ HoldsSector blk disk.bytes endMark)
  rw [List.take_of_length_le hlen, List.nil_append] at hwalk
  rw [hopen]
  rcases hwalk with ⟨hfault, hnull⟩ | ⟨hnone, fp', hrun, htable, -⟩
  · exact ⟨fun _ => hsame.null_of_null hnull, fun hnone => absurd hfault hnone⟩
  · refine ⟨fun hfault => absurd hfault hnone, fun _ => hsame.has_table ?_ htable⟩
    rw [hrun]

/-- The three copies of `open_file_r` agree. For a geometry with sectors of 512 bytes and an entry
with a chain of at most `1024 * 1024` blocks, all three return `NULL` when one of the reads of the
allocation table fails, and otherwise all three count the blocks of the chain and store the first
sector of its `k`-th block as entry `k` of the table. -/
theorem open_file_r_agree (f : SuperBlock) (hsize : f.bytePerSector = 512) (d : Bytes)
    (disk : Disk) (l : List Nat) (hchain : Chain disk.bytes f (firstBlk d 0) l) (hne : l ≠ [])
    (hrange : ∀ b ∈ l, f.InRange b) (hlen : l.length ≤ 1024 * 1024) (rows : Nat → Nat → Nat)
    (heap blk heap' blk' heap'' blk'' : Bytes) :
    (true ∈ disk.fails.take (sectorReads f endMark l) →
      (User.openFileR d f heap blk disk).1 = none ∧
      (Kernel.openFileR d f heap' blk' disk).1 = none ∧
      (Boot.openFileR rows d f heap'' blk'' disk).1 = none) ∧
    (true ∉ disk.fails.take (sectorReads f endMark l) →
      ∃ user kernel boot, (User.openFileR d f heap blk disk).1 = some user ∧
        (Kernel.openFileR d f heap' blk' disk).1 = some kernel ∧
        (Boot.openFileR rows d f heap'' blk'' disk).1 = some boot ∧
        ∀ fp ∈ [user, kernel, boot], fp.numOfBlocks = l.length ∧
          ∀ k b, l[k]? = some b → fp.blocks k = f.firstSector b) := by
  have hcopy := fun bsize rows heap blk =>
    open_file_with_chain hsize hchain hne hrange hlen bsize rows heap blk
  refine ⟨fun hfault => ⟨(hcopy _ _ _ _).1 hfault, (hcopy _ _ _ _).1 hfault,
    (hcopy _ _ _ _).1 hfault⟩, fun hnone => ?_⟩
  obtain ⟨user, huser, huserTable⟩ := (hcopy _ _ heap blk).2 hnone
  obtain ⟨kernel, hkernel, hkernelTable⟩ := (hcopy _ _ heap' blk').2 hnone
  obtain ⟨boot, hboot, hbootTable⟩ := (hcopy 8192 rows heap'' blk'').2 hnone
  refine ⟨user, kernel, boot, huser, hkernel, hboot, fun fp hfp => ?_⟩
  have htable : HasTable f fp l := by
    simp only [List.mem_cons, List.not_mem_nil, or_false] at hfp
    rcases hfp with rfl | rfl | rfl
    · exact huserTable
    · exact hkernelTable
    · exact hbootTable
  exact ⟨htable.numOfBlocks, htable.blocks⟩

/-- The result for a file with the blocks 200 and 3, whose entries lie in different sectors of the
allocation table: the second of them cannot be read. -/
theorem open_file_r_agree_fault :
    let f : SuperBlock := ⟨1, 1, 512, 2, 1000, 8, 4, 4000⟩
    let d := writeWord (fun _ => 0#8) 107 200
    let table := writeWord (writeWord (fun _ => 0#8) (1024 + 4 * 200) 3) (1024 + 4 * 3) endMark
    (User.openFileR d f (fun _ => 0#8) (fun _ => 0#8) ⟨table, [false, true]⟩).1 = none ∧
      ∃ boot, (Boot.openFileR (fun _ _ => 7) d f (fun _ => 0#8) (fun _ => 0#8) ⟨table, []⟩).1 =
        some boot ∧ boot.numOfBlocks = 2 ∧ boot.blocks 1 = 8 := by
  intro f d table
  have hchain : Chain table f (firstBlk d 0) [200, 3] := by
    simp only [Linked.cons_iff, Linked.nil_iff]
    decide +kernel
  have hrange : ∀ b ∈ [200, 3], f.InRange b := by
    intro b hb
    show 4 * b < 2 ^ 32 ∧ 1 + 1 + b / 128 < 2 ^ 32 - 1
    rcases List.mem_pair.mp hb with rfl | rfl <;> omega
  have hagree := fun fails => open_file_r_agree f rfl d ⟨table, fails⟩ [200, 3] hchain
    (List.cons_ne_nil _ _) hrange (by decide) (fun _ _ => 7) (fun _ => 0#8) (fun _ => 0#8)
    (fun _ => 0#8) (fun _ => 0#8) (fun _ => 0#8) (fun _ => 0#8)
  refine ⟨((hagree [false, true]).1 (by decide)).1, ?_⟩
  obtain ⟨user, kernel, boot, -, -, hboot, htable⟩ := (hagree []).2 (by simp)
  obtain ⟨hcount, hentries⟩ := htable boot (by simp)
  exact ⟨boot, hboot, hcount, hentries 1 3 rfl⟩

end Sirius.Cfs
