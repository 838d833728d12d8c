import Sirius.Cfs.OpenAgreement
import Sirius.Cfs.Rename
import Sirius.Library.Ledger

/-!
# The blocks of the file library

`open_file`, `open_dir` and `file_close` once more, with the blocks that they get from `malloc` and
pass to `free`. The entry of `open_file` is in a global variable, `fs_directory`. `open_file` frees it
whenever it returns; `open_dir` never allocates it, and frees it when it fails.
-/

namespace Sirius.Cfs.Ownership

open Library Stdio User

/-! ### Streams -/

/-- The blocks of a stream: `fp`, `fp->buffer`, `fp->blocks` and the rows of the latter. -/
structure StreamBlocks where
  fp : Nat
  buffer : Nat
  blocks : Nat
  rows : List Nat
  deriving DecidableEq

/-- The loop of `file_close`, for at most `n` rows from row `i` on. -/
def freeRows (rows : List Nat) : (n i : Nat) → Ledger → Ledger
  | 0, _, heap => heap
  | n + 1, i, heap =>
      match rows[i]? with
      | none => heap
      | some row => freeRows rows n (i + 1) (heap.free row)

/-- `file_close` -/
def fileClose (fp : StreamBlocks) (heap : Ledger) : Ledger :=
  ((freeRows fp.rows 1024 0 (heap.free fp.buffer)).free fp.blocks).free fp.fp

/-- The outer loop of `open_file_r`, which gets a block for each row. -/
def outerLoopRows (f : SuperBlock) : (n i : Nat) → Walk → List Nat → Ledger →
    WalkEnd × List Nat × Ledger
  | 0, _, w, rows, heap => (.bound w, rows, heap)
  | n + 1, i, w, rows, heap =>
      let (row, heap) := heap.malloc
      let rows := rows ++ [row]
      match innerLoop f i 1024 0 { w with blocks := Function.update w.blocks i fun _ => 0 } with
      | .bound w => outerLoopRows f n (i + 1) w rows heap
      | .eof w => (.eof w, rows, heap)
      | .error disk => (.error disk, rows, heap)

/-- `open_file_r`; `none` is the result `NULL`. -/
def openFileR (d : Bytes) (f : SuperBlock) (blk : Bytes) (disk : Disk) (heap : Ledger) :
    Option StreamBlocks × Ledger :=
  let (fp, heap) := heap.malloc
  let (buffer, heap) := heap.malloc
  let (blocks, heap) := heap.malloc
  let (table, heap) := heap.malloc
  match outerLoopRows f 1024 0 ⟨0, fun _ _ => 0, firstBlk d 0, endMark, blk, disk⟩ [] heap with
  | (.error _, rows, heap) => (none, fileClose ⟨fp, buffer, blocks, rows⟩ (heap.free table))
  | (.eof _, rows, heap) => (some ⟨fp, buffer, blocks, rows⟩, heap.free table)
  | (.bound _, rows, heap) => (some ⟨fp, buffer, blocks, rows⟩, heap.free table)

/-! ### The two calls -/

/-- The arguments of `open_file`, the memory that `malloc` returns, and the disk. -/
structure OpenFile where
  pwd : List Byte
  filename : List Byte
  behind : List Byte
  mode : List Byte
  root : Bytes
  blk : Bytes
  disk : Disk

/-- The end of `open_file`, for the entry `d` that it found. -/
def openFound (a : OpenFile) (d : Bytes) (f : SuperBlock) (disk : Disk) (path fsDirectory super : Nat)
    (heap : Ledger) : Option StreamBlocks × Nat × Ledger :=
  let (fp, heap) := openFileR d f a.blk disk heap
  (fp, fsDirectory, ((heap.free path).free fsDirectory).free super)

/-- `open_file`: the stream, and the block that `fs_directory` points to afterwards. Its callees
`read_directory_blk`, `read_directory_entry` and `create_file` free their block on every path. -/
def openFile (a : OpenFile) (heap : Ledger) : Option StreamBlocks × Nat × Ledger :=
  let (path, heap) := heap.malloc
  let (tpath, name) := getfilename (getpathname a.pwd a.filename)
  let filename := dropSlash a.filename
  let (fsDirectory, heap) := heap.malloc
  let (super, heap) := heap.malloc
  let (r, f, disk) := readSuperBlock a.disk
  if r ≠ 0 then (none, fsDirectory, ((heap.free fsDirectory).free path).free super)
  else
    let (dir, disk) := readDirectoryBlk f (skipDrive tpath a.behind) a.root disk
    let heap := heap.scratch
    if dir = 0 then (none, fsDirectory, ((heap.free fsDirectory).free path).free super)
    else
      let f := { f with rootBlk := dir }
      let (r, d, disk) := readDirectoryEntry disk (fun _ => 0#8) f (stringBytes name) a.root
      let heap := heap.scratch
      if r = -1 then
        if a.mode.getD 0 0#8 = 0x77#8 ∨ a.mode.getD 0 0#8 = 0x61#8 then
          let (_, d, disk) := createFile f filename 0x20#32 a.blk a.root disk
          let heap := heap.scratch
          let (r, d, disk) := readDirectoryEntry disk d f (stringBytes filename) a.root
          let heap := heap.scratch
          if r ≠ 0 then (none, fsDirectory, ((heap.free fsDirectory).free path).free super)
          else openFound a d f disk path fsDirectory super heap
        else (none, fsDirectory, ((heap.free fsDirectory).free path).free super)
      else if r ≠ 0 then (none, fsDirectory, ((heap.free path).free fsDirectory).free super)
      else openFound a d f disk path fsDirectory super heap

/-- The arguments of `open_dir`, the memory that `malloc` returns, and the disk. -/
structure OpenDir where
  pwd : List Byte
  pathname : List Byte
  behind : List Byte
  buf : Bytes
  count : Int
  root : Bytes
  disk : Disk

/-- `assert_fn` of the name at `e`. -/
def assertFnAt (m : Bytes) (e : Nat) : Bytes :=
  fun i => if e ≤ i then assertFn (fun k => m (e + k)) 96 (i - e) else m i

/-- The loop of `open_dir`: the busy entries of the directory are copied. -/
def listLoop (root : Bytes) (count : Int) : (n i v : Nat) → Bytes → Nat × Bytes
  | 0, _, v, buf => (v, buf)
  | n + 1, i, v, buf =>
      if count ≤ i then (v, buf)
      else if busy root (i * 128) = 0#8 then listLoop root count n (i + 1) v buf
      else
        let buf := copyBytes buf (v * 128) root (i * 128) 128
        listLoop root count n (i + 1) (v + 1) (assertFnAt buf (v * 128))

/-- `open_dir`: the number of entries, and the entries. The status of the last read is not looked
at. -/
def openDir (a : OpenDir) (fsDirectory : Option Nat) (heap : Ledger) : Int × Bytes × Ledger :=
  let (path, heap) := heap.malloc
  let tpath := (getfilename (getpathname a.pwd a.pathname)).1
  let (super, heap) := heap.malloc
  let (r, f, disk) := readSuperBlock a.disk
  if r ≠ 0 then (-1, a.buf, ((heap.freePtr fsDirectory).free path).free super)
  else
    let (dir, disk) := readDirectoryBlk f (skipDrive tpath a.behind) a.root disk
    let heap := heap.scratch
    if dir = 0 then (-1, a.buf, ((heap.freePtr fsDirectory).free path).free super)
    else
      let f := { f with rootBlk := dir }
      let (root, heap) := heap.malloc
      let (_, bytes, _) := readRoot disk f a.root
      let (v, buf) := listLoop bytes a.count 64 0 0 a.buf
      (v, buf, ((heap.free root).free path).free super)

/-! ### Runs -/

/-- The state of the library: the heap, the global variable and the open streams. -/
structure State where
  heap : Ledger
  fsDirectory : Option Nat
  streams : List StreamBlocks

/-- A call of the library. -/
inductive Call where
  | openFile (a : OpenFile)
  | openDir (a : OpenDir)
  | fileClose (fp : StreamBlocks)

/-- One call. Only an open stream can be closed. -/
def step (s : State) : Call → Option State
  | .openFile a =>
      let (fp, fsDirectory, heap) := openFile a s.heap
      some ⟨heap, some fsDirectory, fp.toList ++ s.streams⟩
  | .openDir a => some { s with heap := (openDir a s.fsDirectory s.heap).2.2 }
  | .fileClose fp =>
      if fp ∈ s.streams then
        some { s with heap := fileClose fp s.heap, streams := s.streams.erase fp }
      else none

/-- Before the first call; `fs_directory` is null. -/
def initial : State := ⟨⟨0, []⟩, none, []⟩

/-- Calls one after another. -/
def run (s : State) (calls : List Call) : Option State := calls.foldlM step s

/-- `open_dir` fails: the super block is not read, or the directory is not found. -/
def OpenDir.Fails (a : OpenDir) : Prop :=
  let tpath := (getfilename (getpathname a.pwd a.pathname)).1
  let (r, f, disk) := readSuperBlock a.disk
  r ≠ 0 ∨ (readDirectoryBlk f (skipDrive tpath a.behind) a.root disk).1 = 0

def Call.Opens : Call → Prop
  | .openFile _ => True
  | .openDir _ => False
  | .fileClose _ => False

def Call.Fails : Call → Prop
  | .openFile _ => False
  | .openDir a => a.Fails
  | .fileClose _ => False

variable {s s' : State} {c : Call} {calls : List Call} {heap : Ledger} {p : Prop}
  {o : Multiset Nat}

/-! ### The calls without the heap -/

/-- The loop does not look at the rows. -/
theorem outer_loop_rows_walk (f : SuperBlock) (n : Nat) : ∀ (i : Nat) (w : Walk) (rows : List Nat)
    (heap : Ledger), (outerLoopRows f n i w rows heap).1 = outerLoop f n i w := by
  induction n with
  | zero => exact fun _ _ _ _ => rfl
  | succ n ih =>
      intro i w rows heap
      simp only [outerLoopRows, outerLoop]
      generalize innerLoop f i 1024 0 _ = walk
      cases walk with
      | bound w => exact ih (i + 1) w _ _
      | eof => rfl
      | error => rfl

/-- `open_file_r` returns a stream when the model without the heap does. -/
theorem open_file_r_agrees (d : Bytes) (f : SuperBlock) (blk buffer : Bytes) (disk : Disk)
    (heap : Ledger) : (openFileR d f blk disk heap).1.isSome =
      (Cfs.openFileR d f buffer blk disk).1.isSome := by
  let fp : File := { File.cleared buffer with
    bsize := f.bytePerSector * f.sectorPerBlk % 2 ^ 32
    fsize := fileSize d 0
    bytePerSector := f.bytePerSector
    count := f.sectorPerBlk }
  let w : Walk := ⟨0, fun _ _ => 0, firstBlk d 0, endMark, blk, disk⟩
  have hstart : w.numOfBlocks = 0 * 1024 := (Nat.zero_mul 1024).symm
  have hsame : SameStream (openBlocks f (1024 * 1024) (firstBlk d 0) endMark blk fp disk)
      ((outerLoop f 1024 0 w).finish f fp 0) := outer_loop_same fp hstart
  rw [Cfs.openFileR, hsame.is_some]
  simp only [openFileR]
  have hwalk := outer_loop_rows_walk f 1024 0 w [] heap.malloc.2.malloc.2.malloc.2.malloc.2
  generalize outerLoopRows f 1024 0 _ [] _ = walk at hwalk ⊢
  obtain ⟨walk, rows, heap'⟩ := walk
  rw [← hwalk]
  cases walk with
  | error => rfl
  | eof => rfl
  | bound => rfl

/-- The paths of `open_file`, from the heap after its three blocks on, and what the model without
the heap returns: `NULL` with one order of the last calls of `free` or the other, or the end for an
entry that was found. -/
inductive OpenPath (a : OpenFile) (buffer : Bytes) (path fsDirectory super : Nat) (heap : Ledger) :
    Option StreamBlocks × Nat × Ledger → Option File → Prop where
  | null (k : Nat) : OpenPath a buffer path fsDirectory super heap
      (none, fsDirectory, (((Ledger.scratch^[k] heap).free fsDirectory).free path).free super) none
  | status (k : Nat) : OpenPath a buffer path fsDirectory super heap
      (none, fsDirectory, (((Ledger.scratch^[k] heap).free path).free fsDirectory).free super) none
  | found (k : Nat) (d : Bytes) (f : SuperBlock) (disk : Disk) :
      OpenPath a buffer path fsDirectory super heap
        (openFound a d f disk path fsDirectory super (Ledger.scratch^[k] heap))
        (openEntry d f a.mode buffer a.blk disk).1

/-- The cases are the paths of `open_file`. -/
theorem open_file_path (a : OpenFile) (buffer : Bytes) (heap : Ledger) :
    OpenPath a buffer heap.malloc.1 heap.malloc.2.malloc.1 heap.malloc.2.malloc.2.malloc.1
      heap.malloc.2.malloc.2.malloc.2 (openFile a heap)
      (User.openFile a.pwd a.filename a.behind a.mode a.root buffer a.blk a.disk).1 := by
  simp only [openFile, User.openFile]
  generalize readSuperBlock a.disk = super
  obtain ⟨r, f, disk⟩ := super
  by_cases hr : r ≠ 0
  · simp only [if_pos hr]
    exact .null 0
  simp only [if_neg hr]
  generalize readDirectoryBlk f _ a.root disk = dir
  obtain ⟨dir, disk⟩ := dir
  by_cases hdir : dir = 0
  · simp only [if_pos hdir]
    exact .null 1
  simp only [if_neg hdir]
  generalize readDirectoryEntry disk _ _ _ a.root = entry
  obtain ⟨r, d, disk⟩ := entry
  by_cases habsent : r = -1
  · simp only [if_pos habsent]
    by_cases hflg : a.mode.getD 0 0#8 = 0x77#8 ∨ a.mode.getD 0 0#8 = 0x61#8
    · simp only [if_pos hflg]
      generalize createFile _ _ _ a.blk a.root disk = created
      obtain ⟨_, d, disk⟩ := created
      generalize readDirectoryEntry disk d _ _ a.root = entry
      obtain ⟨r, d, disk⟩ := entry
      by_cases hr : r ≠ 0
      · simp only [if_pos hr]
        exact .null 4
      · simp only [if_neg hr]
        exact .found 4 d _ disk
    · simp only [if_neg hflg]
      exact .null 2
  simp only [if_neg habsent]
  by_cases hr : r ≠ 0
  · simp only [if_pos hr]
    exact .status 2
  · simp only [if_neg hr]
    exact .found 2 d _ disk

/-- `open_file` returns a stream when the model without the heap does. -/
theorem open_file_agrees (a : OpenFile) (buffer : Bytes) (heap : Ledger) :
    (openFile a heap).1.isSome = (User.openFile a.pwd a.filename a.behind a.mode a.root buffer a.blk
      a.disk).1.isSome := by
  have hpath := open_file_path a buffer heap
  generalize openFile a heap = result at hpath ⊢
  generalize (User.openFile _ _ _ _ _ _ _ _).1 = opened at hpath ⊢
  cases hpath with
  | null k => rfl
  | status k => rfl
  | found k d f disk =>
      show (openFileR d f a.blk disk _).1.isSome =
        ((Cfs.openFileR d f buffer a.blk disk).1.map _).isSome
      rw [open_file_r_agrees d f a.blk buffer disk, Option.isSome_map]

/-! ### What a stream owns -/

/-- All blocks of a stream. -/
def StreamBlocks.all (fp : StreamBlocks) : Multiset Nat :=
  {fp.buffer} + ((fp.rows : Multiset Nat) + ({fp.blocks} + {fp.fp}))

/-- The rows that are left over stay allocated. -/
theorem free_rows_owned (rows : List Nat) (n : Nat) : ∀ {i : Nat} {heap : Ledger},
    heap.Owned p ((rows.drop i : Multiset Nat) + o) → (freeRows rows n i heap).Owned p o := by
  induction n with
  | zero => exact fun h => h.mono (Multiset.le_add_left _ _)
  | succ n ih =>
      intro i heap h
      rw [freeRows]
      split
      case h_1 => exact h.mono (Multiset.le_add_left _ _)
      case h_2 row hrow =>
        obtain ⟨hi, hget⟩ := List.getElem?_eq_some_iff.mp hrow
        rw [List.drop_eq_getElem_cons hi, hget, ← Multiset.cons_coe, ← Multiset.singleton_add,
          add_assoc] at h
        exact ih h.free

theorem file_close_owned {fp : StreamBlocks} (h : heap.Owned p (fp.all + o)) :
    (fileClose fp heap).Owned p o := by
  have hall : fp.all + o =
      {fp.buffer} +
        (((fp.rows.drop 0 : List Nat) : Multiset Nat) + ({fp.blocks} + ({fp.fp} + o))) := by
    rw [List.drop_zero, StreamBlocks.all]
    abel
  rw [hall] at h
  exact (free_rows_owned fp.rows 1024 h.free).free.free

theorem outer_loop_owned (f : SuperBlock) (n : Nat) : ∀ (i : Nat) (w : Walk) (rows : List Nat)
    {heap : Ledger}, heap.Owned p ((rows : Multiset Nat) + o) →
    (outerLoopRows f n i w rows heap).2.2.Owned p
      (((outerLoopRows f n i w rows heap).2.1 : Multiset Nat) + o) := by
  induction n with
  | zero => exact fun _ _ _ _ h => h
  | succ n ih =>
      intro i w rows heap h
      have hrow : heap.malloc.2.Owned p
          (((rows ++ [heap.malloc.1] : List Nat) : Multiset Nat) + o) := by
        have hsum : ((rows ++ [heap.malloc.1] : List Nat) : Multiset Nat) + o =
            {heap.malloc.1} + (rows + o) := by
          rw [← Multiset.coe_add, Multiset.coe_singleton]
          abel
        exact hsum ▸ h.malloc
      simp only [outerLoopRows]
      generalize innerLoop f i 1024 0 _ = walk
      cases walk with
      | bound w => exact ih (i + 1) w _ hrow
      | eof => exact hrow
      | error => exact hrow

/-- `open_file_r` owns the blocks of the stream that it returns, and no others. -/
theorem open_file_r_owned (h : heap.Owned p o) (d : Bytes) (f : SuperBlock) (blk : Bytes)
    (disk : Disk) : (openFileR d f blk disk heap).2.Owned p
      ((openFileR d f blk disk heap).1.elim 0 StreamBlocks.all + o) := by
  have hfour := h.malloc.malloc.malloc.malloc
  have hrows := outer_loop_owned f 1024 0 ⟨0, fun _ _ => 0, firstBlk d 0, endMark, blk, disk⟩ []
    (by rwa [Multiset.coe_nil, zero_add])
  simp only [openFileR]
  generalize outerLoopRows f 1024 0 _ [] _ = walk at hrows ⊢
  obtain ⟨walk, rows, heap'⟩ := walk
  have hblocks : ∀ fp buffer blocks table : Nat, (rows : Multiset Nat) +
      ({table} + ({blocks} + ({buffer} + ({fp} + o)))) =
        {table} + ((⟨fp, buffer, blocks, rows⟩ : StreamBlocks).all + o) := by
    intro fp buffer blocks table
    rw [StreamBlocks.all]
    abel
  rw [hblocks] at hrows
  cases walk with
  | error =>
      show (fileClose _ _).Owned p (0 + o)
      rw [zero_add]
      exact file_close_owned hrows.free
  | eof => exact hrows.free
  | bound => exact hrows.free

/-! ### `open_file` -/

/-- `open_file` returns with the blocks of its stream and no others, and `fs_directory` points to a
block that it freed. -/
structure Returned (p : Prop) (o : Multiset Nat) (result : Option StreamBlocks × Nat × Ledger) :
    Prop where
  owned : result.2.2.Owned p (result.1.elim 0 StreamBlocks.all + o)
  freed : result.2.1 ∈ result.2.2.freed

section Returns

variable {path fsDirectory super : Nat}
  (h : heap.Owned p ({super} + ({fsDirectory} + ({path} + o))))

include h

/-- The return of `NULL` on most paths. -/
theorem null_returned :
    Returned p o (none, fsDirectory, ((heap.free fsDirectory).free path).free super) := by
  have hsum : {super} + ({fsDirectory} + ({path} + o)) =
      {fsDirectory} + ({path} + ({super} + (0 + o))) := by
    abel
  rw [hsum] at h
  exact ⟨h.free.free.free, by simp [Ledger.free]⟩

/-- The return of `NULL` when the lookup has another status than -1. -/
theorem null_returned_path :
    Returned p o (none, fsDirectory, ((heap.free path).free fsDirectory).free super) := by
  have hsum : {super} + ({fsDirectory} + ({path} + o)) =
      {path} + ({fsDirectory} + ({super} + (0 + o))) := by
    abel
  rw [hsum] at h
  exact ⟨h.free.free.free, by simp [Ledger.free]⟩

theorem open_found_returned (a : OpenFile) (d : Bytes) (f : SuperBlock) (disk : Disk) :
    Returned p o (openFound a d f disk path fsDirectory super heap) := by
  have hopened := open_file_r_owned h d f a.blk disk
  have hsum : ∀ t : Multiset Nat, t + ({super} + ({fsDirectory} + ({path} + o))) =
      {path} + ({fsDirectory} + ({super} + (t + o))) := by
    intro t
    abel
  rw [hsum] at hopened
  exact ⟨hopened.free.free.free, by simp [openFound, Ledger.free]⟩

end Returns

/-- The blocks of `open_file` behind its three calls of `malloc`. -/
theorem open_file_returned (h : heap.Owned p o) (a : OpenFile) :
    Returned p o (openFile a heap) := by
  have hthree := h.malloc.malloc.malloc.scratch_iterate
  have hpath := open_file_path a a.root heap
  generalize openFile a heap = result at hpath ⊢
  generalize (User.openFile _ _ _ _ _ _ _ _).1 = opened at hpath
  cases hpath with
  | null k => exact null_returned (hthree k)
  | status k => exact null_returned_path (hthree k)
  | found k d f disk => exact open_found_returned (hthree k) a d f disk

/-! ### `open_dir` -/

/-- The return of -1: `fs_directory` is freed, which is once too often if it was freed before. -/
theorem open_dir_error_owned {fails : Prop} {fsDirectory : Option Nat} {path super : Nat}
    (h : heap.Owned p ({path} + ({super} + o))) (hfreed : ∀ d ∈ fsDirectory, d ∈ heap.freed)
    (hfails : fails) : (((heap.freePtr fsDirectory).free path).free super).Owned
      (p ∧ (fails → fsDirectory = none)) o := by
  cases fsDirectory with
  | none =>
      have honce : (p ∧ (fails → (none : Option Nat) = none)) = p := by simp
      rw [honce]
      exact h.free.free
  | some d =>
      have honce : (p ∧ (fails → some d = none)) = False := by simp [hfails]
      rw [honce]
      exact (h.free_again (hfreed d rfl)).free.free

/-- `open_dir` frees its own blocks. When it fails it frees `fs_directory` as well: one more time. -/
theorem open_dir_owned (h : heap.Owned p o) (a : OpenDir) {fsDirectory : Option Nat}
    (hfreed : ∀ d ∈ fsDirectory, d ∈ heap.freed) :
    (openDir a fsDirectory heap).2.2.Owned (p ∧ (a.Fails → fsDirectory = none)) o := by
  have htwo := h.malloc.malloc
  have hsum : ∀ super path : Nat, ({super} : Multiset Nat) + ({path} + o) =
      {path} + ({super} + o) := by
    intro super path
    abel
  rw [hsum] at htwo
  by_cases hfails : a.Fails
  · simp only [openDir]
    have hcases := hfails
    unfold OpenDir.Fails at hcases
    generalize readSuperBlock a.disk = super at hcases ⊢
    obtain ⟨r, f, disk⟩ := super
    change r ≠ 0 ∨ (readDirectoryBlk f _ a.root disk).1 = 0 at hcases
    by_cases hr : r ≠ 0
    · simp only [if_pos hr]
      exact open_dir_error_owned htwo hfreed hfails
    have hzero := hcases.resolve_left hr
    simp only [if_neg hr, if_pos hzero]
    exact open_dir_error_owned htwo.scratch (fun d hd => List.mem_cons_of_mem _ (hfreed d hd))
      hfails
  · have honce : (p ∧ (a.Fails → fsDirectory = none)) = p := by simp [hfails]
    rw [honce]
    simp only [openDir]
    unfold OpenDir.Fails at hfails
    generalize readSuperBlock a.disk = super at hfails ⊢
    obtain ⟨r, f, disk⟩ := super
    change ¬ (r ≠ 0 ∨ (readDirectoryBlk f _ a.root disk).1 = 0) at hfails
    rw [not_or] at hfails
    simp only [if_neg hfails.1, if_neg hfails.2]
    exact htwo.scratch.malloc.free.free.free

/-- What was freed stays freed. -/
theorem free_rows_freed {b : Nat} (rows : List Nat) (n : Nat) : ∀ {i : Nat} {heap : Ledger},
    b ∈ heap.freed → b ∈ (freeRows rows n i heap).freed := by
  induction n with
  | zero => exact id
  | succ n ih =>
      intro i heap h
      rw [freeRows]
      split
      case h_1 => exact h
      case h_2 => exact ih (List.mem_cons_of_mem _ h)

theorem open_dir_freed {b : Nat} (a : OpenDir) (fsDirectory : Option Nat) (h : b ∈ heap.freed) :
    b ∈ (openDir a fsDirectory heap).2.2.freed := by
  have hptr : ∀ {heap' : Ledger}, b ∈ heap'.freed → b ∈ (heap'.freePtr fsDirectory).freed := by
    intro heap' hb
    cases fsDirectory with
    | none => exact hb
    | some d => exact List.mem_cons_of_mem d hb
  simp only [openDir]
  split
  · exact List.mem_cons_of_mem _ (List.mem_cons_of_mem _ (hptr h))
  · split
    · exact List.mem_cons_of_mem _ (List.mem_cons_of_mem _ (hptr (List.mem_cons_of_mem _ h)))
    · exact List.mem_cons_of_mem _ (List.mem_cons_of_mem _ (List.mem_cons_of_mem _
        (List.mem_cons_of_mem _ h)))

/-! ### Runs -/

/-- The open streams own their blocks, and `fs_directory` points to a block that was freed. -/
structure Inv (s : State) (p : Prop) : Prop where
  owned : s.heap.Owned p (s.streams.map StreamBlocks.all).sum
  freed : ∀ d ∈ s.fsDirectory, d ∈ s.heap.freed

theorem initial_inv : Inv initial True :=
  ⟨⟨Multiset.nodup_zero, fun _ hb => absurd hb (Multiset.notMem_zero _),
    fun _ hb => absurd hb (Multiset.notMem_zero _), fun _ hb => absurd hb List.not_mem_nil,
    iff_true_intro List.nodup_nil⟩, fun _ hd => by cases hd⟩

/-- One call: a block is freed twice when `open_dir` fails with `fs_directory` set. -/
theorem step_inv (h : Inv s p) (hstep : step s c = some s') :
    Inv s' (p ∧ (c.Fails → s.fsDirectory = none)) ∧
      (s'.fsDirectory = none ↔ s.fsDirectory = none ∧ ¬ c.Opens) := by
  cases c with
  | openFile a =>
      have honce : (p ∧ ((Call.openFile a).Fails → s.fsDirectory = none)) = p := by
        simp [Call.Fails]
      have hreturned := open_file_returned h.owned a
      rw [honce]
      simp only [step, Option.some.injEq] at hstep
      subst hstep
      refine ⟨⟨?_, fun d hd => ?_⟩, by simp [Call.Opens]⟩
      · have howned := hreturned.owned
        cases hfp : (openFile a s.heap).1 with
        | none =>
            rw [hfp] at howned
            simpa using howned
        | some fp =>
            rw [hfp] at howned
            simpa using howned
      · obtain rfl := Option.mem_some_iff.mp hd
        exact hreturned.freed
  | openDir a =>
      cases hstep
      exact ⟨⟨open_dir_owned h.owned a h.freed, fun d hd => open_dir_freed a _ (h.freed d hd)⟩,
        by simp [Call.Opens]⟩
  | fileClose fp =>
      have honce : (p ∧ ((Call.fileClose fp).Fails → s.fsDirectory = none)) = p := by
        simp [Call.Fails]
      rw [honce]
      simp only [step, Option.ite_none_right_eq_some, Option.some.injEq] at hstep
      obtain ⟨hmem, rfl⟩ := hstep
      refine ⟨⟨file_close_owned ?_, fun d hd => ?_⟩, by simp [Call.Opens]⟩
      · have hsum := ((List.perm_cons_erase hmem).map StreamBlocks.all).sum_eq
        rw [List.map_cons, List.sum_cons] at hsum
        exact hsum ▸ h.owned
      · exact List.mem_cons_of_mem _ (List.mem_cons_of_mem _ (free_rows_freed _ _
          (List.mem_cons_of_mem _ (h.freed d hd))))

/-- The calls one after another. -/
theorem run_inv (h : Inv s p) (hrun : run s calls = some s') :
    s'.heap.FreedOnce ↔ p ∧ (s.fsDirectory ≠ none → ∀ c ∈ calls, ¬ c.Fails) ∧
      calls.Pairwise fun c c' => c.Opens → ¬ c'.Fails := by
  induction calls generalizing s p with
  | nil =>
      cases hrun
      simpa using h.owned.once
  | cons c calls ih =>
      rw [run, List.foldlM_cons] at hrun
      obtain ⟨s₁, hstep, hrest⟩ := Option.bind_eq_some_iff.mp hrun
      obtain ⟨hinv, hdirectory⟩ := step_inv h hstep
      rw [ih hinv hrest, List.pairwise_cons, List.forall_mem_cons, Ne, hdirectory]
      have hswap : (∀ c' ∈ calls, c.Opens → ¬ c'.Fails) ↔ (c.Opens → ∀ c' ∈ calls, ¬ c'.Fails) :=
        ⟨fun h hc c' hc' => h c' hc' hc, fun h c' hc' hc => h hc c' hc'⟩
      rw [hswap]
      constructor
      · rintro ⟨⟨hp, hfirst⟩, hlater, hcalls⟩
        exact ⟨hp, fun hset => ⟨fun hfails => hset (hfirst hfails), hlater fun hnone => hset hnone.1⟩,
          fun hopens => hlater fun hnone => hnone.2 hopens, hcalls⟩
      · rintro ⟨hp, hset, hopens, hcalls⟩
        refine ⟨⟨hp, fun hfails => ?_⟩, fun hnone => ?_, hcalls⟩
        · by_contra hdirectory
          exact (hset hdirectory).1 hfails
        · obtain hdirectory | hopen := not_and_or.mp hnone
          · exact (hset hdirectory).2
          · exact hopens (not_not.mp hopen)

/-- In every run of `open_file`, `open_dir` and `file_close`, each block is passed to `free` at most
once if and only if no call of `open_dir` that fails comes after a call of `open_file`. -/
theorem freed_once_iff (hrun : run initial calls = some s) :
    s.heap.FreedOnce ↔ calls.Pairwise fun c c' => c.Opens → ¬ c'.Fails := by
  rw [run_inv initial_inv hrun]
  simp [initial]

/-- A disk whose first request fails. -/
def faultyDisk : Disk := ⟨fun _ => 0#8, [true]⟩

/-- The calls of `open_file` and `open_dir` on a disk. -/
def openCall (disk : Disk) : Call :=
  .openFile ⟨[], [], [], [], fun _ => 0#8, fun _ => 0#8, disk⟩

def dirCall (disk : Disk) : Call :=
  .openDir ⟨[], [], [], fun _ => 0#8, 64, fun _ => 0#8, disk⟩

theorem freed_once_iff_dir :
    ∃ s, run initial [dirCall faultyDisk, openCall faultyDisk] = some s ∧ s.heap.FreedOnce := by
  have hrun : run initial [dirCall faultyDisk, openCall faultyDisk] =
      some ⟨⟨5, [4, 2, 3, 1, 0]⟩, some 3, []⟩ := rfl
  exact ⟨_, hrun, (freed_once_iff hrun).mpr (by simp [dirCall, Call.Opens])⟩

/-- `open_dir` frees the entry of `open_file` again. -/
theorem directory_freed_twice :
    ∃ s, run initial [openCall faultyDisk, dirCall faultyDisk] = some s ∧ ¬ s.heap.FreedOnce := by
  refine ⟨⟨⟨5, [4, 3, 1, 2, 0, 1]⟩, some 1, []⟩, rfl, ?_⟩
  unfold Ledger.FreedOnce
  decide

end Sirius.Cfs.Ownership
