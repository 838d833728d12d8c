import Sirius.Cfs.Disk

/-!
# The three directory lookups

The user library, the kernel and the boot loader each search a directory block for a file name.
The comparison of names is the same text in the three programs; the loops around it are not.
The user library skips entries that are not busy, the kernel does not, and the boot loader also
reports success when no entry matches. `lookups_agree_iff` says exactly when the three give one
answer.
-/

namespace Sirius.Cfs

open Library

/-- First loop of `filename_cmp`: the name at `us2`, padded with spaces to `n` bytes. -/
def padName (s2 : Bytes) : (n us2 : Nat) → List Byte
  | 0, _ => []
  | n + 1, us2 =>
      if s2 us2 = 0 then 0x20#8 :: padName s2 n us2 else s2 us2 :: padName s2 n (us2 + 1)

/-- Second loop of `filename_cmp`: 0 if the bytes at `us1` are those of the padded name. -/
def compareName (s1 : Bytes) : (us1 : Nat) → List Byte → Int
  | _, [] => 0
  | us1, b :: s3 => if s1 us1 ≠ b then 1 else compareName s1 (us1 + 1) s3

/-- `filename_cmp`, the same function in the three programs: 0 if the 96 bytes at `e` are the
name `s2` padded with spaces. -/
def filenameCmp (s1 : Bytes) (e : Nat) (s2 : Bytes) : Int :=
  compareName s1 e (padName s2 96 0)

/-- The search loop of `read_directory_entry`: `r = cmp(i)` for up to `n` entries from `i` on,
left with `break` at the first 0. -/
def searchEntries (cmp : Nat → Int) : (n i : Nat) → (r : Int) → Nat × Int
  | 0, i, r => (i, r)
  | n + 1, i, _ => if cmp i = 0 then (i, 0) else searchEntries cmp n (i + 1) (cmp i)

/-- `root`: the directory block in a freshly allocated buffer that was cleared first. The bytes
behind the 8192 cleared ones are those of the heap. -/
def readRoot (disk : Disk) (f : SuperBlock) (heap : Bytes) : Int × Bytes × Disk :=
  readSector disk f.sectorPerBlk (f.firstSector f.rootBlk) (fillBytes heap 0 8192 0)

/-- `read_directory_entry` of the user library. -/
def User.readDirectoryEntry (disk : Disk) (d : Bytes) (f : SuperBlock) (filename heap : Bytes) :
    Int × Bytes × Disk :=
  let (r, root, disk) := readRoot disk f heap
  if r ≠ 0 then (-1, d, disk)
  else
    let (i, r) := searchEntries
      (fun i => if busy root (i * 128) ≠ 0#8 then filenameCmp root (i * 128) filename else -1) 64 0 r
    if r = 0 ∧ i < 64 then (r, copyBytes d 0 root (i * 128) 128, disk) else (-1, d, disk)

/-- `read_directory_entry` of the kernel, which compares entries whether busy or not. -/
def Kernel.readDirectoryEntry (disk : Disk) (d : Bytes) (f : SuperBlock) (filename heap : Bytes) :
    Int × Bytes × Disk :=
  let (r, root, disk) := readRoot disk f heap
  if r ≠ 0 then (r, d, disk)
  else
    let (i, r) := searchEntries (fun i => filenameCmp root (i * 128) filename) 64 0 r
    if r = 0 ∧ i < 64 then (r, copyBytes d 0 root (i * 128) 128, disk) else (r, d, disk)

/-- `read_directory_entry` of the boot loader, which copies the entry the loop stopped at and
returns 0 in every case. -/
def Boot.readDirectoryEntry (disk : Disk) (d : Bytes) (f : SuperBlock) (filename heap : Bytes) :
    Int × Bytes × Disk :=
  let (r, root, disk) := readRoot disk f heap
  let (i, _) := searchEntries (fun i => filenameCmp root (i * 128) filename) 64 0 r
  (0, copyBytes d 0 root (i * 128) 128, disk)

/-! ### Comparing names -/

/-- The second loop of `filename_cmp`. The induction is on the bytes of the padded name. -/
theorem compare_name_iff (s1 : Bytes) (l : List Byte) : ∀ us1 : Nat,
    compareName s1 us1 l = 0 ↔ ∀ k < l.length, l[k]? = some (s1 (us1 + k)) := by
  induction l with
  | nil => exact fun us1 => ⟨fun _ k hk => absurd hk (Nat.not_lt_zero k), fun _ => rfl⟩
  | cons b l ih =>
      intro us1
      rw [compareName]
      by_cases hb : s1 us1 = b
      · rw [if_neg (fun hne => hne hb), ih (us1 + 1)]
        constructor
        · intro h k hk
          cases k with
          | zero => exact congrArg some hb.symm
          | succ k =>
              rw [List.length_cons] at hk
              rw [List.getElem?_cons_succ, h k (by omega), Nat.add_right_comm, Nat.add_assoc]
        · intro h k hk
          have hnext := h (k + 1) (by rw [List.length_cons]; omega)
          rwa [List.getElem?_cons_succ, Nat.add_comm k 1, ← Nat.add_assoc] at hnext
      · rw [if_pos hb]
        constructor
        · intro h
          exact absurd h (by decide)
        · intro h
          have hfirst := h 0 (by rw [List.length_cons]; omega)
          exact absurd (Option.some.inj hfirst).symm hb

theorem pad_name_length (s2 : Bytes) (n : Nat) : ∀ us2 : Nat, (padName s2 n us2).length = n := by
  induction n with
  | zero => exact fun _ => rfl
  | succ n ih =>
      intro us2
      rw [padName]
      split
      · rw [List.length_cons, ih]
      · rw [List.length_cons, ih]

/-- The comparison reads the 96 bytes of the name only. -/
theorem filename_cmp_congr {s1 s1' s2 : Bytes} {e e' : Nat}
    (h : ∀ k < 96, s1 (e + k) = s1' (e' + k)) :
    filenameCmp s1 e s2 = 0 ↔ filenameCmp s1' e' s2 = 0 := by
  rw [filenameCmp, filenameCmp, compare_name_iff, compare_name_iff, pad_name_length]
  constructor
  · intro hname k hk
    rw [← h k hk]
    exact hname k hk
  · intro hname k hk
    rw [h k hk]
    exact hname k hk

/-! ### The search loop -/

/-- The loop stops at the first entry that compares equal. -/
theorem search_entries_found (cmp : Nat → Int) {n i k : Nat} (r : Int) (hi : i ≤ k)
    (hk : k < i + n) (hcmp : cmp k = 0) (hfirst : ∀ j, i ≤ j → j < k → cmp j ≠ 0) :
    searchEntries cmp n i r = (k, 0) := by
  induction n generalizing i r with
  | zero => omega
  | succ n ih =>
      rcases Nat.eq_or_lt_of_le hi with rfl | hlt
      · simp [searchEntries, hcmp]
      · rw [searchEntries, if_neg (hfirst i le_rfl hlt)]
        exact ih _ hlt (by omega) (fun j hj => hfirst j (by omega))

/-- Without an equal entry the loop runs to the end and keeps the last comparison. -/
theorem search_entries_absent (cmp : Nat → Int) (n i : Nat) (r : Int)
    (h : ∀ j, i ≤ j → j < i + (n + 1) → cmp j ≠ 0) :
    searchEntries cmp (n + 1) i r = (i + (n + 1), cmp (i + n)) := by
  induction n generalizing i r with
  | zero => simp [searchEntries, h i le_rfl (by omega)]
  | succ n ih =>
      rw [searchEntries, if_neg (h i le_rfl (by omega)),
        ih _ _ (fun j hj hlt => h j (by omega) (by omega))]
      simp only [Prod.mk.injEq]
      exact ⟨by omega, congrArg cmp (by omega)⟩

/-- Either some entry is the first equal one, or none is equal. -/
theorem first_or_absent (cmp : Nat → Int) :
    (∃ k < 64, cmp k = 0 ∧ ∀ j < k, cmp j ≠ 0) ∨ ∀ j < 64, cmp j ≠ 0 := by
  by_cases h : ∃ k, k < 64 ∧ cmp k = 0
  · refine .inl ⟨Nat.find h, (Nat.find_spec h).1, (Nat.find_spec h).2, fun j hj hzero => ?_⟩
    exact Nat.find_min h hj ⟨lt_trans hj (Nat.find_spec h).1, hzero⟩
  · exact .inr fun j hj hzero => h ⟨j, hj, hzero⟩

/-! ### What the three lookups answer -/

/-- `d` holds the entry `i` of the directory block `root`. -/
def HoldsEntry (d root : Bytes) (i : Nat) : Prop :=
  ∀ k < 128, d k = root (i * 128 + k)

theorem holds_entry_copy (d root : Bytes) (i : Nat) :
    HoldsEntry (copyBytes d 0 root (i * 128) 128) root i :=
  fun k hk => by simp [copyBytes, hk]

/-- The directory block the lookups search on a disk without faults. -/
def directoryBlock (disk : Disk) (f : SuperBlock) (heap : Bytes) : Bytes :=
  copyBytes (fillBytes heap 0 8192 0) 0 disk.bytes (f.firstSector f.rootBlk * 512)
    (f.sectorPerBlk * 512)

/-- The answer `(r, d)` of a lookup is the entry `i` of `root`. -/
def Finds (answer : Int × Bytes × Disk) (root : Bytes) (i : Nat) : Prop :=
  answer.1 = 0 ∧ HoldsEntry answer.2.1 root i

/-- The three lookups of `filename` give the same answer: one busy entry, or that the name does
not exist. -/
def LookupsAgree (disk : Disk) (f : SuperBlock) (filename heap d : Bytes) : Prop :=
  let root := directoryBlock disk f heap
  let user := User.readDirectoryEntry disk d f filename heap
  let kernel := Kernel.readDirectoryEntry disk d f filename heap
  let boot := Boot.readDirectoryEntry disk d f filename heap
  (∃ i < 64, busy root (i * 128) ≠ 0#8 ∧ Finds user root i ∧ Finds kernel root i ∧
      Finds boot root i) ∨
    (user.1 ≠ 0 ∧ kernel.1 ≠ 0 ∧ boot.1 ≠ 0)

/-- Some entry of `root` matches the name, and the first one that does is busy. -/
def FirstMatchBusy (root filename : Bytes) : Prop :=
  ∃ i < 64, filenameCmp root (i * 128) filename = 0 ∧ busy root (i * 128) ≠ 0#8 ∧
    ∀ j < i, filenameCmp root (j * 128) filename ≠ 0

section Answers

variable {disk : Disk} {f : SuperBlock} {filename heap d : Bytes} {i : Nat}

/-- The user library finds the first busy entry with the name. -/
theorem user_finds (hok : disk.fails = []) (hi : i < 64)
    (hmatch : filenameCmp (directoryBlock disk f heap) (i * 128) filename = 0)
    (hbusy : busy (directoryBlock disk f heap) (i * 128) ≠ 0#8)
    (hfirst : ∀ j < i, busy (directoryBlock disk f heap) (j * 128) ≠ 0#8 →
      filenameCmp (directoryBlock disk f heap) (j * 128) filename ≠ 0) :
    User.readDirectoryEntry disk d f filename heap =
      (0, copyBytes d 0 (directoryBlock disk f heap) (i * 128) 128, disk) := by
  have hloop := search_entries_found
    (fun i => if busy (directoryBlock disk f heap) (i * 128) ≠ 0#8
      then filenameCmp (directoryBlock disk f heap) (i * 128) filename else -1)
    0 (Nat.zero_le i) (show i < 0 + 64 by omega) (by simp [hmatch, hbusy])
    (fun j _ hj => by
      by_cases hb : busy (directoryBlock disk f heap) (j * 128) = 0#8
      · simp [hb]
      · simpa [hb] using hfirst j hj hb)
  unfold directoryBlock at hloop
  simp only [User.readDirectoryEntry, readRoot, read_sector_ok hok, ne_eq, not_true, if_false,
    hloop, hi, and_self, if_true, directoryBlock]

/-- The kernel finds the first entry with the name, busy or not. -/
theorem kernel_finds (hok : disk.fails = []) (hi : i < 64)
    (hmatch : filenameCmp (directoryBlock disk f heap) (i * 128) filename = 0)
    (hfirst : ∀ j < i, filenameCmp (directoryBlock disk f heap) (j * 128) filename ≠ 0) :
    Kernel.readDirectoryEntry disk d f filename heap =
      (0, copyBytes d 0 (directoryBlock disk f heap) (i * 128) 128, disk) := by
  have hloop := search_entries_found
    (fun i => filenameCmp (directoryBlock disk f heap) (i * 128) filename) 0 (Nat.zero_le i)
    (show i < 0 + 64 by omega) hmatch (fun j _ hj => hfirst j hj)
  unfold directoryBlock at hloop
  simp only [Kernel.readDirectoryEntry, readRoot, read_sector_ok hok, ne_eq, not_true, if_false,
    hloop, hi, and_self, if_true, directoryBlock]

/-- The boot loader finds the first entry with the name, busy or not. -/
theorem boot_finds (hok : disk.fails = []) (hi : i < 64)
    (hmatch : filenameCmp (directoryBlock disk f heap) (i * 128) filename = 0)
    (hfirst : ∀ j < i, filenameCmp (directoryBlock disk f heap) (j * 128) filename ≠ 0) :
    Boot.readDirectoryEntry disk d f filename heap =
      (0, copyBytes d 0 (directoryBlock disk f heap) (i * 128) 128, disk) := by
  have hloop := search_entries_found
    (fun i => filenameCmp (directoryBlock disk f heap) (i * 128) filename) 0 (Nat.zero_le i)
    (show i < 0 + 64 by omega) hmatch (fun j _ hj => hfirst j hj)
  unfold directoryBlock at hloop
  simp only [Boot.readDirectoryEntry, readRoot, read_sector_ok hok, hloop, directoryBlock]

/-- The kernel reports that a name without a matching entry does not exist. -/
theorem kernel_absent (hok : disk.fails = [])
    (h : ∀ j < 64, filenameCmp (directoryBlock disk f heap) (j * 128) filename ≠ 0) :
    (Kernel.readDirectoryEntry disk d f filename heap).1 ≠ 0 := by
  have hloop := search_entries_absent
    (fun i => filenameCmp (directoryBlock disk f heap) (i * 128) filename) 63 0 0
    (fun j _ hj => h j (by omega))
  have hlast := h 63 (by omega)
  unfold directoryBlock at hloop hlast
  simp only [Kernel.readDirectoryEntry, readRoot, read_sector_ok hok, ne_eq, not_true, if_false,
    hloop]
  simpa using hlast

/-- The boot loader always reports success. -/
theorem boot_succeeds : (Boot.readDirectoryEntry disk d f filename heap).1 = 0 := rfl

/-- An answer holding an entry determines its busy mark. -/
theorem busy_of_holds {root : Bytes} (h : HoldsEntry d root i) :
    busy d 0 = busy root (i * 128) := by
  simpa [busy] using h 97 (by omega)

end Answers

/-- The three lookups agree exactly when some entry matches the name and the first one that does
is busy. A stale entry in front makes the kernel and the boot loader find a deleted file, and a
name without any entry is reported as found by the boot loader. -/
theorem lookups_agree_iff (bytes : Bytes) (f : SuperBlock) (filename heap d : Bytes) :
    LookupsAgree ⟨bytes, []⟩ f filename heap d ↔
      FirstMatchBusy (directoryBlock ⟨bytes, []⟩ f heap) filename := by
  constructor
  · rintro (⟨i, hi, hbusy, -, hkernel, hboot⟩ | ⟨-, -, hboot⟩)
    · rcases first_or_absent
        (fun k => filenameCmp (directoryBlock ⟨bytes, []⟩ f heap) (k * 128) filename) with
        ⟨k, hk, hmatch, hfirst⟩ | habsent
      · refine ⟨k, hk, hmatch, ?_, hfirst⟩
        have hentry := hkernel.2
        rw [kernel_finds rfl hk hmatch hfirst] at hentry
        -- the bytes the kernel copied are those of entry `k` and of the busy entry `i`
        rw [← busy_of_holds (holds_entry_copy d _ k), busy_of_holds hentry]
        exact hbusy
      · exact absurd hkernel.1 (kernel_absent rfl habsent)
    · exact absurd boot_succeeds hboot
  · rintro ⟨i, hi, hmatch, hbusy, hfirst⟩
    refine .inl ⟨i, hi, hbusy, ?_, ?_, ?_⟩
    · rw [Finds, user_finds rfl hi hmatch hbusy (fun j hj _ => hfirst j hj)]
      exact ⟨rfl, holds_entry_copy d _ i⟩
    · rw [Finds, kernel_finds rfl hi hmatch hfirst]
      exact ⟨rfl, holds_entry_copy d _ i⟩
    · rw [Finds, boot_finds rfl hi hmatch hfirst]
      exact ⟨rfl, holds_entry_copy d _ i⟩

/-- A name that does not exist in an empty root directory: the user library and the kernel report
so, the boot loader reports success. -/
theorem lookups_disagree_on_missing_name :
    ¬ LookupsAgree ⟨fun _ => 0#8, []⟩
      { hidden := 0, rsv := 2, bytePerSector := 512, sectorPerBlk := 16, numOfBlk := 4096,
        sizeOfFat := 2, rootBlk := 2, numOfSectors := 65538 }
      (fun i => if i = 0 then 0x41#8 else 0#8) (fun _ => 0#8) (fun _ => 0#8) := by
  rintro (⟨i, -, hbusy, -⟩ | ⟨-, -, hboot⟩)
  · exact hbusy (by simp [busy, directoryBlock, copyBytes, fillBytes])
  · exact hboot boot_succeeds

end Sirius.Cfs
