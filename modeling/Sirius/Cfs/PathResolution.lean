import Sirius.Cfs.UniqueNames

/-!
# Resolving a path

`getfilename` cuts the last component off a path, and `read_directory_blk` walks over the others from
the root directory. `Resolves` is the walk as a relation: one lookup for each component, among the
busy entries with the directory attribute. The functions return the block that the relation reaches,
and 0 when there is none. Block 0 holds the allocation table, so a walk that reaches it gives the same
answer as one that fails.
-/

namespace Sirius.Cfs.User

open Library

/-- Entry `i` of the directory block `D` is a directory called `name`. -/
def IsDirEntry (bytes : Bytes) (f : SuperBlock) (D : Nat) (name : List Byte) (i : Nat) : Prop :=
  busy bytes (entryAt f (D, i)) ≠ 0#8 ∧ attr bytes (entryAt f (D, i)) &&& 0x40#8 ≠ 0#8 ∧
    ∀ k < 96, bytes (entryAt f (D, i) + k) = name.getD k space

/-- Entry `i` is the first directory called `name` in the directory block `D`. -/
structure FindsDir (bytes : Bytes) (f : SuperBlock) (D : Nat) (name : List Byte) (i : Nat) :
    Prop where
  range : i < 64
  entry : IsDirEntry bytes f D name i
  first : ∀ j < i, ¬ IsDirEntry bytes f D name j

/-- The walk over the components leads from the directory block `D` to the block `E`. -/
inductive Resolves (bytes : Bytes) (f : SuperBlock) : Nat → List (List Byte) → Nat → Prop
  | here (D : Nat) : Resolves bytes f D [] D
  | step {D i E : Nat} {name : List Byte} {names : List (List Byte)} :
      FindsDir bytes f D name i →
      Resolves bytes f (firstBlk bytes (entryAt f (D, i))) names E →
      Resolves bytes f D (name :: names) E

/-- The components, each with the slash behind it. -/
def joinedPath (names : List (List Byte)) : List Byte := names.flatMap (· ++ [slash])

/-- A character string that is a component: no null byte and no slash. -/
def IsComponent (name : List Byte) : Prop := 0#8 ∉ name ∧ slash ∉ name

variable {bytes root : Bytes} {f : SuperBlock} {D E E' i j : Nat} {disk : Disk}
  {name rest : List Byte} {names : List (List Byte)}

/-! ### The relation -/

theorem FindsDir.unique (h : FindsDir bytes f D name i) (h' : FindsDir bytes f D name j) : i = j := by
  by_contra hne
  cases Nat.lt_or_gt_of_ne hne with
  | inl hlt => exact h'.first i hlt h.entry
  | inr hlt => exact h.first j hlt h'.entry

/-- A path leads to one block at most. -/
theorem Resolves.unique (h : Resolves bytes f D names E) (h' : Resolves bytes f D names E') :
    E = E' := by
  induction h with
  | here D =>
      cases h'
      rfl
  | step hfinds _ ih =>
      cases h' with
      | step hfinds' hrest =>
          cases hfinds.unique hfinds'
          exact ih hrest

/-! ### The strings -/

theorem joined_path_cons : joinedPath (name :: names) = name ++ slash :: joinedPath names := by
  simp [joinedPath]

/-- `path_count` of the components is their number. -/
theorem path_count_joined (h : ∀ name ∈ names, IsComponent name) :
    pathCount (joinedPath names) = names.length := by
  induction names with
  | nil => rfl
  | cons name names ih =>
      have hname := (h name (List.mem_cons_self ..)).2
      have hrest := ih fun other hmem => h other (List.mem_cons_of_mem _ hmem)
      unfold pathCount at hrest ⊢
      rw [joined_path_cons, List.count_append, List.count_eq_zero_of_not_mem hname,
        List.count_cons_self, hrest, List.length_cons]
      omega

/-- The loop of `read_directory_blk` cuts the first component off. -/
theorem take_component (rest : List Byte) (h : slash ∉ name) :
    (name ++ slash :: rest).takeWhile (· ≠ slash) = name ∧
    ((name ++ slash :: rest).dropWhile (· ≠ slash)).drop 1 = rest := by
  have hall : ∀ c ∈ name, (decide (c ≠ slash)) = true := fun c hc =>
    decide_eq_true fun heq => h (heq ▸ hc)
  rw [List.takeWhile_append_of_pos hall, List.dropWhile_append_of_pos hall]
  simp

/-- `getfilename` splits the path at its last slash. -/
theorem getfilename_split (hname : slash ∉ name) :
    getfilename (rest ++ slash :: name) = (rest ++ [slash], name) := by
  have hlast : lastPart (rest ++ slash :: name) = name := by
    rw [last_part_behind, last_part_eq hname]
  show ((rest ++ slash :: name).take _, lastPart (rest ++ slash :: name)) = _
  rw [hlast, Prod.mk.injEq]
  refine ⟨?_, rfl⟩
  show (rest ++ slash :: name).take ((rest ++ slash :: name).length -
    (lastPart (rest ++ slash :: name)).length) = _
  have hlength : (rest ++ slash :: name).length - name.length = (rest ++ [slash]).length := by
    simp only [List.length_append, List.length_cons, List.length_nil]
    omega
  have hpath : rest ++ slash :: name = rest ++ [slash] ++ name := by simp
  rw [hlast, hlength, hpath, List.take_left]

/-! ### The walk -/

/-- The comparison of the walk finds a directory with the name. -/
theorem directory_cmp_iff (hholds : HoldsDir root bytes f D) (hname : 0#8 ∉ name) (hi : i < 64) :
    directoryCmp root name i = 0 ↔ IsDirEntry bytes f D name i := by
  unfold directoryCmp IsDirEntry
  rw [hholds.busy hi, hholds.attr hi]
  by_cases hdir : busy bytes (entryAt f (D, i)) ≠ 0#8 ∧
      attr bytes (entryAt f (D, i)) &&& 0x40#8 ≠ 0#8
  · rw [if_pos hdir, filename_cmp_iff _ _ hname, and_iff_right hdir.1, and_iff_right hdir.2]
    exact forall₂_congr fun k hk => by rw [hholds.byte hi (by omega)]
  · rw [if_neg hdir]
    exact ⟨fun h => absurd h (by decide), fun h => absurd ⟨h.1, h.2.1⟩ hdir⟩

/-- The walk reaches the block of the path, or it returns 0. The induction is on the components. -/
theorem directory_loop_resolves (hsectors : f.sectorPerBlk = 16) (hok : disk.fails = [])
    (names : List (List Byte)) (h : ∀ name ∈ names, IsComponent name) :
    ∀ (D : Nat) (root : Bytes), ∃ r,
      directoryLoop f names.length (joinedPath names) D (f.firstSector D) root disk = (r, disk) ∧
      (Resolves disk.bytes f D names r ∨ r = 0 ∧ ∀ E, ¬ Resolves disk.bytes f D names E) := by
  induction names with
  | nil => exact fun D root => ⟨D, rfl, .inl (.here D)⟩
  | cons name names ih =>
      intro D root
      obtain ⟨hnull, hslash⟩ := h name (List.mem_cons_self ..)
      obtain ⟨htake, hdrop⟩ := take_component (joinedPath names) hslash
      have hholds := holds_dir_read hsectors root disk.bytes D
      rw [List.length_cons, directoryLoop, read_sector_ok hok, joined_path_cons, htake, hdrop]
      simp only [ne_eq, not_true_eq_false, if_false]
      generalize copyBytes root 0 disk.bytes (f.firstSector D * 512) (f.sectorPerBlk * 512) = root'
        at hholds ⊢
      obtain ⟨i, hi, hmatch, hfirst⟩ | habsent := first_or_absent (directoryCmp root' name)
      · rw [search_entries_found _ 0 (Nat.zero_le i) (by omega) hmatch fun j _ hj => hfirst j hj]
        have hfinds : FindsDir disk.bytes f D name i :=
          ⟨hi, (directory_cmp_iff hholds hnull hi).mp hmatch, fun j hj hdir =>
            hfirst j hj ((directory_cmp_iff hholds hnull (hj.trans hi)).mpr hdir)⟩
        simp only [hi, and_self, if_true, hholds.first_blk hi]
        obtain ⟨r, hrun, hresolves | ⟨hzero, hnone⟩⟩ :=
          ih (fun other hmem => h other (List.mem_cons_of_mem _ hmem))
            (firstBlk disk.bytes (entryAt f (D, i))) root'
        · exact ⟨r, hrun, .inl (.step hfinds hresolves)⟩
        · refine ⟨r, hrun, .inr ⟨hzero, fun E hresolves => ?_⟩⟩
          cases hresolves with
          | step hfinds' hrest =>
              cases hfinds.unique hfinds'
              exact hnone E hrest
      · rw [search_entries_absent _ 63 0 0 fun j _ hj => habsent j (by omega)]
        refine ⟨0, if_neg fun h => by omega, .inr ⟨rfl, fun E hresolves => ?_⟩⟩
        cases hresolves with
        | step hfinds _ =>
            exact habsent _ hfinds.range
              ((directory_cmp_iff hholds hnull hfinds.range).mpr hfinds.entry)

/-- The path `A:/c1/.../cn/name`. -/
def fullPath (drive : Byte) (names : List (List Byte)) (name : List Byte) : List Byte :=
  drive :: colon :: slash :: (joinedPath names ++ name)

/-- `getfilename` and the skip over the drive leave the components of a path and its name. -/
theorem getfilename_full_path (drive : Byte) (names : List (List Byte)) (hname : slash ∉ name)
    (behind : List Byte) :
    (getfilename (fullPath drive names name)).2 = name ∧
      skipDrive (getfilename (fullPath drive names name)).1 behind = joinedPath names := by
  obtain ⟨rest, hrest⟩ : ∃ rest, drive :: colon :: slash :: joinedPath names = rest ++ [slash] := by
    cases names using List.reverseRecOn with
    | nil => exact ⟨[drive, colon], rfl⟩
    | append_singleton names last =>
        refine ⟨drive :: colon :: slash :: (joinedPath names ++ last), ?_⟩
        simp [joinedPath]
  have hpath : fullPath drive names name = rest ++ slash :: name := by
    have hsplit : rest ++ slash :: name = rest ++ [slash] ++ name := by simp
    rw [hsplit, ← hrest]
    rfl
  rw [hpath, getfilename_split hname, ← hrest]
  exact ⟨rfl, if_pos (by simp)⟩

/-- Path resolution: on a disk without faults `getfilename` returns the name, and
`read_directory_blk` the block of the directory that the components lead to from the root directory,
or 0 when some component is missing or is not a directory. The result is 0 as well when the components
lead to block 0, and in no other case. -/
theorem path_resolution (f : SuperBlock) (hsectors : f.sectorPerBlk = 16) (disk : Disk)
    (hok : disk.fails = []) (drive : Byte) (names : List (List Byte)) (name : List Byte)
    (hnames : ∀ c ∈ names, IsComponent c) (hname : IsComponent name) (behind : List Byte)
    (root : Bytes) :
    (getfilename (fullPath drive names name)).2 = name ∧
      ∃ r, readDirectoryBlk f (skipDrive (getfilename (fullPath drive names name)).1 behind) root disk =
        (r, disk) ∧
      (∀ E, Resolves disk.bytes f f.rootBlk names E → r = E) ∧
      (r = 0 ↔ (∀ E, ¬ Resolves disk.bytes f f.rootBlk names E) ∨
        Resolves disk.bytes f f.rootBlk names 0) := by
  obtain ⟨hfilename, htpath⟩ := getfilename_full_path drive names hname.2 behind
  obtain ⟨r, hrun, hresult⟩ := directory_loop_resolves hsectors hok names hnames f.rootBlk root
  refine ⟨hfilename, r, ?_, fun E hE => ?_, ?_⟩
  · rw [htpath, readDirectoryBlk, path_count_joined hnames, hrun]
  · obtain hresolves | ⟨-, hnone⟩ := hresult
    · exact hresolves.unique hE
    · exact absurd hE (hnone E)
  · obtain hresolves | ⟨hzero, hnone⟩ := hresult
    · constructor
      · rintro rfl
        exact .inr hresolves
      · rintro (hnone | hblock)
        · exact absurd hresolves (hnone r)
        · exact hresolves.unique hblock
    · exact ⟨fun _ => .inl hnone, fun _ => hzero⟩

/-! ### A directory in the root directory -/

/-- The image after the directory `b` has been created. -/
def imageB : Bytes := (createDir 0x62#8).image (superBlockAt markedDisk 512) 1 markedDisk

theorem finds_b : FindsDir imageB (superBlockAt markedDisk 512) 1 [0x62#8] 0 where
  range := by decide
  entry := ⟨by decide +kernel, by decide +kernel, by decide +kernel⟩
  first := fun j hj => absurd hj (Nat.not_lt_zero j)

theorem marked_disk_root : (superBlockAt markedDisk 512).rootBlk = 1 := by decide

theorem component_b : ∀ c ∈ [[0x62#8]], IsComponent c := by
  intro c hc
  rw [List.mem_singleton] at hc
  rw [hc]
  exact ⟨by decide, by decide⟩

/-- The path `A:/b/a` leads to the block of the directory `b`. -/
theorem path_resolution_one_directory :
    (readDirectoryBlk (superBlockAt markedDisk 512) (skipDrive (getfilename (fullPath 0x41#8 [[0x62#8]]
      [0x61#8])).1 []) (fun _ => 0#8) ⟨imageB, []⟩).1 = 2 := by
  have hblock : firstBlk imageB (entryAt (superBlockAt markedDisk 512) (1, 0)) = 2 := by
    decide +kernel
  obtain ⟨-, r, hrun, hreached, -⟩ := path_resolution (superBlockAt markedDisk 512) (by decide)
    ⟨imageB, []⟩ rfl 0x41#8 [[0x62#8]] [0x61#8] component_b ⟨by decide, by decide⟩ [] (fun _ => 0#8)
  simp only [marked_disk_root] at hreached
  have hresolves : Resolves imageB (superBlockAt markedDisk 512) 1 [[0x62#8]] 2 := by
    refine .step finds_b ?_
    rw [hblock]
    exact .here 2
  rw [hrun]
  exact hreached 2 hresolves

/-- The image with block 0 as the first block of the directory `b`. -/
def imageB0 : Bytes :=
  writeWord imageB (entryAt (superBlockAt markedDisk 512) (1, 0) + 107) 0

/-- The directory `b` exists, but its block is 0, the answer for a missing directory. -/
theorem block_zero_looks_missing : ¬ ∀ (f : SuperBlock), f.sectorPerBlk = 16 → ∀ disk : Disk,
    disk.fails = [] → ∀ (drive : Byte) (names : List (List Byte)) (name : List Byte),
    (∀ c ∈ names, IsComponent c) → IsComponent name → ∀ (behind : List Byte) (root : Bytes),
    ((readDirectoryBlk f (skipDrive (getfilename (fullPath drive names name)).1 behind) root disk).1 =
      0 ↔ ∀ E, ¬ Resolves disk.bytes f f.rootBlk names E) := by
  intro h
  have hfinds : FindsDir imageB0 (superBlockAt markedDisk 512) 1 [0x62#8] 0 :=
    ⟨by decide, ⟨by decide +kernel, by decide +kernel, by decide +kernel⟩,
      fun j hj => absurd hj (Nat.not_lt_zero j)⟩
  have hzero : (readDirectoryBlk (superBlockAt markedDisk 512) (skipDrive (getfilename
      (fullPath 0x41#8 [[0x62#8]] [0x61#8])).1 []) (fun _ => 0#8) ⟨imageB0, []⟩).1 = 0 := by
    decide +kernel
  have hnone := (h (superBlockAt markedDisk 512) (by decide) ⟨imageB0, []⟩ rfl 0x41#8 [[0x62#8]]
    [0x61#8] component_b ⟨by decide, by decide⟩ [] (fun _ => 0#8)).mp hzero
  simp only [marked_disk_root] at hnone
  exact hnone _ (.step hfinds (.here _))

end Sirius.Cfs.User
