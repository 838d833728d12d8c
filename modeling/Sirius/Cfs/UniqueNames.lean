import Sirius.Cfs.Integrity
import Sirius.Cfs.Rename

/-!
# Unique names

`open_file` looks a name up before it creates a file. `create_file`, `rename` and the host tool do
not: they write a name whether another entry has it or not. So the names of a directory stay unique
in the runs in which these three are called with names that no other entry has.
-/

namespace Sirius.Cfs

open Library Stdio

namespace Host

variable {bytes : Bytes} {f : SuperBlock} {path : List Byte} {i b : Nat}

open User (ChangesEntry entryName paddedName Geometry entryAt)

theorem Layout.geometry (hf : Layout f) (hroot : f.rootBlk < f.numOfBlk) : Geometry f :=
  ⟨hf.formatted, hf.table, hroot⟩

/-- The two programs find an entry of the root directory at the same place. -/
theorem Layout.entry_at (hf : Layout f) (i : Nat) : entryAt f (f.rootBlk, i) = entryAddr f i := by
  rw [entryAt, entryAddr, hf.block_address hf.root, Nat.mul_comm i]

/-- Taking a block changes no entry of the root directory. -/
theorem mark_changes (hf : Layout f) (bytes : Bytes) (hb : b < f.numOfBlk) (i : Nat) :
    ChangesEntry bytes (writeWord bytes (1024 + 4 * b) endMark) f f.rootBlk i := by
  have htable := hf.table
  have hsame := same_outside_word bytes (1024 + 4 * b) endMark
  refine ⟨hsame.super (by omega), fun j hj _ k hk => hsame _ ?_, fun c hc hused => ?_⟩
  · rw [hf.entry_at, entryAddr]
    omega
  · by_cases hcb : c = b
    · rw [hcb, hf.fat_eq, read_write_word_same (by decide)]
      decide
    · rwa [hsame.fat hf (by omega)]

/-- Writing an entry of the root directory. -/
theorem enter_changes (hf : Layout f) (hi : i < 64) (dir : Bytes) :
    ChangesEntry bytes (copyBytes bytes (entryAddr f i) dir 0 128) f f.rootBlk i := by
  have htable := hf.table
  have hsame := same_outside_copy bytes (entryAddr f i) 128 dir
  refine ⟨hsame.super ?_, fun j hj hne k hk => hsame _ ?_, fun c hc hused => ?_⟩
  · rw [entryAddr]
    omega
  · rw [hf.entry_at, entryAddr, entryAddr]
    omega
  · rwa [hsame.fat hf (by rw [entryAddr]; omega)]

/-- `create_file` of the host tool puts its name into one slot of the root directory, or it changes
none. -/
theorem create_file_changes (hf : Layout f) {len pos : Nat}
    (hlong : LongEnough ⟨bytes, len, pos⟩ f) (hpath : 0#8 ∉ getFileName path)
    (source : Option (List Byte)) (attr : Byte) :
    ∃ i bytes', ChangesEntry bytes bytes' f f.rootBlk i ∧
      (entryName bytes' f f.rootBlk i = entryName bytes f f.rootBlk i ∨
        entryName bytes' f f.rootBlk i = some (paddedName (getFileName path))) ∧
      (createFile path source ⟨bytes, len, pos⟩ f attr).2.1.bytes = bytes' := by
  have hsmall := hf.small
  have hnone : ∃ i bytes', ChangesEntry bytes bytes' f f.rootBlk i ∧
      (entryName bytes' f f.rootBlk i = entryName bytes f f.rootBlk i ∨
        entryName bytes' f f.rootBlk i = some (paddedName (getFileName path))) ∧
      bytes = bytes' := ⟨0, bytes, .refl, .inl rfl, rfl⟩
  by_cases hsource : attr = 0x20#8 ∧ source = none
  · rw [createFile, if_pos hsource]
    exact hnone
  obtain ⟨b, k, hb, hk, hcreate⟩ | ⟨b, pos, hb, -, -, himage⟩ | ⟨-, -, himage⟩ :=
    create_file_cases hf hlong hsource path
  · have hrange := hk.range
    have hchanges := (mark_changes hf bytes hb.range k).trans
      (enter_changes hf hrange (newEntry path b k attr))
    refine ⟨k, _, hchanges, .inr ?_, by rw [hcreate]; rfl⟩
    refine User.entry_name_some.mpr ⟨hrange, ?_, fun j hj => ?_⟩
    · rw [busy, hf.entry_at, copy_bytes_start (by omega), newEntry,
        Function.update_of_ne (by omega), Function.update_self]
      decide
    · rw [hf.entry_at, copy_bytes_start (by omega), newEntry, Function.update_of_ne (by omega),
        Function.update_of_ne (by omega), write_word_outside (by omega),
        write_word_outside (by omega), write_word_outside (by omega)]
      exact pad_nulls_strcpy hpath hj
  · -- all entries are busy: the block was taken, and nothing else was written
    have hsame : entryName (writeWord bytes (1024 + 4 * b) endMark) f f.rootBlk 64 =
        entryName bytes f f.rootBlk 64 := by
      rw [entryName, entryName, if_neg fun h => by omega, if_neg fun h => by omega]
    exact ⟨64, _, mark_changes hf bytes hb.range 64, .inl hsame, by rw [himage]⟩
  · rw [himage]
    exact hnone

end Host

namespace User

/-! ### Runs of operations on a directory -/

/-- The operations that write names, with the memory and the strings that they find. -/
inductive NameEvent
  | openFile (pwd path behind m : List Byte) (root heap blk : Bytes)
  | createFile (path : List Byte) (blk heap : Bytes)
  | rename (pwd old behind new : List Byte) (root heap blk : Bytes)
  | hostCreateFile (path : List Byte) (source : Option (List Byte)) (attr : Byte) (len pos : Nat)

/-- The image after an operation on the directory `D`. `createFile` is the call for a directory. -/
def NameEvent.image (f : SuperBlock) (D : Nat) (bytes : Bytes) : NameEvent → Bytes
  | .openFile pwd path behind m root heap blk =>
      (User.openFile pwd path behind m root heap blk ⟨bytes, []⟩).2.bytes
  | .createFile path blk heap =>
      (User.createFile { f with rootBlk := D } path 0x40#32 blk heap ⟨bytes, []⟩).2.2.bytes
  | .rename pwd old behind new root heap blk =>
      (User.rename pwd old behind new root heap blk ⟨bytes, []⟩).2.bytes
  | .hostCreateFile path source attr len pos =>
      (Host.createFile path source ⟨bytes, len, pos⟩ f attr).2.1.bytes

/-- The strings are C strings, and the operation is one on the directory `D`. The host tool knows the
root directory only. -/
def NameEvent.Targets (f : SuperBlock) (D : Nat) (bytes : Bytes) : NameEvent → Prop
  | .openFile pwd path behind _ root _ _ =>
      path ≠ [] ∧ 0#8 ∉ path ∧ LeadsTo bytes f D pwd path behind root
  | .createFile path _ _ => 0#8 ∉ path
  | .rename pwd old behind new root _ _ =>
      old ≠ [] ∧ 0#8 ∉ old ∧ 0#8 ∉ new ∧ LeadsTo bytes f D pwd old behind root
  | .hostCreateFile path _ _ len pos =>
      0#8 ∉ path ∧ D = f.rootBlk ∧ Host.Layout f ∧ Host.LongEnough ⟨bytes, len, pos⟩ f

/-- The transitions of a directory. -/
def NameStep (f : SuperBlock) (D : Nat) (bytes : Bytes) (event : NameEvent) (bytes' : Bytes) : Prop :=
  event.Targets f D bytes ∧ event.image f D bytes = bytes'

/-- No other entry has the name that the operation brings. `open_file` needs no condition. -/
def NameEvent.Fresh (f : SuperBlock) (D : Nat) (bytes : Bytes) : NameEvent → Prop
  | .openFile .. => True
  | .createFile path .. | .hostCreateFile path .. =>
      ∀ i, entryName bytes f D i ≠ some (paddedName (getFileName path))
  | .rename _ old _ new .. =>
      ∀ i, entryName bytes f D i = some (paddedName (getFileName (dropSlash old))) →
        ∀ j, j ≠ dirEntry bytes (entryAt f (D, i)) →
          entryName bytes f D j ≠ some (paddedName (renamedTo bytes (entryAt f (D, i)) new))

/-- A directory on a formatted disk: its block and the blocks of the allocation table are taken. -/
structure InUse (bytes : Bytes) (f : SuperBlock) (D : Nat) : Prop where
  super : superBlockAt bytes 512 = f
  geometry : Geometry f
  dir : f.rootBlk ≤ D ∧ D < f.numOfBlk
  reserved : ReservedTaken bytes f
  taken : fat bytes f D ≠ 0

variable {bytes bytes' : Bytes} {f : SuperBlock} {D i : Nat}

/-- Changing an entry leaves the directory in use. -/
theorem InUse.change (h : InUse bytes f D) (hchange : ChangesEntry bytes bytes' f D i) :
    InUse bytes' f D where
  super := hchange.super.trans h.super
  geometry := h.geometry
  dir := h.dir
  reserved := fun b hb => hchange.taken b (hb.trans_lt h.geometry.root) (h.reserved b hb)
  taken := hchange.taken D h.dir.2 h.taken

/-- One slot gets the name, and no other slot has it. -/
theorem ChangesEntry.distinct {name : List Byte} (h : ChangesEntry bytes bytes' f D i)
    (hdistinct : Distinct (entryName bytes f D))
    (hnew : entryName bytes' f D i = entryName bytes f D i ∨ entryName bytes' f D i = some name)
    (hfresh : ∀ j, j ≠ i → entryName bytes f D j ≠ some name) :
    Distinct (entryName bytes' f D) := by
  refine hdistinct.replace (fun j hj => h.others hj) (hnew.imp_right fun hname a ha j hj => ?_)
  rw [hname, Option.some.injEq] at ha
  exact ha ▸ hfresh j hj

/-- Every operation changes one slot at most, and a fresh name keeps the names distinct. -/
theorem name_step_spec {event : NameEvent} (h : InUse bytes f D)
    (hdistinct : Distinct (entryName bytes f D)) (hfresh : event.Fresh f D bytes)
    (hstep : NameStep f D bytes event bytes') :
    InUse bytes' f D ∧ Distinct (entryName bytes' f D) := by
  obtain ⟨htargets, rfl⟩ := hstep
  have hnull : ∀ {path : List Byte}, 0#8 ∉ path → 0#8 ∉ getFileName path := fun hpath => by
    rw [get_file_name_last]
    exact not_mem_last_part hpath
  cases event with
  | openFile pwd path behind m root heap blk =>
      obtain ⟨-, hpath, hleads⟩ := htargets
      show InUse (User.openFile pwd path behind m root heap blk ⟨bytes, []⟩).2.bytes f D ∧
        Distinct (entryName (User.openFile pwd path behind m root heap blk ⟨bytes, []⟩).2.bytes f D)
      obtain ⟨i, d, -, -, hopen⟩ | ⟨habsent, hnone | ⟨-, hcreate⟩⟩ :=
        open_file_cases h.super h.geometry h.dir.1 hpath hleads m heap blk
      · rw [hopen, open_entry_bytes]
        exact ⟨h, hdistinct⟩
      · rw [hnone]
        exact ⟨h, hdistinct⟩
      · -- no entry has the name that the new file gets
        obtain ⟨i, bytes', hchange, hname, hrun⟩ := create_file_changes h.geometry h.reserved
          h.dir h.taken (hnull (not_mem_drop_slash hpath)) 0x20#32 blk root
        rw [hcreate, hrun]
        exact ⟨h.change hchange, hchange.distinct hdistinct hname fun j _ => habsent j⟩
  | createFile path blk heap =>
      obtain ⟨i, bytes', hchange, hname, hrun⟩ := create_file_changes h.geometry h.reserved
        h.dir h.taken (hnull htargets) 0x40#32 blk heap
      rw [NameEvent.image, hrun]
      exact ⟨h.change hchange, hchange.distinct hdistinct hname fun j _ => hfresh j⟩
  | rename pwd old behind new root heap blk =>
      obtain ⟨-, hold, hnew, hleads⟩ := htargets
      rw [NameEvent.image]
      obtain hsame | ⟨i, t, bytes', hfound, ht, -, -, hchange, hname, hrun⟩ :=
        rename_changes h.super h.geometry h.dir hold hnew hleads heap blk
      · rw [hsame]
        exact ⟨h, hdistinct⟩
      · rw [hrun]
        exact ⟨h.change hchange, hchange.distinct hdistinct hname fun j hj =>
          hfresh i hfound j (ht ▸ hj)⟩
  | hostCreateFile path source attr len pos =>
      obtain ⟨hpath, rfl, hlayout, hlong⟩ := htargets
      obtain ⟨i, bytes', hchange, hname, hrun⟩ := Host.create_file_changes hlayout hlong (hnull hpath)
        source attr
      rw [NameEvent.image, hrun]
      exact ⟨h.change hchange, hchange.distinct hdistinct hname fun j _ => hfresh j⟩

/-- In every run whose operations bring fresh names, no two busy entries of the directory have the
same name, and a lookup that succeeds returns the only entry with the name. -/
theorem names_stay_unique (f : SuperBlock) (D : Nat) (bytes bytes' : Bytes)
    (hused : InUse bytes f D) (hdistinct : Distinct (entryName bytes f D))
    (hrun : Run (NameStep f D) (fun bytes event => event.Fresh f D bytes) bytes bytes') :
    Distinct (entryName bytes' f D) ∧
      ∀ (name : List Byte) (d heap : Bytes), 0#8 ∉ name →
        (readDirectoryEntry ⟨bytes', []⟩ d { f with rootBlk := D } (stringBytes name) heap).1 = 0 →
        ∃ i, (∀ j, entryName bytes' f D j = some (paddedName name) ↔ j = i) ∧
          ∀ k < 128, (readDirectoryEntry ⟨bytes', []⟩ d { f with rootBlk := D } (stringBytes name)
            heap).2.1 k = bytes' (entryAt f (D, i) + k) := by
  obtain ⟨hused', hdistinct'⟩ := hrun.invariant
    (fun bytes => InUse bytes f D ∧ Distinct (entryName bytes f D)) ⟨hused, hdistinct⟩
    fun s event t hs hfresh hstep => name_step_spec hs.1 hs.2 hfresh hstep
  refine ⟨hdistinct', fun name d heap hname hzero => ?_⟩
  obtain ⟨i, hi, d', hfound, hd⟩ | ⟨-, hnone⟩ :=
    read_directory_entry_cases hused'.geometry bytes' d heap D hname
  · refine ⟨i, fun j => ⟨fun hj => hdistinct' j i _ hj hi, fun hj => hj ▸ hi⟩, fun k hk => ?_⟩
    rw [hfound]
    exact hd k hk
  · rw [hnone] at hzero
    have herror : (-1 : Int) = 0 := hzero
    exact absurd herror (by decide)

/-! ### A file and a directory -/

theorem marked_disk_in_use : InUse markedDisk (superBlockAt markedDisk 512) 1 where
  super := rfl
  geometry := marked_disk_geometry
  dir := by decide
  reserved := by
    show ∀ b ≤ 1, _
    decide +kernel
  taken := by decide +kernel

theorem marked_disk_names (i : Nat) :
    entryName markedDisk (superBlockAt markedDisk 512) 1 i = none := by
  by_cases hi : i < 64
  · have hempty : ∀ i < 64,
        Cfs.busy markedDisk (entryAt (superBlockAt markedDisk 512) (1, i)) = 0#8 := by
      decide +kernel
    rw [entryName, if_neg fun h => h.2 (hempty i hi)]
  · rw [entryName, if_neg fun h => hi h.1]

theorem marked_disk_distinct :
    Distinct (entryName markedDisk (superBlockAt markedDisk 512) 1) := by
  intro i j a hi
  rw [marked_disk_names] at hi
  cases hi

/-- The call `open_file("C:/a", "w")`. -/
def openA : NameEvent :=
  .openFile [] [0x43#8, 0x3a#8, 0x2f#8, 0x61#8] [] [0x77#8] (fun _ => 0#8) (fun _ => 0#8)
    (fun _ => 0#8)

/-- The call of `create_file` for a directory. -/
def createDir (name : Byte) : NameEvent := .createFile [name] (fun _ => 0#8) (fun _ => 0#8)

/-- The image after `openA`. -/
def imageA : Bytes := openA.image (superBlockAt markedDisk 512) 1 markedDisk

/-- The file `a` and the directory `b` have different names. -/
theorem names_stay_unique_two :
    let f := superBlockAt markedDisk 512
    let bytes := (createDir 0x62#8).image f 1 imageA
    entryName bytes f 1 0 = some (paddedName [0x61#8]) ∧
      entryName bytes f 1 1 = some (paddedName [0x62#8]) ∧ Distinct (entryName bytes f 1) := by
  intro f bytes
  have hleads : LeadsTo markedDisk f 1 [] [0x43#8, 0x3a#8, 0x2f#8, 0x61#8] [] (fun _ => 0#8) := by
    unfold LeadsTo
    decide +kernel
  have hopen : openA.Targets f 1 markedDisk := ⟨by decide, by decide, hleads⟩
  have hcreate : (createDir 0x62#8).Targets f 1 imageA := by
    show 0#8 ∉ [0x62#8]
    decide
  have hfresh : (createDir 0x62#8).Fresh f 1 imageA := by
    intro i
    by_cases hi : i < 64
    · have hother : ∀ i < 64, entryName imageA f 1 i ≠ some (paddedName (getFileName [0x62#8])) := by
        decide +kernel
      exact hother i hi
    · rw [entryName, if_neg fun h => hi h.1]
      exact (Option.some_ne_none _).symm
  have hrun : Run (NameStep f 1) (fun bytes event => event.Fresh f 1 bytes) markedDisk bytes :=
    (Run.refl.snoc openA trivial ⟨hopen, rfl⟩).snoc (createDir 0x62#8) hfresh ⟨hcreate, rfl⟩
  exact ⟨by decide +kernel, by decide +kernel,
    (names_stay_unique f 1 markedDisk bytes marked_disk_in_use marked_disk_distinct hrun).1⟩

/-- Two calls of `create_file` for the directory `a` make two entries with this name. -/
theorem directory_created_twice : ¬ ∀ (f : SuperBlock) (D : Nat) (bytes bytes' : Bytes),
    InUse bytes f D → Distinct (entryName bytes f D) →
    Run (NameStep f D) (fun _ _ => True) bytes bytes' → Distinct (entryName bytes' f D) := by
  intro h
  have htargets : ∀ bytes, (createDir 0x61#8).Targets (superBlockAt markedDisk 512) 1 bytes := by
    intro bytes
    show 0#8 ∉ [0x61#8]
    decide
  have hdistinct := h (superBlockAt markedDisk 512) 1 markedDisk _ marked_disk_in_use
    marked_disk_distinct ((Run.refl.snoc (createDir 0x61#8) trivial ⟨htargets _, rfl⟩).snoc
      (createDir 0x61#8) trivial ⟨htargets _, rfl⟩)
  have hsame : (0 : Nat) = 1 := hdistinct 0 1 (paddedName [0x61#8]) (by decide +kernel)
    (by decide +kernel)
  exact absurd hsame (by decide)

end User

end Sirius.Cfs
