import Sirius.Cfs.ImageHistory
import Sirius.Cfs.ReadCoherence

/-!
# From the host tool to the kernel

A file that the host tool copies into an image is found by `open_file` of the kernel under its name,
and `fread` from the start returns its bytes. The two programs meet at a volume: the tool keeps one,
and the kernel reads what it holds.
-/

namespace Sirius.Cfs

open Library Stdio

/-! ### Names -/

/-- The first loop of `filename_cmp` pads a string with spaces. The induction is on the bytes that
are left. -/
theorem pad_name_eq {name : List Byte} (hname : 0#8 ∉ name) (n : Nat) : ∀ us2 : Nat,
    ∀ k < n, (padName (stringBytes name) n us2)[k]? = some (name.getD (us2 + k) space) := by
  induction n with
  | zero => exact fun us2 k hk => absurd hk (Nat.not_lt_zero k)
  | succ n ih =>
      intro us2 k hk
      by_cases hin : us2 < name.length
      · have hbyte : stringBytes name us2 = name[us2] := by
          simp [stringBytes, hin]
        have hne : stringBytes name us2 ≠ 0 := by
          intro heq
          have hzero : name[us2] = 0#8 := hbyte.symm.trans heq
          exact hname (hzero ▸ List.getElem_mem hin)
        rw [padName, if_neg hne]
        cases k with
        | zero => simp [hbyte, hin]
        | succ k =>
            rw [List.getElem?_cons_succ, ih (us2 + 1) k (by omega), Nat.add_right_comm,
              Nat.add_assoc]
      · have hend : stringBytes name us2 = 0 := by
          simp [stringBytes, Nat.le_of_not_lt hin]
        have hpad : ∀ j, us2 ≤ j → name.getD j space = space := fun j hj => by
          simp [Nat.le_trans (Nat.le_of_not_lt hin) hj]
        rw [padName, if_pos hend]
        cases k with
        | zero => rw [hpad _ (by omega)]; rfl
        | succ k => rw [List.getElem?_cons_succ, ih us2 k (by omega), hpad _ (by omega),
            hpad _ (by omega)]

/-- `filename_cmp` compares an entry with the padded name. -/
theorem filename_cmp_iff (s1 : Bytes) (e : Nat) {name : List Byte} (hname : 0#8 ∉ name) :
    filenameCmp s1 e (stringBytes name) = 0 ↔ ∀ k < 96, s1 (e + k) = name.getD k space := by
  rw [filenameCmp, compare_name_iff, pad_name_length]
  constructor
  · intro h k hk
    have hbyte := h k hk
    rw [pad_name_eq hname 96 0 k hk, Nat.zero_add] at hbyte
    exact (Option.some.inj hbyte).symm
  · intro h k hk
    rw [pad_name_eq hname 96 0 k hk, Nat.zero_add, h k hk]

namespace Host

variable {f : SuperBlock} {bytes : Bytes} {i : Nat} {slot : Nat → Option Stored} {s : Stored}

/-- The name of a file of a volume survives the padding. -/
theorem ValidName.trimmed {name : List Byte} (h : ValidName name) : TrimmedName name :=
  ⟨h.nonempty, h.length, h.noNull, h.noSpace⟩

/-! ### The entry that the kernel finds -/

/-- The kernel reads the root directory of a volume. -/
theorem Volume.directory_block (h : Volume bytes f slot) (heap : Bytes) (hi : i < 64) {k : Nat}
    (hk : k < 128) :
    directoryBlock ⟨bytes, []⟩ f heap (i * 128 + k) = rootEntry bytes f i k := by
  have hf := h.layout
  have hcopy : directoryBlock ⟨bytes, []⟩ f heap (0 + (i * 128 + k)) =
      bytes (f.firstSector f.rootBlk * 512 + (i * 128 + k)) :=
    copy_bytes_inside (by rw [hf.sectorPerBlk]; omega)
  rw [Nat.zero_add, hf.block_address hf.root] at hcopy
  rw [hcopy, rootEntry, entryAddr]
  exact congrArg bytes (by omega)

/-- An entry of a volume matches a name if it holds a file of that name. -/
theorem Volume.match_iff (h : Volume bytes f slot) (heap : Bytes) (hi : i < 64)
    {name : List Byte} (hname : ValidName name) :
    filenameCmp (directoryBlock ⟨bytes, []⟩ f heap) (i * 128) (stringBytes name) = 0 ↔
      ∃ s, slot i = some s ∧ s.name = name := by
  rw [filename_cmp_iff _ _ hname.noNull]
  have hbyte : ∀ k < 96, directoryBlock ⟨bytes, []⟩ f heap (i * 128 + k) =
      rootEntry bytes f i k := fun k hk => h.directory_block heap hi (by omega)
  constructor
  · intro hmatch
    cases hslot : slot i with
    | none =>
        have hzero : name.getD 0 space = 0#8 := by
          rw [← hmatch 0 (by omega), hbyte 0 (by omega), h.empty i hi hslot 0 (by omega)]
        have hpos : 0 < name.length := List.length_pos_iff.mpr hname.nonempty
        rw [List.getD_eq_getElem _ _ hpos] at hzero
        exact absurd (hzero ▸ List.getElem_mem hpos) hname.noNull
    | some s =>
        have hstored := h.stored i hi s hslot
        obtain ⟨blk, hrecord, -⟩ := hstored.record
        refine ⟨s, rfl, hstored.valid.trimmed.eq_of_padded hname.trimmed fun k hk => ?_⟩
        rw [← hrecord.name k hk, ← hbyte k hk, hmatch k hk]
  · rintro ⟨s, hslot, rfl⟩ k hk
    obtain ⟨blk, hrecord, -⟩ := (h.stored i hi s hslot).record
    rw [hbyte k hk, hrecord.name k hk]

/-- The kernel finds the entry of a file whose name occurs once. -/
theorem Volume.kernel_entry (h : Volume bytes f slot) (heap : Bytes) (hi : i < 64)
    (hs : slot i = some s)
    (hdistinct : ∀ j < 64, ∀ t, slot j = some t → t.name = s.name → j = i) :
    ∃ d, Kernel.readDirectoryEntry ⟨bytes, []⟩ (fun _ => 0#8) f (stringBytes s.name) heap =
        (0, d, ⟨bytes, []⟩) ∧
      ∃ blk, IsRecord d s.name blk s.size i ∧ Chain bytes f blk s.blocks := by
  have hstored := h.stored i hi s hs
  obtain ⟨blk, hrecord, hchain⟩ := hstored.record
  have hmatch := (h.match_iff heap hi hstored.valid).mpr ⟨s, hs, rfl⟩
  have hfirst : ∀ j < i, filenameCmp (directoryBlock ⟨bytes, []⟩ f heap) (j * 128)
      (stringBytes s.name) ≠ 0 := by
    intro j hj hzero
    obtain ⟨t, ht, hname⟩ := (h.match_iff heap (by omega) hstored.valid).mp hzero
    have hsame := hdistinct j (by omega) t ht hname
    omega
  refine ⟨_, kernel_finds rfl hi hmatch hfirst, blk, hrecord.congr fun k hk => ?_, hchain⟩
  rw [holds_entry_copy _ _ i k hk]
  exact h.directory_block heap hi hk

/-! ### The bytes that the kernel reads -/

/-- The entry of a file in a volume is one that `open_file_r` can open, with the bytes of the file. -/
theorem StoredAt.regular (h : StoredAt bytes f i s) (hf : Layout f) {d : Bytes} {blk : Nat}
    (hrecord : IsRecord d s.name blk s.size i) (hchain : Chain bytes f blk s.blocks)
    (hsize : s.size = s.content.length) (hne : s.blocks ≠ []) :
    RegularFile bytes f d s.blocks ∧ fileContent bytes f s.blocks (fileSize d 0) = s.content := by
  have hroom := h.room
  have hlength : fileSize d 0 = s.content.length := hrecord.fileSize.trans hsize
  refine ⟨⟨hf.formatted, ?_, hne, fun b hb => (h.range b hb).2, by omega⟩, ?_⟩
  · rw [hrecord.firstBlk]
    exact hchain
  · refine List.ext_getElem? fun j => ?_
    rw [fileContent, List.getElem?_map, hlength]
    by_cases hj : j < s.content.length
    · have hrange := h.range _ (h.block_mem hj)
      rw [h.data j hj, List.getElem?_range hj, Option.map_some, hf.block_address hrange.2.le]
    · rw [List.getElem?_eq_none (by simpa using hj), List.getElem?_eq_none (by omega)]
      rfl

/-- Reading on from where the stream is, on a disk without faults, reads every byte from the block of
its position. The induction is on the number of bytes that are asked for. -/
theorem sequential_coherent {content : List Byte} (n : Nat) : ∀ r : ReadSession,
    ReadInv content r → r.disk.fails = [] →
    (r.fp.flags = 0x10#32 → r.cached = some (r.fp.off / 8192)) → r.CoherentBytes n := by
  induction n with
  | zero => exact fun _ _ _ _ => trivial
  | succ n ih =>
      intro r hinv hok hblock
      have hbyte : r.CoherentByte := by
        intro _
        split
        case isTrue => rw [hok]; rfl
        case isFalse hset =>
            cases hinv.flags with
            | inl hempty => exact absurd (by rw [hempty]; rfl) hset
            | inr hloaded =>
                rw [hinv.bsize]
                exact hblock hloaded
      refine ⟨hbyte, fun c t hget hc => ?_⟩
      by_cases hin : r.pos < content.length
      · obtain ⟨b, u, -, hgetc, hnext⟩ := fgetc_coherent hinv hin hbyte
        rw [hgetc, Option.some.injEq, Prod.mk.injEq] at hget
        obtain ⟨-, rfl⟩ := hget
        refine ih u hnext.inv (hnext.fails hok) fun hset => ?_
        rw [hnext.cached, hnext.flags hset]
      · rw [fgetc_end hinv (by omega), Option.some.injEq, Prod.mk.injEq] at hget
        exact absurd hget.1.symm hc

/-- What the kernel finds under a name: `open_file` succeeds, `fread` from the start returns the
bytes and then `fgetc` returns `EOF`, and the chain of the file has the right number of blocks. -/
structure ReadsBack (bytes : Bytes) (name content : List Byte) : Prop where
  reads : ∀ (root heap blk : Bytes), ∃ fp,
    Kernel.openFile (stringBytes name) root heap blk ⟨bytes, []⟩ = (some fp, ⟨bytes, []⟩) ∧
    ∀ (buffer : Bytes) (size count : Nat), ∃ buffer' fp' disk',
      let rc := min (size * count % 2 ^ 32) content.length
      Kernel.fread buffer size count fp ⟨bytes, []⟩ = some (rc / size, buffer', fp', disk') ∧
        (∀ i < rc, content[i]? = some (buffer' i)) ∧
        (content.length ≤ size * count % 2 ^ 32 →
          Kernel.fgetc fp' disk' = some (-1, fp', disk'))
  chain : ∀ root : Bytes, ∃ d l,
    Kernel.readDirectoryEntry ⟨bytes, []⟩ (fun _ => 0#8) (superBlockAt bytes 512)
      (stringBytes name) root = (0, d, ⟨bytes, []⟩) ∧
    Chain bytes (superBlockAt bytes 512) (firstBlk d 0) l ∧
    l.length = max 1 ((content.length + 8191) / 8192)

/-- A file of a volume whose name occurs once and whose entry has its size. -/
theorem Volume.reads_back (h : Volume bytes f slot) (hi : i < 64) (hs : slot i = some s)
    (hsize : s.size = s.content.length)
    (hdistinct : ∀ j < 64, ∀ t, slot j = some t → t.name = s.name → j = i) :
    ReadsBack bytes s.name s.content := by
  have hf := h.layout
  have hstored := h.stored i hi s hs
  have hexact := h.exact i hi s hs
  have hne : s.blocks ≠ [] := by
    intro hnil
    rw [hnil] at hexact
    unfold blocksFor at hexact
    simp at hexact
    omega
  constructor
  · intro root heap blk
    obtain ⟨d, hfind, first, hrecord, hchain⟩ := h.kernel_entry root hi hs hdistinct
    obtain ⟨hregular, hcontent⟩ := hstored.regular hf hrecord hchain hsize hne
    obtain ⟨fp, hopen, -, hsame⟩ := open_file_r_chain hf.formatted
      (show (⟨bytes, []⟩ : Disk).fails = [] from rfl) hregular.chain hne hregular.range heap blk
    have hflags : fp.flags = 0#32 := congrArg File.flags hsame
    have hinv := open_read_inv hregular hopen
    rw [hcontent] at hinv
    refine ⟨fp, ?_, fun buffer size count => ?_⟩
    · rw [Kernel.openFile, read_super_block_ok rfl, h.super]
      simp only [ne_eq, not_true_eq_false, if_false, hfind, hopen]
    · have hcoherent := sequential_coherent (size * count % 2 ^ 32) _ hinv rfl fun hset =>
        absurd (hflags.symm.trans hset) (by decide)
      obtain ⟨buffer', t, -, ht, hloop, hend, -, hbytes⟩ :=
        fread_loop_coherent (size * count % 2 ^ 32) 0 buffer hinv hcoherent
      simp only [openRead, Nat.zero_add, Nat.sub_zero] at hloop hend hbytes
      refine ⟨buffer', t.fp, t.disk, ?_, fun j hj => hbytes j hj, fun hall => ?_⟩
      · rw [Kernel.fread, hloop]
        rfl
      · exact fgetc_of_getc (fgetc_end ht (by omega))
  · intro root
    obtain ⟨d, hfind, first, hrecord, hchain⟩ := h.kernel_entry root hi hs hdistinct
    rw [h.super]
    exact ⟨d, s.blocks, hfind, hrecord.firstBlk.symm ▸ hchain, hexact⟩

/-- An empty image of 36864 bytes. -/
def smallImage : HostFile := ⟨fun _ => 0#8, 36864, 0⟩

end Host

end Sirius.Cfs
