import Sirius.Driver.IdeSector

/-!
# Every transfer of the IDE drives

However long the drives take over their commands, and whichever drives the calls name one after
another, `read_sector` and `write_sector` end, never do what a drive does not allow, and have the
effect of single sectors on the drive they name and on no other. What was written is on the
platter when a call returns.
-/

namespace Sirius.Driver

open Library

/-! ### What the calls are for -/

/-- What the drives hold, and the memory. -/
structure Store where
  disks : Nat → Nat → Bytes
  mem : Bytes

/-- A machine with a single drive is the view that a call has. -/
def Store.onDrive (st : Store) (p : Nat) (f : Machine → Machine) : Store :=
  let m := f ⟨st.disks p, st.mem⟩
  { disks := Function.update st.disks p m.disk, mem := m.mem }

/-- A call of `read_sector` or `write_sector`. -/
structure Call where
  write : Bool
  dev : Nat
  count : Nat
  addr : Nat
  buf : Nat

/-- The effect of a call: the sectors that the drive has are transferred, and the others are an
error. -/
def Call.effect (sizes : Nat → Nat) (call : Call) (st : Store) : Int × Store :=
  (if call.count ≤ sizes call.dev - call.addr then 0 else -1,
    st.onDrive call.dev (transferSectors (if call.write then writeOne else readOne) call.addr
      (min call.count (sizes call.dev - call.addr)) call.buf))

/-- The effects of one call after another. -/
def effects (sizes : Nat → Nat) : List Call → Store → List Int × Store
  | [], st => ([], st)
  | call :: calls, st =>
      let (r, st) := call.effect sizes st
      let (rs, st) := effects sizes calls st
      (r :: rs, st)

/-- A call. -/
def Call.perform (n : Nat) (call : Call) : Ide → Option (Int × Ide) :=
  if call.write then writeSector n call.dev call.count call.addr call.buf
  else readSector n call.dev call.count call.addr call.buf

/-- One call after another. -/
def performAll (n : Nat) : List Call → Ide → Option (List Int × Ide)
  | [], s => some ([], s)
  | call :: calls, s => do
      let (r, s) ← call.perform n s
      let (rs, s) ← performAll n calls s
      return (r :: rs, s)

/-- Drive `p`: two drives are on each channel. -/
def Ide.drive (s : Ide) (p : Nat) : Drive := (s.channels (p / 2)).drives (p % 2)

/-- What the drives hold, and the memory. -/
def Ide.store (s : Ide) : Store := ⟨fun p => (s.drive p).disk, s.mem⟩

/-- No channel is in a command, and everything is on the platters. -/
structure Quiet (s : Ide) : Prop where
  busy : ∀ k, (s.channels k).busy = 0
  phase : ∀ k, (s.channels k).phase = .ready
  platter : ∀ p, (s.drive p).platter = (s.drive p).disk

/-- The entry that `ata_bus_install` and `ata_identify_device` leave for a hard disk. -/
structure Installed (a : Ata) (p : Nat) : Prop where
  channel : a.channel = p / 2
  devNum : a.devNum = p % 2
  devType : a.devType = 1
  mode : a.mode = 0
  bps : a.bps = 512
  lbaType : a.lbaType = 28 ∨ a.lbaType = 48

variable {s s' t : Ide} {st : Store} {p addr buf count times i : Nat} {f g : Machine → Machine}
  {one : Nat → Nat → Machine → Machine}
  {transfer : Nat → (p count addr buffer : Nat) → Ide → Option (Int × Ide)}

theorem on_drive_on_drive (st : Store) (p : Nat) (f g : Machine → Machine) :
    (st.onDrive p f).onDrive p g = st.onDrive p fun m => g (f m) := by
  unfold Store.onDrive
  simp only [Function.update_self, Function.update_idem]

theorem on_drive_id (st : Store) (p : Nat) : st.onDrive p (fun m => m) = st := by
  unfold Store.onDrive
  simp only [Function.update_eq_self]

/-- The state behind a transfer on drive `p`. -/
structure After (s : Ide) (p : Nat) (f : Machine → Machine) (t : Ide) : Prop where
  quiet : Quiet t
  ata : t.ata = s.ata
  size : ∀ q, (t.drive q).size = (s.drive q).size
  store : t.store = s.store.onDrive p f

theorem After.trans (h : After s p f s') (h' : After s' p g t) :
    After s p (fun m => g (f m)) t where
  quiet := h'.quiet
  ata := h'.ata.trans h.ata
  size q := (h'.size q).trans (h.size q)
  store := by rw [h'.store, h.store, on_drive_on_drive]

theorem After.refl (h : Quiet s) : After s p (fun m => m) s where
  quiet := h
  ata := rfl
  size _ := rfl
  store := (on_drive_id _ _).symm

/-! ### One sector -/

/-- A transfer of one sector returns, with the result and the effect it should have. -/
def SectorLaw (one : Nat → Nat → Machine → Machine)
    (transfer : Nat → (p count addr buffer : Nat) → Ide → Option (Int × Ide)) : Prop :=
  ∀ s p addr buf, Quiet s → Installed (s.ata p) p → addr < 2 ^ (s.ata p).lbaType →
    ∃ t, After s p (if addr < (s.drive p).size then one addr buf else fun m => m) t ∧
      Returns (fun n => transfer n p 1 addr buf s) (if addr < (s.drive p).size then 0 else -1, t)

theorem Installed.sane {a : Ata} (h : Installed a p) : a.Sane where
  devNum := by rw [h.devNum]; exact Nat.mod_lt _ Nat.two_pos
  lbaType := h.lbaType

/-- The drives when the channel of drive `p` has changed that drive. -/
theorem drive_put {c : Channel} {d : Drive}
    (hdrives : c.drives = Function.update (s.channels (p / 2)).drives (p % 2) d)
    (hchannels : t.channels = Function.update s.channels (p / 2) c) :
    t.drive = Function.update s.drive p d := by
  funext q
  unfold Ide.drive
  rw [hchannels]
  by_cases hchannel : q / 2 = p / 2
  · rw [hchannel, Function.update_self, hdrives]
    by_cases hdev : q % 2 = p % 2
    · rw [hdev, Function.update_self, show q = p by omega, Function.update_self]
    · rw [Function.update_of_ne hdev, Function.update_of_ne (show q ≠ p by omega), ← hchannel]
  · rw [Function.update_of_ne hchannel, Function.update_of_ne (show q ≠ p by omega)]

/-- The state when the channel of drive `p` is put back. -/
theorem after_put {c : Channel} {d : Drive} (hquiet : Quiet s) (hbusy : c.busy = 0)
    (hphase : c.phase = .ready)
    (hdrives : c.drives = Function.update (s.channels (p / 2)).drives (p % 2) d)
    (hplatter : d.platter = d.disk) (hsize : d.size = (s.drive p).size) (hata : t.ata = s.ata)
    (hchannels : t.channels = Function.update s.channels (p / 2) c)
    (hf : f ⟨(s.drive p).disk, s.mem⟩ = ⟨d.disk, t.mem⟩) : After s p f t := by
  have hdrive := drive_put hdrives hchannels
  have hput : ∀ k, t.channels k = c ∨ t.channels k = s.channels k := by
    intro k
    rw [hchannels]
    by_cases hk : k = p / 2
    · exact .inl (hk ▸ Function.update_self ..)
    · exact .inr (Function.update_of_ne hk ..)
  refine ⟨⟨fun k => ?_, fun k => ?_, fun q => ?_⟩, hata, fun q => ?_, ?_⟩
  · obtain h | h := hput k
    · rw [h, hbusy]
    · rw [h, hquiet.busy]
  · obtain h | h := hput k
    · rw [h, hphase]
    · rw [h, hquiet.phase]
  · rw [hdrive]
    by_cases hq : q = p
    · rw [hq, Function.update_self, hplatter]
    · rw [Function.update_of_ne hq, hquiet.platter]
  · rw [hdrive]
    by_cases hq : q = p
    · rw [hq, Function.update_self, hsize]
    · rw [Function.update_of_ne hq]
  · have hdisks : (fun q => (t.drive q).disk) =
        Function.update (fun q => (s.drive q).disk) p d.disk := by
      rw [hdrive]
      funext q
      exact Function.apply_update (fun _ => Drive.disk) s.drive p d q
    unfold Ide.store Store.onDrive
    dsimp only
    rw [hf, hdisks]

theorem read_sector_law : SectorLaw readOne ataReadSector := by
  intro s p addr buf hquiet ha haddr
  obtain ⟨c, s', hset, haim, hdrives, hata, hchannels, hmem⟩ :=
    set_ata_device_and_sector_aims ha.sane haddr s (hquiet.busy (p / 2)) (hquiet.phase (p / 2))
  obtain ⟨c', hbusy', hphase', hdrives', hreturns⟩ :=
    @pio_read_sector c (s.ata p) s.mem addr buf haim ha.bps
  have hselected : c.selected = s.drive p := by
    rw [Channel.selected, hdrives, haim.devNum, ha.devNum]
    rfl
  have hput : c'.drives =
      Function.update (s.channels (p / 2)).drives (p % 2) (s.drive p) := by
    rw [hdrives', hdrives]
    exact (Function.update_eq_self _ _).symm
  rw [hselected] at hreturns
  obtain ⟨k, hk⟩ := hreturns
  by_cases hsize : addr < (s.drive p).size
  · simp only [if_pos hsize] at hk ⊢
    refine ⟨{ s' with
      channels := Function.update s'.channels (p / 2) c'
      mem := copyBytes s.mem buf ((s.drive p).disk addr) 0 512 },
      after_put hquiet hbusy' hphase' hput (hquiet.platter p) rfl hata (by rw [hchannels]) rfl,
      k, fun n hn => ?_⟩
    simp only [ataReadSector, ataTransfer, ha.devType, ha.channel, hset, ha.mode, hmem, hk n hn,
      Option.bind_eq_bind, Option.bind_some]
    rfl
  · simp only [if_neg hsize] at hk ⊢
    refine ⟨{ s' with channels := Function.update s'.channels (p / 2) c', mem := s.mem },
      after_put hquiet hbusy' hphase' hput (hquiet.platter p) rfl hata (by rw [hchannels]) rfl,
      k, fun n hn => ?_⟩
    simp only [ataReadSector, ataTransfer, ha.devType, ha.channel, hset, ha.mode, hmem, hk n hn,
      Option.bind_eq_bind, Option.bind_some]
    rfl

theorem write_sector_law : SectorLaw writeOne ataWriteSector := by
  intro s p addr buf hquiet ha haddr
  obtain ⟨c, s', hset, haim, hdrives, hata, hchannels, hmem⟩ :=
    set_ata_device_and_sector_aims ha.sane haddr s (hquiet.busy (p / 2)) (hquiet.phase (p / 2))
  obtain ⟨c', hbusy', hphase', hdrives', hreturns⟩ :=
    @pio_write_sector c (s.ata p) s.mem addr buf haim ha.bps
  have hselected : c.selected = s.drive p := by
    rw [Channel.selected, hdrives, haim.devNum, ha.devNum]
    rfl
  rw [hselected, haim.devNum, ha.devNum, hdrives] at hdrives'
  rw [hselected] at hreturns
  obtain ⟨k, hk⟩ := hreturns
  by_cases hsize : addr < (s.drive p).size
  · simp only [if_pos hsize] at hk hdrives' ⊢
    refine ⟨{ s' with channels := Function.update s'.channels (p / 2) c', mem := s.mem },
      after_put hquiet hbusy' hphase' hdrives' rfl rfl hata (by rw [hchannels]) rfl,
      k, fun n hn => ?_⟩
    simp only [ataWriteSector, ataTransfer, ha.devType, ha.channel, hset, ha.mode, hmem, hk n hn,
      Option.bind_eq_bind, Option.bind_some]
    rfl
  · simp only [if_neg hsize] at hk hdrives' ⊢
    have hput : c'.drives = Function.update (s.channels (p / 2)).drives (p % 2) (s.drive p) := by
      rw [hdrives']
      exact (Function.update_eq_self _ _).symm
    refine ⟨{ s' with channels := Function.update s'.channels (p / 2) c', mem := s.mem },
      after_put hquiet hbusy' hphase' hput (hquiet.platter p) rfl hata (by rw [hchannels]) rfl,
      k, fun n hn => ?_⟩
    simp only [ataWriteSector, ataTransfer, ha.devType, ha.channel, hset, ha.mode, hmem, hk n hn,
      Option.bind_eq_bind, Option.bind_some]
    rfl

/-! ### The loop over the sectors -/

/-- The loop at sector `i`: `times` sectors are left, and the drive has those that are transferred
before the first error. -/
theorem sector_loop_returns (hlaw : SectorLaw one transfer) (hquiet : Quiet s)
    (ha : Installed (s.ata p) p) (hend : addr + (i + times) ≤ 2 ^ (s.ata p).lbaType)
    (hbuf : i + times ≤ 2 ^ 23) :
    ∃ t, After s p (fun m => transferSectors one (addr + i)
        (min times ((s.drive p).size - (addr + i))) (buf + 512 * i) m) t ∧
      Returns (fun n => sectorLoop (transfer n) p addr buf times i s)
        (if times ≤ (s.drive p).size - (addr + i) then 0 else -1, t) := by
  induction times generalizing i s with
  | zero =>
      refine ⟨s, ?_, 0, fun n _ => ?_⟩
      · rw [Nat.zero_min]
        exact After.refl hquiet
      · rw [if_pos (Nat.zero_le _)]
        rfl
  | succ times ih =>
      have hwrap : wrap32 ((s.ata p).bps * i) = 512 * i := by
        rw [ha.bps, wrap32_of_lt (by omega)]
      obtain ⟨s', hafter, k, hk⟩ := hlaw s p (addr + i) (buf + 512 * i) hquiet ha (by omega)
      by_cases hsize : addr + i < (s.drive p).size
      · simp only [if_pos hsize] at hafter hk
        obtain ⟨t, hrest, l, hl⟩ := @ih s' (i + 1) hafter.quiet (by rw [hafter.ata]; exact ha)
          (by rw [hafter.ata]; omega) (by omega)
        have hnext : buf + 512 * (i + 1) = buf + 512 * i + 512 * 1 := by omega
        rw [hafter.size, hnext] at hrest
        rw [hafter.size] at hl
        refine ⟨t, ?_, k + l, fun n hn => ?_⟩
        · have htake : min (times + 1) ((s.drive p).size - (addr + i)) =
              1 + min times ((s.drive p).size - (addr + (i + 1))) := by omega
          have hboth := hafter.trans hrest
          simp only [htake, transfer_sectors_add]
          exact hboth
        · have hleft : (times + 1 ≤ (s.drive p).size - (addr + i)) =
              (times ≤ (s.drive p).size - (addr + (i + 1))) := propext (by omega)
          simp only [sectorLoop, hwrap, hk n (by omega), Option.bind_eq_bind, Option.bind_some, hleft]
          exact hl n (by omega)
      · simp only [if_neg hsize] at hafter hk
        have hnone : (s.drive p).size - (addr + i) = 0 := by omega
        refine ⟨s', ?_, k, fun n hn => ?_⟩
        · rw [hnone, Nat.min_zero]
          exact hafter
        · simp only [sectorLoop, hwrap, hk n hn, Option.bind_eq_bind, Option.bind_some, hnone]
          rfl

/-- A call returns with the result and the effect it should have. -/
theorem call_returns (call : Call) (hquiet : Quiet s) (ha : Installed (s.ata call.dev) call.dev)
    (haddr : call.addr + call.count ≤ 2 ^ (s.ata call.dev).lbaType) (hcount : call.count ≤ 2 ^ 23) :
    ∃ t, Quiet t ∧ t.ata = s.ata ∧ (∀ q, (t.drive q).size = (s.drive q).size) ∧
      t.store = (call.effect (fun q => (s.drive q).size) s.store).2 ∧
      Returns (fun n => call.perform n s)
        ((call.effect (fun q => (s.drive q).size) s.store).1, t) := by
  have hroom : 0 + call.count ≤ 2 ^ 23 := by omega
  have hend : call.addr + (0 + call.count) ≤ 2 ^ (s.ata call.dev).lbaType := by omega
  unfold Call.effect Call.perform
  cases call.write with
  | false =>
      obtain ⟨t, hafter, hreturns⟩ :=
        @sector_loop_returns s call.dev call.addr call.buf call.count 0 _ _
          read_sector_law hquiet ha hend hroom
      exact ⟨t, hafter.quiet, hafter.ata, hafter.size, hafter.store, hreturns⟩
  | true =>
      obtain ⟨t, hafter, hreturns⟩ :=
        @sector_loop_returns s call.dev call.addr call.buf call.count 0 _ _
          write_sector_law hquiet ha hend hroom
      exact ⟨t, hafter.quiet, hafter.ata, hafter.size, hafter.store, hreturns⟩

/-! ### Any calls -/

/-- A call for a hard disk, whose addresses fit the form that the drive uses and whose bytes can be
counted with 32 bits. -/
def Call.Fits (ata : Nat → Ata) (call : Call) : Prop :=
  Installed (ata call.dev) call.dev ∧ call.addr + call.count ≤ 2 ^ (ata call.dev).lbaType ∧
    call.count ≤ 2 ^ 23

/-- Any calls, one after another, return with the results and the effects of single sectors on the
drives they name, and leave everything on the platters. -/
theorem ide_calls (calls : List Call) (hquiet : Quiet s) (hcalls : ∀ call ∈ calls, call.Fits s.ata) :
    ∃ t, Returns (fun n => performAll n calls s)
        ((effects (fun q => (s.drive q).size) calls s.store).1, t) ∧
      t.store = (effects (fun q => (s.drive q).size) calls s.store).2 ∧ Quiet t := by
  induction calls generalizing s with
  | nil => exact ⟨s, Returns.pure _, rfl, hquiet⟩
  | cons call calls ih =>
      obtain ⟨ha, haddr, hcount⟩ := hcalls call List.mem_cons_self
      obtain ⟨s', hquiet', hata, hsize, hstore, k, hk⟩ := call_returns call hquiet ha haddr hcount
      have hrest : ∀ call ∈ calls, call.Fits s'.ata := fun call hmem => by
        rw [hata]
        exact hcalls call (List.mem_cons_of_mem _ hmem)
      obtain ⟨t, ⟨l, hl⟩, hend, hlast⟩ := ih hquiet' hrest
      simp only [hsize, hstore] at hl hend
      refine ⟨t, ⟨k + l, fun n hn => ?_⟩, hend, hlast⟩
      simp only [performAll, hk n (by omega), hl n (by omega), Option.bind_eq_bind, Option.bind_some]
      rfl

/-- Four drives with eight empty sectors, the first of each channel with addresses of 28 bits. -/
def emptyDrives : Ide where
  ata p := ⟨512, 0, if p % 2 = 0 then 28 else 48, p % 2, 1, p / 2⟩
  channels _ :=
    { secCount := (0, 0)
      lba0 := (0, 0)
      lba1 := (0, 0)
      lba2 := (0, 0)
      devSel := 0
      drives := fun _ => ⟨8, fun _ _ => 0#8, fun _ _ => 0#8⟩
      phase := .ready
      err := false
      busy := 0
      delays := fun i => i + 3 }
  recordDev := 2 ^ 32 - 1
  recordChannel := 2 ^ 32 - 1
  mem a := BitVec.ofNat 8 a

/-- Two sectors are written to the second drive, and the last of them is read back to another
place. A read of the first drive that goes on behind its end is an error. -/
theorem ide_calls_two_drives :
    ∃ t, Returns (fun n => performAll n
        [⟨true, 1, 2, 4, 3⟩, ⟨false, 1, 1, 5, 2048⟩, ⟨false, 0, 2, 7, 4096⟩] emptyDrives)
        ([0, 0, -1], t) ∧ t.mem 2049 = 4#8 ∧ t.mem 4097 = 0#8 ∧ Quiet t := by
  obtain ⟨t, hreturns, hstore, hquiet⟩ := ide_calls
    [⟨true, 1, 2, 4, 3⟩, ⟨false, 1, 1, 5, 2048⟩, ⟨false, 0, 2, 7, 4096⟩]
    (show Quiet emptyDrives from ⟨fun _ => rfl, fun _ => rfl, fun _ => rfl⟩) (by
      intro call hmem
      simp only [List.mem_cons, List.not_mem_nil, or_false] at hmem
      obtain rfl | rfl | rfl := hmem
      · exact ⟨⟨rfl, rfl, rfl, rfl, rfl, .inr rfl⟩, by decide, by decide⟩
      · exact ⟨⟨rfl, rfl, rfl, rfl, rfl, .inr rfl⟩, by decide, by decide⟩
      · exact ⟨⟨rfl, rfl, rfl, rfl, rfl, .inl rfl⟩, by decide, by decide⟩)
  have hmem := congrArg Store.mem hstore
  refine ⟨t, hreturns, ?_, ?_, hquiet⟩
  · rw [show t.mem 2049 = _ from congrFun hmem 2049]
    decide +kernel
  · rw [show t.mem 4097 = _ from congrFun hmem 4097]
    decide +kernel

end Sirius.Driver
