import Sirius.Driver.Ide

/-!
# One sector of an IDE drive

The loops that look at the status end however long the channel is busy, each register and each word
is written or read when the drive expects it, and the sector that moves is the one that was named.
A sector behind the end of the drive gives the result -1. A sector that was written is on the
platter.
-/

namespace Sirius.Driver

open Library

variable {c c' : Channel} {a : Ata} {mem : Bytes} {lba left pos count addr buffer cmd : Nat}
  {got : Bytes} {wait : Nat → Bool}

/-! ### Looking at the status -/

/-- The channel when it is no longer busy. -/
def Channel.settled (c : Channel) : Channel := { c with busy := 0 }

theorem settled_of_busy (h : c.busy = 0) : c.settled = c := by
  cases c
  cases h
  rfl

theorem in_status_settled (h : c.busy = 0) : c.inStatus = (c.status, c) := by
  cases c
  cases h
  rfl

theorem status_busy (h : c.busy ≠ 0) : c.status = 0x80 := by
  rw [Channel.status, if_pos h]

theorem status_ready (hbusy : c.busy = 0) (h : c.phase = .ready) :
    c.status = if c.err then 0x51 else 0x50 := by
  rw [Channel.status, if_neg (not_not_intro hbusy), h]

theorem status_data (hbusy : c.busy = 0) (h : c.phase ≠ .ready) : c.status = 0x58 := by
  rw [Channel.status, if_neg (not_not_intro hbusy)]
  cases hphase : c.phase with
  | ready => exact absurd hphase h
  | dataIn => rfl
  | dataOut => rfl

theorem status_not_busy (h : c.busy = 0) : c.status &&& 0x80 = 0 := by
  by_cases hphase : c.phase = .ready
  · rw [status_ready h hphase]
    cases c.err <;> rfl
  · rw [status_data h hphase]
    rfl

@[simp] theorem ata_wait_settled (c : Channel) : (ataWait c).settled = c.settled := rfl

/-- A look at the status that ends a loop. -/
theorem poll_done (hbusy : c.busy = 0) (h : wait c.status = false) :
    Returns (fun n => ataPoll wait n c) (0, c) := by
  refine Returns.of_add 1 fun n => ?_
  rw [ataPoll, in_status_settled hbusy]
  simp only [h]
  rfl

/-- A round of a loop that goes on: the second look is for an error. -/
theorem poll_again (n : Nat) (h : wait c.status = true) :
    ataPoll wait (n + 1) c =
      if c.inStatus.2.status &&& 0x01 ≠ 0 then some (1, c.inStatus.2.inStatus.2)
      else ataPoll wait n c.inStatus.2.inStatus.2 := if_pos h

/-- The loop ends when the channel is no longer busy. Its result is not 0 when a look between two
rounds shows an error. -/
theorem wait_not_busy (c : Channel) :
    ∃ r, Returns (fun n => ataWaitNotBusy n c) (r, c.settled) := by
  induction hb : c.busy using Nat.strong_induction_on generalizing c with
  | _ b ih =>
      by_cases hzero : b = 0
      · have hbusy : c.busy = 0 := hb.trans hzero
        refine ⟨0, ?_⟩
        rw [settled_of_busy hbusy]
        exact poll_done hbusy (by rw [status_not_busy hbusy]; rfl)
      · have hround := fun n => @poll_again c (fun st => st &&& 0x80 ≠ 0) n
          (by rw [status_busy (hb ▸ hzero)]; rfl)
        by_cases herr : c.inStatus.2.status &&& 0x01 ≠ 0
        · refine ⟨1, Returns.of_add 1 fun n => ?_⟩
          have hsecond : c.inStatus.2.busy = 0 := by
            by_contra hbusy
            rw [status_busy hbusy] at herr
            exact herr rfl
          have hend : c.inStatus.2.inStatus.2 = c.settled := by
            rw [in_status_settled hsecond]
            exact (settled_of_busy hsecond).symm
          rw [← hend]
          exact (hround n).trans (if_pos herr)
        · obtain ⟨r, hr⟩ := ih (b - 1 - 1) (by omega) c.inStatus.2.inStatus.2 (by rw [← hb]; rfl)
          exact ⟨r, hr.succ fun n => (hround n).trans (if_neg herr)⟩

theorem wait_drq_data (hbusy : c.busy = 0) (h : c.phase ≠ .ready) :
    Returns (fun n => ataWaitDrq n c) (0, c) :=
  poll_done hbusy (by rw [status_data hbusy h]; rfl)

theorem wait_drq_error (hbusy : c.busy = 0) (h : c.phase = .ready) (herr : c.err = true) :
    Returns (fun n => ataWaitDrq n c) (1, c) := by
  have hstatus : c.status = 0x51 := by rw [status_ready hbusy h, if_pos herr]
  refine Returns.of_add 1 fun n => (poll_again n (by rw [hstatus]; rfl)).trans ?_
  rw [in_status_settled hbusy]
  dsimp only
  rw [in_status_settled hbusy, hstatus]
  rfl

theorem wait_no_drq_ready (hbusy : c.busy = 0) (h : c.phase = .ready) :
    Returns (fun n => ataWaitNoDrq n c) (0, c) := by
  refine poll_done hbusy ?_
  rw [status_ready hbusy h]
  cases c.err <;> rfl

/-! ### Commands -/

/-- A command is sent as soon as the channel is no longer busy. -/
theorem cmd_write_returns (hphase : c.phase = .ready) (hcmd : cmd < 256)
    (h : c.settled.execute cmd = some c') :
    Returns (fun n => ataCmdWrite n cmd c) (ataWait c') := by
  obtain ⟨r, hr⟩ := wait_not_busy c
  refine hr.bind (Returns.pure _) fun n hn => ?_
  have hport : c.settled.outportb 7 cmd = some c' := by
    have hbusy : ¬ c.settled.busy ≠ 0 := not_not_intro rfl
    rw [← h, Channel.outportb, if_neg hbusy, Nat.mod_eq_of_lt hcmd]
    exact hphase
  simp only [ataCmdWrite, hn, Option.bind_eq_bind, Option.bind_some, hport]
  rfl

/-- The registers name a single sector of the drive. -/
structure Aimed (a : Ata) (addr : Nat) (c : Channel) : Prop where
  busy : c.busy = 0
  phase : c.phase = .ready
  devNum : c.devNum = a.devNum
  address : (a.lbaType = 28 ∧ c.address28 = addr ∧ c.count28 = 1) ∨
    (a.lbaType = 48 ∧ c.address48 = addr ∧ c.count48 = 1)

theorem read_command (h : Aimed a addr c) :
    Returns (fun n => ataCommand n a 0x20 0x24 c)
      (ataWait (c.begin addr 1 (.dataIn addr 1 0))) := by
  obtain ⟨hlba, haddr, hcount⟩ | ⟨hlba, haddr, hcount⟩ := h.address
  · simp only [ataCommand, hlba]
    refine cmd_write_returns h.phase (by decide) ?_
    rw [settled_of_busy h.busy, Channel.execute, haddr, hcount]
  · simp only [ataCommand, hlba]
    refine cmd_write_returns h.phase (by decide) ?_
    rw [settled_of_busy h.busy, Channel.execute, haddr, hcount]

theorem write_command (h : Aimed a addr c) :
    Returns (fun n => ataCommand n a 0x30 0x34 c)
      (ataWait (c.begin addr 1 (.dataOut addr 1 0 fun _ => 0#8))) := by
  obtain ⟨hlba, haddr, hcount⟩ | ⟨hlba, haddr, hcount⟩ := h.address
  · simp only [ataCommand, hlba]
    refine cmd_write_returns h.phase (by decide) ?_
    rw [settled_of_busy h.busy, Channel.execute, haddr, hcount]
  · simp only [ataCommand, hlba]
    refine cmd_write_returns h.phase (by decide) ?_
    rw [settled_of_busy h.busy, Channel.execute, haddr, hcount]

/-- What the drive has read back is on its platter after the command that empties its cache. -/
theorem flush_command (hlba : a.lbaType = 28 ∨ a.lbaType = 48) (hphase : c.phase = .ready) :
    Returns (fun n => ataCommand n a 0xE7 0xEA c)
      (ataWait { (c.settled.setSelected
        { c.settled.selected with platter := c.settled.selected.disk }).delay with err := false }) := by
  obtain hlba | hlba := hlba
  · simp only [ataCommand, hlba]
    exact cmd_write_returns hphase (by decide) rfl
  · simp only [ataCommand, hlba]
    exact cmd_write_returns hphase (by decide) rfl

/-! ### Words -/

/-- Two more bytes of a copy. -/
theorem copy_bytes_word (dst src : Bytes) (pos start count : Nat) :
    copyBytes (Function.update (Function.update dst pos (src start)) (pos + 1) (src (start + 1)))
        (pos + 2) src (start + 2) count = copyBytes dst pos src start (count + 2) := by
  funext i
  unfold copyBytes
  by_cases hin : pos + 2 ≤ i ∧ i < pos + 2 + count
  · rw [if_pos hin, if_pos (by omega)]
    congr 1
    omega
  · rw [if_neg hin]
    by_cases hsnd : i = pos + 1
    · rw [if_pos (by omega), hsnd, Function.update_self]
      congr 1
      omega
    · rw [Function.update_of_ne hsnd]
      by_cases hfst : i = pos
      · rw [if_pos (by omega), hfst, Function.update_self, Nat.sub_self, Nat.add_zero]
      · rw [Function.update_of_ne hfst, if_neg (by omega)]

theorem copy_bytes_last_word (dst src : Bytes) (pos start : Nat) :
    Function.update (Function.update dst pos (src start)) (pos + 1) (src (start + 1)) =
      copyBytes dst pos src start 2 := by
  rw [← copy_bytes_word dst src pos start 0]
  funext i
  exact (copy_bytes_outside (by omega)).symm

/-- The rest of a sector is read. -/
theorem insw_rest (hbusy : c.busy = 0) (hphase : c.phase = .dataIn lba 1 pos)
    (hrest : pos + (count + 1) = 256) :
    insw (count + 1) buffer mem c =
      some (copyBytes mem buffer (c.selected.disk lba) (2 * pos) (2 * (count + 1)),
        { c with phase := .ready }) := by
  induction count generalizing pos buffer mem c with
  | zero =>
      have hin : c.inw = some (c.selected.disk lba (2 * pos), c.selected.disk lba (2 * pos + 1),
          { c with phase := .ready }) := by
        rw [Channel.inw, if_neg (not_not_intro hbusy), hphase]
        dsimp only
        rw [if_neg (by omega), if_pos rfl]
      rw [insw, hin]
      exact congrArg (fun m => some (m, _)) (copy_bytes_last_word mem _ buffer (2 * pos))
  | succ count ih =>
      have hin : c.inw = some (c.selected.disk lba (2 * pos), c.selected.disk lba (2 * pos + 1),
          { c with phase := .dataIn lba 1 (pos + 1) }) := by
        rw [Channel.inw, if_neg (not_not_intro hbusy), hphase]
        dsimp only
        rw [if_pos (by omega)]
      rw [insw, hin]
      refine (ih (c := { c with phase := .dataIn lba 1 (pos + 1) }) hbusy rfl (by omega)).trans ?_
      exact congrArg (fun m => some (m, _))
        (copy_bytes_word mem _ buffer (2 * pos) (2 * (count + 1)))

/-- The channel behind the last word of a sector. -/
def Channel.stored (c : Channel) (lba : Nat) (data : Bytes) : Channel :=
  { (c.setSelected { c.selected with
      disk := Function.update c.selected.disk lba (copyBytes (c.selected.disk lba) 0 data 0 512)
      }).delay with phase := .ready }

/-- The rest of a sector is written. -/
theorem outsw_rest (hbusy : c.busy = 0) (hphase : c.phase = .dataOut lba 1 pos got)
    (hrest : pos + (count + 1) = 256) :
    outsw mem (count + 1) buffer c =
      some (c.stored lba (copyBytes got (2 * pos) mem buffer (2 * (count + 1)))) := by
  induction count generalizing pos buffer got c with
  | zero =>
      have hout : c.outw (mem buffer) (mem (buffer + 1)) =
          some (c.stored lba (copyBytes got (2 * pos) mem buffer 2)) := by
        rw [Channel.outw, if_neg (not_not_intro hbusy), hphase]
        dsimp only
        rw [if_neg (by omega), if_pos rfl, copy_bytes_last_word]
        rfl
      rw [outsw, hout]
      rfl
  | succ count ih =>
      obtain ⟨word, hword⟩ : ∃ word, word =
        Function.update (Function.update got (2 * pos) (mem buffer)) (2 * pos + 1)
          (mem (buffer + 1)) := ⟨_, rfl⟩
      have hout : c.outw (mem buffer) (mem (buffer + 1)) =
          some { c with phase := .dataOut lba 1 (pos + 1) word } := by
        rw [Channel.outw, if_neg (not_not_intro hbusy), hphase, hword]
        dsimp only
        rw [if_pos (by omega)]
      rw [outsw, hout]
      refine (ih (c := { c with phase := .dataOut lba 1 (pos + 1) word }) hbusy rfl
        (by omega)).trans ?_
      rw [hword]
      exact congrArg (fun data => some (c.stored lba data))
        (copy_bytes_word got mem (2 * pos) buffer (2 * (count + 1)))

/-! ### One sector -/

/-- The channel when a transfer of a sector that the drive has is no longer busy. -/
theorem begin_inside (phase : Phase) (h : addr < c.selected.size) :
    ∃ c', (c.begin addr 1 phase).settled = c' ∧ c'.busy = 0 ∧ c'.phase = phase ∧
      c'.drives = c.drives ∧ c'.devNum = c.devNum := by
  unfold Channel.begin
  rw [if_pos (Nat.succ_le_of_lt h)]
  exact ⟨_, rfl, rfl, rfl, rfl, rfl⟩

/-- The channel when a transfer of a sector that the drive does not have is no longer busy. -/
theorem begin_outside (phase : Phase) (h : ¬ addr < c.selected.size) :
    ∃ c', (c.begin addr 1 phase).settled = c' ∧ c'.busy = 0 ∧ c'.phase = .ready ∧
      c'.err = true ∧ c'.drives = c.drives := by
  unfold Channel.begin
  rw [if_neg (fun hle => h (Nat.lt_of_succ_le hle))]
  exact ⟨_, rfl, rfl, rfl, rfl, rfl⟩

theorem selected_congr (hdrives : c'.drives = c.drives) (hdev : c'.devNum = c.devNum) :
    c'.selected = c.selected := by rw [Channel.selected, hdrives, hdev, Channel.selected]

theorem pio_read_sector (h : Aimed a addr c) (hbps : a.bps = 512) :
    ∃ c', c'.busy = 0 ∧ c'.phase = .ready ∧ c'.drives = c.drives ∧
      Returns (fun n => pioReadSector n a buffer mem c)
        (if addr < c.selected.size then (0, copyBytes mem buffer (c.selected.disk addr) 0 512, c')
          else (-1, mem, c')) := by
  obtain ⟨k₁, hcmd⟩ := read_command h
  obtain ⟨r, k₂, hbusy⟩ := wait_not_busy (ataWait (c.begin addr 1 (.dataIn addr 1 0)))
  rw [ata_wait_settled] at hbusy
  by_cases hsize : addr < c.selected.size
  · obtain ⟨c₁, hc₁, hidle, hphase, hdrives, hdev⟩ := begin_inside (.dataIn addr 1 0) hsize
    obtain ⟨k₃, hdrq⟩ := wait_drq_data hidle (by rw [hphase]; exact nofun)
    have hwords := @insw_rest c₁ mem addr 0 255 buffer hidle hphase rfl
    rw [selected_congr hdrives hdev] at hwords
    obtain ⟨c₂, hc₂⟩ : ∃ c₂, c₂ = { c₁ with phase := .ready } := ⟨_, rfl⟩
    rw [← hc₂] at hwords
    have hidle₂ : c₂.busy = 0 := by rw [hc₂]; exact hidle
    have hphase₂ : c₂.phase = .ready := by rw [hc₂]
    obtain ⟨r', k₄, hbusy'⟩ := wait_not_busy c₂
    obtain ⟨k₅, hno⟩ := wait_no_drq_ready hidle₂ hphase₂
    refine ⟨c₂, hidle₂, hphase₂, by rw [hc₂]; exact hdrives, k₁ + k₂ + k₃ + k₄ + k₅, fun n hn => ?_⟩
    rw [hc₁] at hbusy
    rw [settled_of_busy hidle₂] at hbusy'
    rw [if_pos hsize]
    simp only [pioReadSector, hcmd n (by omega), hbusy n (by omega), hdrq n (by omega), hbps, hwords,
      hbusy' n (by omega), hno n (by omega), Option.bind_eq_bind, Option.bind_some]
    rfl
  · obtain ⟨c₁, hc₁, hidle, hphase, herr, hdrives⟩ := begin_outside (.dataIn addr 1 0) hsize
    obtain ⟨k₃, hdrq⟩ := wait_drq_error hidle hphase herr
    refine ⟨c₁, hidle, hphase, hdrives, k₁ + k₂ + k₃, fun n hn => ?_⟩
    rw [hc₁] at hbusy
    rw [if_neg hsize]
    simp only [pioReadSector, hcmd n (by omega), hbusy n (by omega), hdrq n (by omega),
      Option.bind_eq_bind, Option.bind_some]
    rfl

/-- The drive with a sector from the memory, which is on the platter as well. -/
def Drive.saved (d : Drive) (lba buffer : Nat) (mem : Bytes) : Drive :=
  let disk := Function.update d.disk lba (copyBytes (d.disk lba) 0 mem buffer 512)
  { d with disk := disk, platter := disk }

/-- A copy of a copy. -/
theorem copy_bytes_copy (dst mid src : Bytes) (start count : Nat) :
    copyBytes dst 0 (copyBytes mid 0 src start count) 0 count = copyBytes dst 0 src start count := by
  funext i
  unfold copyBytes
  by_cases hi : 0 ≤ i ∧ i < 0 + count
  · rw [if_pos hi, if_pos hi, if_pos (by omega)]
    congr 1
    omega
  · rw [if_neg hi, if_neg hi]

/-- The drives after a sector was stored and the cache emptied. -/
theorem stored_flushed (c : Channel) :
    ((c.stored lba (copyBytes (fun _ => 0#8) 0 mem buffer 512)).settled.setSelected
      { (c.stored lba (copyBytes (fun _ => 0#8) 0 mem buffer 512)).settled.selected with
        platter := (c.stored lba (copyBytes (fun _ => 0#8) 0 mem buffer 512)).settled.selected.disk
      }).drives = Function.update c.drives c.devNum (c.selected.saved lba buffer mem) := by
  obtain ⟨c₂, hc₂⟩ : ∃ c₂, c₂ = c.stored lba (copyBytes (fun _ => 0#8) 0 mem buffer 512) := ⟨_, rfl⟩
  have hdev : c₂.settled.devNum = c.devNum := by rw [hc₂]; rfl
  have hdrives : c₂.settled.drives = Function.update c.drives c.devNum { c.selected with
      disk := Function.update c.selected.disk lba
        (copyBytes (c.selected.disk lba) 0 mem buffer 512) } := by
    rw [hc₂, ← copy_bytes_copy (c.selected.disk lba) (fun _ => 0#8)]
    rfl
  rw [← hc₂, Channel.setSelected, Channel.selected, hdev, hdrives, Function.update_self]
  exact Function.update_idem ..

theorem pio_write_sector (h : Aimed a addr c) (hbps : a.bps = 512) :
    ∃ c', c'.busy = 0 ∧ c'.phase = .ready ∧
      c'.drives = (if addr < c.selected.size then
        Function.update c.drives c.devNum (c.selected.saved addr buffer mem) else c.drives) ∧
      Returns (fun n => pioWriteSector n a buffer mem c)
        (if addr < c.selected.size then 0 else -1, mem, c') := by
  obtain ⟨k₁, hcmd⟩ := write_command h
  obtain ⟨r, k₂, hbusy⟩ := wait_not_busy (ataWait (c.begin addr 1 (.dataOut addr 1 0 fun _ => 0#8)))
  rw [ata_wait_settled] at hbusy
  by_cases hsize : addr < c.selected.size
  · obtain ⟨c₁, hc₁, hidle, hphase, hdrives, hdev⟩ :=
      begin_inside (.dataOut addr 1 0 fun _ => 0#8) hsize
    obtain ⟨k₃, hdrq⟩ := wait_drq_data hidle (by rw [hphase]; exact nofun)
    have hwords := @outsw_rest c₁ mem addr 0 255 buffer _ hidle hphase rfl
    have hflushed := @stored_flushed mem addr buffer c₁
    obtain ⟨c₂, hc₂⟩ : ∃ c₂, c₂ = c₁.stored addr (copyBytes (fun _ => 0#8) 0 mem buffer 512) :=
      ⟨_, rfl⟩
    rw [Nat.mul_zero, show 2 * (255 + 1) = 512 from rfl, ← hc₂] at hwords
    rw [← hc₂, selected_congr hdrives hdev, hdrives, hdev] at hflushed
    have hlba : a.lbaType = 28 ∨ a.lbaType = 48 := h.address.imp And.left And.left
    obtain ⟨k₄, hflush⟩ := flush_command hlba (show c₂.phase = .ready by rw [hc₂]; rfl)
    obtain ⟨c₃, hc₃⟩ : ∃ c₃, c₃ = { (c₂.settled.setSelected
      { c₂.settled.selected with platter := c₂.settled.selected.disk }).delay with err := false } :=
      ⟨_, rfl⟩
    obtain ⟨r', k₅, hbusy'⟩ := wait_not_busy (ataWait c₃)
    rw [ata_wait_settled] at hbusy'
    rw [← hc₃] at hflush
    have hphase₃ : c₃.settled.phase = .ready := by rw [hc₃, hc₂]; rfl
    have hdrives₃ : c₃.settled.drives =
        Function.update c.drives c.devNum (c.selected.saved addr buffer mem) := by
      rw [hc₃, ← hflushed]
      rfl
    obtain ⟨k₆, hno⟩ := wait_no_drq_ready (c := c₃.settled) rfl hphase₃
    refine ⟨c₃.settled, rfl, hphase₃, by rw [if_pos hsize, hdrives₃],
      k₁ + k₂ + k₃ + k₄ + k₅ + k₆, fun n hn => ?_⟩
    rw [hc₁] at hbusy
    rw [if_pos hsize]
    simp only [pioWriteSector, hcmd n (by omega), hbusy n (by omega), hdrq n (by omega), hbps, hwords,
      hflush n (by omega), hbusy' n (by omega), hno n (by omega), Option.bind_eq_bind,
      Option.bind_some]
    rfl
  · obtain ⟨c₁, hc₁, hidle, hphase, herr, hdrives⟩ :=
      begin_outside (.dataOut addr 1 0 fun _ => 0#8) hsize
    obtain ⟨k₃, hdrq⟩ := wait_drq_error hidle hphase herr
    refine ⟨c₁, hidle, hphase, by rw [if_neg hsize, hdrives], k₁ + k₂ + k₃, fun n hn => ?_⟩
    rw [hc₁] at hbusy
    rw [if_neg hsize]
    simp only [pioWriteSector, hcmd n (by omega), hbusy n (by omega), hdrq n (by omega),
      Option.bind_eq_bind, Option.bind_some]
    rfl

/-! ### Naming a sector -/

theorem outportb_ready (hbusy : c.busy = 0) (hphase : c.phase = .ready) (value : Nat) :
    c.outportb 2 value = some { c with secCount := (value % 256, c.secCount.1) } ∧
      c.outportb 3 value = some { c with lba0 := (value % 256, c.lba0.1) } ∧
      c.outportb 4 value = some { c with lba1 := (value % 256, c.lba1.1) } ∧
      c.outportb 5 value = some { c with lba2 := (value % 256, c.lba2.1) } ∧
      c.outportb 6 value = some { c with devSel := value % 256 } := by
  unfold Channel.outportb
  simp only [if_neg (not_not_intro hbusy), hphase, and_self]

/-- The byte at `k` of an address. -/
theorem address_byte (addr k : Nat) : (addr >>> k &&& 0xff) % 256 = addr / 2 ^ k % 256 := by
  rw [Nat.shiftRight_eq_div_pow, show (0xff : Nat) = 2 ^ 8 - 1 from rfl,
    Nat.and_two_pow_sub_one_eq_mod, Nat.mod_mod]

theorem address_low_byte (addr : Nat) : (addr &&& 0xff) % 256 = addr % 256 := by
  rw [show (0xff : Nat) = 2 ^ 8 - 1 from rfl, Nat.and_two_pow_sub_one_eq_mod, Nat.mod_mod]

/-- The register that selects the drive. -/
theorem device_register (dev top : Nat) (hdev : dev < 2) (htop : top < 16) :
    (0x40 ||| dev <<< 4 ||| top) % 256 / 16 % 2 = dev ∧
      (0x40 ||| dev <<< 4 ||| top) % 256 % 16 = top := by
  interval_cases dev <;> interval_cases top <;> exact ⟨rfl, rfl⟩

theorem device_register_48 (dev : Nat) (hdev : dev < 2) :
    (0x40 ||| dev <<< 4) % 256 / 16 % 2 = dev := by
  interval_cases dev <;> rfl

/-- The entry names a drive of a channel, and the form of its addresses. -/
structure Ata.Sane (a : Ata) : Prop where
  devNum : a.devNum < 2
  lbaType : a.lbaType = 28 ∨ a.lbaType = 48

/-- What the selection leaves alone. -/
theorem ata_record_same (a : Ata) (c : Channel) (s : Ide) (hbusy : c.busy = 0) :
    ∃ s', ataRecord a c s = (c, s') ∧ s'.ata = s.ata ∧ s'.channels = s.channels ∧
      s'.mem = s.mem := by
  unfold ataRecord
  have hwait : ataWait c = c := by
    unfold ataWait
    rw [in_status_settled hbusy, in_status_settled hbusy, in_status_settled hbusy,
      in_status_settled hbusy]
  split
  · rw [hwait]
    exact ⟨_, rfl, rfl, rfl, rfl⟩
  · exact ⟨s, rfl, rfl, rfl, rfl⟩

/-- The selection of a drive and a single sector. -/
theorem set_ata_device_and_sector_aims (ha : a.Sane) (haddr : addr < 2 ^ a.lbaType) (s : Ide)
    (hbusy : c.busy = 0) (hphase : c.phase = .ready) :
    ∃ c' s', setAtaDeviceAndSector a 1 addr c s = some (c', s') ∧ Aimed a addr c' ∧
      c'.drives = c.drives ∧ s'.ata = s.ata ∧ s'.channels = s.channels ∧ s'.mem = s.mem := by
  obtain hlba | hlba := ha.lbaType
  · rw [hlba] at haddr
    have htop : addr >>> 24 &&& 0x0f = addr / 2 ^ 24 := by
      rw [Nat.shiftRight_eq_div_pow, show (0x0f : Nat) = 2 ^ 4 - 1 from rfl,
        Nat.and_two_pow_sub_one_eq_mod, Nat.mod_eq_of_lt (by omega)]
    obtain ⟨hdev, hlow⟩ := device_register a.devNum (addr / 2 ^ 24) ha.devNum (by omega)
    obtain ⟨c', hc'⟩ : ∃ c', c' = { c with
        secCount := (1, c.secCount.1)
        lba0 := (addr % 256, c.lba0.1)
        lba1 := (addr / 2 ^ 8 % 256, c.lba1.1)
        lba2 := (addr / 2 ^ 16 % 256, c.lba2.1)
        devSel := (0x40 ||| a.devNum <<< 4 ||| addr / 2 ^ 24) % 256 } := ⟨_, rfl⟩
    have hidle : c'.busy = 0 := by rw [hc', ← hbusy]
    obtain ⟨s', hrecord, hsame⟩ := ata_record_same a c' s hidle
    refine ⟨c', s', ?_, ⟨hidle, by rw [hc', ← hphase], ?_, .inl ⟨hlba, ?_, ?_⟩⟩, ?_, hsame⟩
    · rw [← hrecord, hc', ← address_low_byte, ← address_byte addr 8, ← address_byte addr 16, ← htop]
      simp only [setAtaDeviceAndSector, hlba, Channel.outportb, hbusy, hphase, ne_eq,
        not_true_eq_false, if_false, Option.bind_eq_bind, Option.bind_some]
      rfl
    · rw [hc', Channel.devNum, hdev]
    · rw [hc', Channel.address28]
      simp only [hlow]
      omega
    · rw [hc']
      rfl
    · rw [hc']
  · rw [hlba] at haddr
    obtain ⟨c', hc'⟩ : ∃ c', c' = { c with
        secCount := (1, 0)
        lba0 := (addr % 256, addr / 2 ^ 24 % 256)
        lba1 := (addr / 2 ^ 8 % 256, addr / 2 ^ 32 % 256)
        lba2 := (addr / 2 ^ 16 % 256, addr / 2 ^ 40 % 256)
        devSel := (0x40 ||| a.devNum <<< 4) % 256 } := ⟨_, rfl⟩
    have hidle : c'.busy = 0 := by rw [hc', ← hbusy]
    obtain ⟨s', hrecord, hsame⟩ := ata_record_same a c' s hidle
    refine ⟨c', s', ?_, ⟨hidle, by rw [hc', ← hphase], ?_, .inr ⟨hlba, ?_, ?_⟩⟩, ?_, hsame⟩
    · rw [← hrecord, hc', ← address_low_byte, ← address_byte addr 8, ← address_byte addr 16,
        ← address_byte addr 24, ← address_byte addr 32, ← address_byte addr 40]
      simp only [setAtaDeviceAndSector, hlba, Channel.outportb, hbusy, hphase, ne_eq,
        not_true_eq_false, if_false, Option.bind_eq_bind, Option.bind_some]
      rfl
    · rw [hc', Channel.devNum, device_register_48 _ ha.devNum]
    · rw [hc', Channel.address48]
      dsimp only
      omega
    · rw [hc']
      rfl
    · rw [hc']

end Sirius.Driver
