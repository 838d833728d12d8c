import Sirius.Driver.AtaChannel
import Sirius.Driver.Sata
import Sirius.Library.Runs

/-!
# Sectors of the drives of an IDE controller

`ata_read_sector` and `ata_write_sector` of `kernel/driver/storage/ide.c` move one sector by
programmed input and output, and `read_sector` and `write_sector` of `storage.c` call them for
every sector. The loops that look at the status register are modelled with a bound `n`.
-/

namespace Sirius.Driver

open Library

/-! ### The code -/

/-- `ata_wait`: four looks at the status. -/
def ataWait (c : Channel) : Channel :=
  c.inStatus.2.inStatus.2.inStatus.2.inStatus.2

/-- The body that the four functions which wait for a status share. -/
def ataPoll (wait : Nat → Bool) : (n : Nat) → Channel → Option (Int × Channel)
  | 0, _ => none
  | n + 1, c =>
      let (st, c) := c.inStatus
      if wait st then
        let (st, c) := c.inStatus
        if st &&& 0x01 ≠ 0 then some (1, c) else ataPoll wait n c
      else some (0, c)

/-- `ata_wait_not_busy`. -/
def ataWaitNotBusy : Nat → Channel → Option (Int × Channel) := ataPoll fun st => st &&& 0x80 ≠ 0

/-- `ata_wait_no_drq`. -/
def ataWaitNoDrq : Nat → Channel → Option (Int × Channel) := ataPoll fun st => st &&& 0x08 ≠ 0

/-- `ata_wait_drq`. -/
def ataWaitDrq : Nat → Channel → Option (Int × Channel) := ataPoll fun st => st &&& 0x08 = 0

/-- `ata_cmd_write`. -/
def ataCmdWrite (n cmd : Nat) (c : Channel) : Option Channel := do
  let (_, c) ← ataWaitNotBusy n c
  let c ← c.outportb 7 cmd
  return ataWait c

/-- `rep insw`: `count` words from the data register go to `buffer`. -/
def insw : (count buffer : Nat) → Bytes → Channel → Option (Bytes × Channel)
  | 0, _, mem, c => some (mem, c)
  | count + 1, buffer, mem, c => do
      let (lo, hi, c) ← c.inw
      insw count (buffer + 2) (Function.update (Function.update mem buffer lo) (buffer + 1) hi) c

/-- `rep outsw`: `count` words from `buffer` go to the data register. -/
def outsw (mem : Bytes) : (count buffer : Nat) → Channel → Option Channel
  | 0, _, c => some c
  | count + 1, buffer, c => do
      let c ← c.outw (mem buffer) (mem (buffer + 1))
      outsw mem count (buffer + 2) c

/-- The fields of an entry of the table `ata`. -/
structure Ata where
  bps : Nat
  mode : Nat
  lbaType : Nat
  devNum : Nat
  devType : Nat
  channel : Nat

/-- The table of the drives, the channels, the drive that was selected last, and the memory. -/
structure Ide where
  ata : Nat → Ata
  channels : Nat → Channel
  recordDev : Nat
  recordChannel : Nat
  mem : Bytes

/-- The wait after another drive was selected. -/
def ataRecord (a : Ata) (c : Channel) (s : Ide) : Channel × Ide :=
  if s.recordDev ≠ a.devNum ∧ s.recordChannel ≠ a.channel then
    (ataWait c, { s with recordDev := a.devNum, recordChannel := a.channel })
  else (c, s)

/-- `set_ata_device_and_sector` with the registers of the drive's channel. -/
def setAtaDeviceAndSector (a : Ata) (count addr : Nat) (c : Channel) (s : Ide) :
    Option (Channel × Ide) :=
  match a.lbaType with
  | 28 => do
      let c ← c.outportb 2 count
      let c ← c.outportb 3 (addr &&& 0xff)
      let c ← c.outportb 4 (addr >>> 8 &&& 0xff)
      let c ← c.outportb 5 (addr >>> 16 &&& 0xff)
      let c ← c.outportb 6 (0x40 ||| a.devNum <<< 4 ||| (addr >>> 24 &&& 0x0f))
      return ataRecord a c s
  | 48 => do
      let c ← c.outportb 2 0
      let c ← c.outportb 3 (addr >>> 24 &&& 0xff)
      let c ← c.outportb 4 (addr >>> 32 &&& 0xff)
      let c ← c.outportb 5 (addr >>> 40 &&& 0xff)
      let c ← c.outportb 2 count
      let c ← c.outportb 3 (addr &&& 0xff)
      let c ← c.outportb 4 (addr >>> 8 &&& 0xff)
      let c ← c.outportb 5 (addr >>> 16 &&& 0xff)
      let c ← c.outportb 6 (0x40 ||| a.devNum <<< 4)
      return ataRecord a c s
  -- the addressing by cylinders stops the machine
  | 0 => none
  | _ => some (c, s)

/-- A command in the form for the addresses of the drive. -/
def ataCommand (n : Nat) (a : Ata) (cmd28 cmd48 : Nat) (c : Channel) : Option Channel :=
  match a.lbaType with
  | 28 => ataCmdWrite n cmd28 c
  | 48 => ataCmdWrite n cmd48 c
  | _ => some c

/-- The part of `ata_read_sector` behind the selection of the drive and the sector: the result,
the memory and the channel. -/
def pioReadSector (n : Nat) (a : Ata) (buffer : Nat) (mem : Bytes) (c : Channel) :
    Option (Int × Bytes × Channel) := do
  let c ← ataCommand n a 0x20 0x24 c
  let (_, c) ← ataWaitNotBusy n c
  let (r, c) ← ataWaitDrq n c
  if r ≠ 0 then return (-1, mem, c)
  let (mem, c) ← insw (a.bps / 2) buffer mem c
  let (_, c) ← ataWaitNotBusy n c
  let (r, c) ← ataWaitNoDrq n c
  return (if r ≠ 0 then -1 else 0, mem, c)

/-- The part of `ata_write_sector` behind the selection of the drive and the sector. -/
def pioWriteSector (n : Nat) (a : Ata) (buffer : Nat) (mem : Bytes) (c : Channel) :
    Option (Int × Bytes × Channel) := do
  let c ← ataCommand n a 0x30 0x34 c
  let (_, c) ← ataWaitNotBusy n c
  let (r, c) ← ataWaitDrq n c
  if r ≠ 0 then return (-1, mem, c)
  let c ← outsw mem (a.bps / 2) buffer c
  let c ← ataCommand n a 0xE7 0xEA c
  let (_, c) ← ataWaitNotBusy n c
  let (r, c) ← ataWaitNoDrq n c
  return (if r ≠ 0 then -1 else 0, mem, c)

/-- The body that `ata_read_sector` and `ata_write_sector` share. -/
def ataTransfer (pio : Ata → Nat → Bytes → Channel → Option (Int × Bytes × Channel))
    (p count addr buffer : Nat) (s : Ide) : Option (Int × Ide) :=
  let a := s.ata p
  match a.devType with
  | 0 => some (-1, s)
  | 1 => do
      let (c, s) ← setAtaDeviceAndSector a count addr (s.channels a.channel) s
      let back (mem : Bytes) (c : Channel) : Ide :=
        { s with channels := Function.update s.channels a.channel c, mem := mem }
      match a.mode with
      | 0 =>
          let (r, mem, c) ← pio a buffer s.mem c
          return (r, back mem c)
      | 1 => return (-1, back s.mem c)
      | _ => return (0, back s.mem c)
  | 3 => some (-1, s)
  | _ => some (0, s)

/-- `ata_read_sector`. -/
def ataReadSector (n : Nat) : (p count addr buffer : Nat) → Ide → Option (Int × Ide) :=
  ataTransfer (pioReadSector n)

/-- `ata_write_sector`. -/
def ataWriteSector (n : Nat) : (p count addr buffer : Nat) → Ide → Option (Int × Ide) :=
  ataTransfer (pioWriteSector n)

/-- The loop over the sectors, at sector `i`. The product of `bps` and `i` has 32 bits. -/
def sectorLoop (one : (p count addr buffer : Nat) → Ide → Option (Int × Ide)) (dev addr buf : Nat) :
    (times i : Nat) → Ide → Option (Int × Ide)
  | 0, _, s => some (0, s)
  | times + 1, i, s => do
      let (r, s) ← one dev 1 (addr + i) (buf + wrap32 ((s.ata dev).bps * i)) s
      if r ≠ 0 then return (-1, s) else sectorLoop one dev addr buf times (i + 1) s

/-- `read_sector` with an IDE controller. -/
def readSector (n dev count addr buf : Nat) : Ide → Option (Int × Ide) :=
  sectorLoop (ataReadSector n) dev addr buf count 0

/-- `write_sector` with an IDE controller. -/
def writeSector (n dev count addr buf : Nat) : Ide → Option (Int × Ide) :=
  sectorLoop (ataWriteSector n) dev addr buf count 0

end Sirius.Driver
