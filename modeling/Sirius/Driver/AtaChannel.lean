import Sirius.Library.Bytes

/-!
# The drives of an ATA channel

A channel has two drives and one set of registers, which the programs of
`kernel/driver/storage/ide.c` reach through ports. The model gives what the command set of
`kernel/include/ata.h` says about the commands that are used there, for drives that take any time
over a command. Where the host does what a drive does not allow (it writes a register during a
command, or moves a word that is not asked for), the result is `none`.
-/

namespace Sirius.Driver

open Library

/-- What a channel waits for. -/
inductive Phase
  /-- A command. -/
  | ready
  /-- The host reads word `pos` of sector `lba`, the first of `left` sectors. -/
  | dataIn (lba left pos : Nat)
  /-- The host writes word `pos` of sector `lba`. -/
  | dataOut (lba left pos : Nat) (got : Bytes)

/-- A drive. The sectors in `platter` survive the loss of power, those in `disk` are read back. -/
structure Drive where
  size : Nat
  disk : Nat → Bytes
  platter : Nat → Bytes

/-- A channel. The registers of a transfer keep their previous content too. The channel is busy
for `busy` further looks at its status, and `delays` says how long it takes over the commands to
come. -/
structure Channel where
  secCount : Nat × Nat
  lba0 : Nat × Nat
  lba1 : Nat × Nat
  lba2 : Nat × Nat
  devSel : Nat
  drives : Nat → Drive
  phase : Phase
  err : Bool
  busy : Nat
  delays : Nat → Nat

namespace Channel

/-- The number of the drive that is selected. -/
def devNum (c : Channel) : Nat := c.devSel / 16 % 2

/-- The drive that is selected. -/
def selected (c : Channel) : Drive := c.drives c.devNum

/-- The address of a command with 28 bits. -/
def address28 (c : Channel) : Nat :=
  c.lba0.1 + 2 ^ 8 * c.lba1.1 + 2 ^ 16 * c.lba2.1 + 2 ^ 24 * (c.devSel % 16)

/-- The address of a command with 48 bits. -/
def address48 (c : Channel) : Nat :=
  c.lba0.1 + 2 ^ 8 * c.lba1.1 + 2 ^ 16 * c.lba2.1 + 2 ^ 24 * c.lba0.2 + 2 ^ 32 * c.lba1.2 +
    2 ^ 40 * c.lba2.2

/-- The number of sectors of a command with 28 bits. -/
def count28 (c : Channel) : Nat := if c.secCount.1 = 0 then 256 else c.secCount.1

/-- The number of sectors of a command with 48 bits. -/
def count48 (c : Channel) : Nat :=
  if c.secCount.1 + 2 ^ 8 * c.secCount.2 = 0 then 65536 else c.secCount.1 + 2 ^ 8 * c.secCount.2

/-- The channel is busy for a while. -/
def delay (c : Channel) : Channel :=
  { c with busy := c.delays 0, delays := fun i => c.delays (i + 1) }

/-- A transfer begins. Sectors that the drive does not have are an error. -/
def begin (c : Channel) (lba count : Nat) (phase : Phase) : Channel :=
  if lba + count ≤ c.selected.size then { c.delay with phase := phase, err := false }
  else { c.delay with phase := .ready, err := true }

/-- The drive that is selected gets a new content. -/
def setSelected (c : Channel) (d : Drive) : Channel :=
  { c with drives := Function.update c.drives c.devNum d }

/-- The commands. -/
def execute (c : Channel) (cmd : Nat) : Option Channel :=
  match cmd with
  | 0x20 => some (c.begin c.address28 c.count28 (.dataIn c.address28 c.count28 0))
  | 0x24 => some (c.begin c.address48 c.count48 (.dataIn c.address48 c.count48 0))
  | 0x30 => some (c.begin c.address28 c.count28 (.dataOut c.address28 c.count28 0 fun _ => 0#8))
  | 0x34 => some (c.begin c.address48 c.count48 (.dataOut c.address48 c.count48 0 fun _ => 0#8))
  | 0xE7 => some { (c.setSelected { c.selected with platter := c.selected.disk }).delay with
      err := false }
  | 0xEA => some { (c.setSelected { c.selected with platter := c.selected.disk }).delay with
      err := false }
  | _ => none

/-- A byte is written to a register. -/
def outportb (c : Channel) (reg value : Nat) : Option Channel :=
  if c.busy ≠ 0 then none
  else match c.phase, reg with
    | .ready, 2 => some { c with secCount := (value % 256, c.secCount.1) }
    | .ready, 3 => some { c with lba0 := (value % 256, c.lba0.1) }
    | .ready, 4 => some { c with lba1 := (value % 256, c.lba1.1) }
    | .ready, 5 => some { c with lba2 := (value % 256, c.lba2.1) }
    | .ready, 6 => some { c with devSel := value % 256 }
    | .ready, 7 => c.execute (value % 256)
    | _, _ => none

/-- The status register: the bits for busy, ready, seek complete, data request and error. -/
def status (c : Channel) : Nat :=
  if c.busy ≠ 0 then 0x80
  else match c.phase with
    | .ready => if c.err then 0x51 else 0x50
    | _ => 0x58

/-- A look at the status register. -/
def inStatus (c : Channel) : Nat × Channel := (c.status, { c with busy := c.busy - 1 })

/-- A word is read from the data register. -/
def inw (c : Channel) : Option (Byte × Byte × Channel) :=
  if c.busy ≠ 0 then none
  else match c.phase with
    | .dataIn lba left pos =>
        let sector := c.selected.disk lba
        let c := if pos + 1 < 256 then { c with phase := .dataIn lba left (pos + 1) }
          else if left = 1 then { c with phase := .ready }
          else { c.delay with phase := .dataIn (lba + 1) (left - 1) 0 }
        some (sector (2 * pos), sector (2 * pos + 1), c)
    | _ => none

/-- A word is written to the data register. A full sector goes to the drive. -/
def outw (c : Channel) (lo hi : Byte) : Option Channel :=
  if c.busy ≠ 0 then none
  else match c.phase with
    | .dataOut lba left pos got =>
        let got := Function.update (Function.update got (2 * pos) lo) (2 * pos + 1) hi
        if pos + 1 < 256 then some { c with phase := .dataOut lba left (pos + 1) got }
        else
          let d := c.selected
          let sector := copyBytes (d.disk lba) 0 got 0 512
          let c := (c.setSelected { d with disk := Function.update d.disk lba sector }).delay
          some { c with phase := if left = 1 then .ready else .dataOut (lba + 1) (left - 1) 0 got }
    | _ => none

end Channel

end Sirius.Driver
