import OpenLsd.Errors

/-!
# ATA disks

The model of `kernel/dev/ata.c`. A disk is an array of 512-byte sectors, given by its bytes. A command sets the position to the
sector that the registers name, and the data port transfers as many words from there on as the driver reads or writes. When
the disk is ready is up to the disk: every read of the status register looks at the next of an unknown sequence of answers.
Where a loop of the driver waits for the disk it is given a number of turns.
-/

namespace OpenLsd

/-- The size of a sector in bytes. -/
def SECTOR_SIZE : Nat := 512

/-- `enum ata_state`. -/
inductive AtaState where
  | idle
  | read
  | write
  deriving DecidableEq, Repr

inductive AtaCmd where
  | read
  | write
  | flush
  deriving DecidableEq, Repr

/-- The device: its bytes, the registers of its channel, the position of the transfer in progress, and the answers to reads of
the status register: whether `ATA_STAT_READY` is set and `ATA_STAT_BUSY` is not. -/
structure AtaDev where
  data : Nat → UInt8
  sectorCount : Nat
  lbaLo : Nat
  lbaMid : Nat
  lbaHi : Nat
  driveReg : Nat
  pos : Nat
  ready : Nat → Bool
  now : Nat

namespace AtaDev

/-- The sector that the registers name: 28 bits, of which the upper four are in the drive register. -/
def lba (d : AtaDev) : Nat := d.lbaLo + d.lbaMid * 2 ^ 8 + d.lbaHi * 2 ^ 16 + d.driveReg % 2 ^ 4 * 2 ^ 24

/-- `outb(chan->cmd, cmd)`. -/
def command (d : AtaDev) : AtaCmd → AtaDev
  | .read | .write => { d with pos := d.lba * SECTOR_SIZE }
  | .flush => d

/-- `insl(chan->data, buf, n)`: `n` words of four bytes are read into the buffer. -/
def insl (d : AtaDev) (buf : Nat → UInt8) (n : Nat) : (Nat → UInt8) × AtaDev :=
  (fun i => if i < 4 * n then d.data (d.pos + i) else buf i, { d with pos := d.pos + 4 * n })

/-- `outsl(chan->data, buf, n)`. -/
def outsl (d : AtaDev) (buf : Nat → UInt8) (n : Nat) : AtaDev :=
  { d with
    data := fun x => if d.pos ≤ x ∧ x < d.pos + 4 * n then buf (x - d.pos) else d.data x
    pos := d.pos + 4 * n }

/-- `inb(chan->status)`. -/
def status (d : AtaDev) : Bool × AtaDev := (d.ready d.now, { d with now := d.now + 1 })

/-- `ata_wait_ready` without the check for errors. -/
def waitReady : Nat → AtaDev → Option AtaDev
  | 0, _ => none
  | n + 1, d =>
    match d.status with
    | (true, d) => some d
    | (false, d) => waitReady n d

end AtaDev

/-- `struct ata_disk`, with the device. -/
structure AtaDisk where
  drive : Nat
  state : AtaState
  sectSize : Nat
  dev : AtaDev

namespace AtaDisk

def ataPoll (x : AtaDisk) : Bool × AtaDisk :=
  let (ready, dev) := x.dev.status
  (ready, { x with dev := dev })

/-- The drive is selected. -/
def selectDrive (x : AtaDisk) : AtaDisk := { x with dev := { x.dev with driveReg := 0xa0 ||| x.drive <<< 4 } }

/-- The request for sectors that `ata_read` and `ata_write` make when the disk is idle. -/
def request (fuel : Nat) (x : AtaDisk) (cmd : AtaCmd) (state : AtaState) (count addr : Nat) : Option AtaDisk := do
  let dev ← x.dev.waitReady fuel
  let dev := { dev with
    sectorCount := count % 2 ^ 8
    lbaLo := addr &&& 0xff
    lbaMid := addr >>> 8 &&& 0xff
    lbaHi := addr >>> 16 &&& 0xff
    driveReg := 0xe0 ||| x.drive <<< 4 ||| (addr >>> 24 &&& 0xf) }
  return { x with dev := dev.command cmd, state := state }

/-- `ata_read`: the result, the buffer and the disk. -/
def ataRead (fuel : Nat) (x : AtaDisk) (buf : Nat → UInt8) (count addr : Nat) : Option (Int × (Nat → UInt8) × AtaDisk) := do
  let x := x.selectDrive
  if x.state = .idle then
    let x ← x.request fuel .read .read count addr
    return (-EAGAIN, buf, x)
  else if x.state ≠ .read then return (-EAGAIN, buf, x)
  else
    let (ready, x) := x.ataPoll
    if ready = false then return (-EAGAIN, buf, x)
    else
      let (buf, dev) := x.dev.insl buf (x.sectSize / 4)
      return ((count * x.sectSize : Nat), buf, { x with dev := dev, state := .idle })

/-- `ata_write`: the result and the disk. -/
def ataWrite (fuel : Nat) (x : AtaDisk) (buf : Nat → UInt8) (count addr : Nat) : Option (Int × AtaDisk) := do
  let x := x.selectDrive
  if x.state = .idle then
    let x ← x.request fuel .write .write count addr
    return (-EAGAIN, x)
  else if x.state ≠ .write then return (-EAGAIN, x)
  else
    let (ready, x) := x.ataPoll
    if ready = false then return (-EAGAIN, x)
    else
      let x := x.selectDrive
      let dev ← x.dev.waitReady fuel
      let dev := dev.outsl buf (count * x.sectSize / 4)
      let dev ← dev.waitReady fuel
      let dev ← (dev.command .flush).waitReady fuel
      return ((count * x.sectSize : Nat), { x with dev := dev, state := .idle })

end AtaDisk

end OpenLsd
