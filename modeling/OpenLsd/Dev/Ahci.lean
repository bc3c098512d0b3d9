import OpenLsd.Errors

/-!
# AHCI disks

The part of `kernel/dev/ahci.c` that writes to a disk. The registers of a port are the device's own: a read of one gives the next
of an unknown sequence of answers. Of the command that is set up for the device its slot, its sectors and the sizes of its
buffers are kept. The device fetches the bytes by itself, and they are left out.
-/

namespace OpenLsd

/-- `enum ahci_state`. -/
inductive AhciState where
  | idle
  | read
  | write
  deriving DecidableEq, Repr

/-- The answers to reads of the registers of a port, and the number of reads so far. -/
structure AhciPort where
  sataAct : Nat → Nat
  cmdIssue : Nat → Nat
  intStat : Nat → Nat
  taskFileData : Nat → Nat
  now : Nat

namespace AhciPort

/-- The port after a read. -/
def later (p : AhciPort) : AhciPort := { p with now := p.now + 1 }

/-- `slots`: the slots with a command in progress. -/
def slots (p : AhciPort) : Nat := p.sataAct p.now ||| p.cmdIssue p.now

/-- The loop of `find_cmdslot` over the 32 slots. -/
def findSlot (slots i : Nat) : Nat → Int
  | 0 => -1
  | n + 1 => if slots &&& 1 = 0 then i else findSlot (slots >>> 1) (i + 1) n

/-- `find_cmdslot`. -/
def findCmdslot (p : AhciPort) : Int := findSlot p.slots 0 32

/-- `HBA_PxIS_TFES` is set: the command has failed. -/
def tfes (p : AhciPort) : Bool := (p.intStat p.now).testBit 30

/-- The driver waits while `ATA_STAT_BUSY` or `ATA_STAT_DRQ` is set. -/
def waitIdle : Nat → AhciPort → Option AhciPort
  | 0, _ => none
  | n + 1, p => if p.taskFileData p.now &&& 0x88 = 0 then some p.later else waitIdle n p.later

end AhciPort

/-- The command that is issued: its slot, whether it is a write, the sizes of its buffers, its first sector and their number. -/
structure AhciCmd where
  slot : Int
  write : Bool
  prdts : List Nat
  lba : Nat
  count : Nat
  deriving DecidableEq, Repr

/-- `struct ahci_disk`, with its port and the last command. -/
structure AhciDisk where
  port : AhciPort
  state : AhciState
  sectSize : Nat
  slot : Int
  issued : Option AhciCmd

namespace AhciDisk

/-- `ahci_poll`. -/
def ahciPoll (x : AhciDisk) : Bool × AhciDisk :=
  (!(x.port.cmdIssue x.port.now).testBit x.slot.toNat || x.port.tfes, { x with port := x.port.later })

/-- The sizes of the buffers: 8K for every 16 sectors, and the 22 bits of what is computed for the rest. -/
def prdtSizes (count sectSize : Nat) : List Nat :=
  let prdtLen := (count - 1) / 16 + 1
  List.replicate (prdtLen - 1) (8 * 1024 - 1) ++ [((count - 16 * (prdtLen - 1)) / sectSize + 2 ^ 22 - 1) % 2 ^ 22]

/-- `ahci_write`: the result and the disk. -/
def ahciWrite (fuel : Nat) (x : AhciDisk) (count addr : Nat) : Option (Int × AhciDisk) := do
  if x.state = .idle then
    let x := { x with slot := x.port.findCmdslot, port := x.port.later }
    if x.slot < 0 then return (-ENOMEM, x)
    else if count = 0 then return (0, x)
    else
      let port ← x.port.waitIdle fuel
      let cmd := ⟨x.slot, true, prdtSizes count x.sectSize, addr % 2 ^ 48, count % 2 ^ 16⟩
      return (-EAGAIN, { x with port := port, state := .write, issued := some cmd })
  else if x.state ≠ .write then return (-EAGAIN, x)
  else
    let (ready, x) := x.ahciPoll
    if ready = false then return (-EAGAIN, x)
    else
      let failed := x.port.tfes
      let x := { x with state := .idle, port := x.port.later }
      return (if failed = true then 0 else (count * x.sectSize : Nat), x)

end AhciDisk

end OpenLsd
