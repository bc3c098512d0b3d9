import OpenLsd.Dev.Ahci
import OpenLsd.Dev.Ata

/-!
# Disks

`kernel/dev/disk.c`: a disk is used through the operations that its driver has put into `struct disk_ops`.
-/

namespace OpenLsd

/-- `struct disk_ops`, as far as pages are written through it. -/
class DiskOps (D : Type) where
  poll : D → Bool × D
  write (fuel : Nat) (disk : D) (buf : Nat → UInt8) (count addr : Nat) : Option (Int × D)

/-- `ata_ops`. -/
instance : DiskOps AtaDisk where
  poll := AtaDisk.ataPoll
  write := AtaDisk.ataWrite

/-- `ahci_ops`. -/
instance : DiskOps AhciDisk where
  poll := AhciDisk.ahciPoll
  write := fun fuel x _ count addr => x.ahciWrite fuel count addr

/-- A disk of one of the two drivers. -/
inductive Disk where
  | ata (x : AtaDisk)
  | ahci (x : AhciDisk)

namespace Disk

def diskPoll : Disk → Bool × Disk
  | .ata x => (DiskOps.poll x).map id .ata
  | .ahci x => (DiskOps.poll x).map id .ahci

def diskWrite (fuel : Nat) (disk : Disk) (buf : Nat → UInt8) (count addr : Nat) : Option (Int × Disk) :=
  match disk with
  | .ata x => (DiskOps.write fuel x buf count addr).map (Prod.map id .ata)
  | .ahci x => (DiskOps.write fuel x buf count addr).map (Prod.map id .ahci)

instance : DiskOps Disk where
  poll := diskPoll
  write := diskWrite

end Disk

end OpenLsd
