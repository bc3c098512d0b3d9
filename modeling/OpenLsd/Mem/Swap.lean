import OpenLsd.Dev.Disk
import OpenLsd.Mem.Lookup

/-!
# Swapping pages

The model of `kernel/mem/swap.c`. A slot is a run of sectors of the swap disk that holds a page. The table `swap_entries` is
written and never read, and is left out. To take away the present bit of the page that goes out, `swap_page_out` treats what
`page_lookup` returns as a pointer to an entry: it is a pointer to a `struct page_info`, which starts with the pointer of a
list node. That step is apart, in `clearPresent`, since it changes nothing that the rest of the function reads. A page goes out
to a disk of any driver. What comes in is followed for the ATA driver, which copies the bytes itself.
-/

namespace OpenLsd

def SWAP_SECTORS_PER_PAGE : Nat := PAGE_SIZE / SECTOR_SIZE
def SWAP_SIZE_MB : Nat := 128
def SWAP_ENTRIES : Nat := SWAP_SIZE_MB * 1024 * 1024 / PAGE_SIZE

/-- The frames, and the disk that `swap_init` has found. -/
structure SwapState (D : Type) where
  phys : Phys
  sdisk : Option D

namespace SwapState

variable {D : Type} [DiskOps D]

/-- The loop of `swap_page_in`. -/
def readLoop (x : AtaDisk) (buf : Nat → UInt8) (lba : Nat) : Nat → Option (Int × (Nat → UInt8) × AtaDisk)
  | 0 => none
  | fuel + 1 => do
    let (ret, buf, x) ← x.ataRead fuel buf SWAP_SECTORS_PER_PAGE lba
    if ret = -EAGAIN then readLoop x.ataPoll.2 buf lba fuel else return (ret, buf, x)

/-- The loop of `swap_page_out`. -/
def writeLoop (x : D) (buf : Nat → UInt8) (lba : Nat) : Nat → Option (Int × D)
  | 0 => none
  | fuel + 1 => do
    let (ret, x) ← DiskOps.write fuel x buf SWAP_SECTORS_PER_PAGE lba
    if ret = -EAGAIN then writeLoop (DiskOps.poll x).2 buf lba fuel else return (ret, x)

/-- `swap_page_in`. Without a disk it follows a `NULL` pointer. -/
def swapPageIn (fuel : Nat) (s : SwapState AtaDisk) (pp slot : Nat) : Option (Int × SwapState AtaDisk) := do
  let x ← s.sdisk
  let (ret, buf, x) ← readLoop x (s.phys.bytes pp) (slot * SWAP_SECTORS_PER_PAGE) fuel
  let s := { s with phys := { s.phys with bytes := Function.update s.phys.bytes pp buf }, sdisk := some x }
  return (if ret < 0 then ret else 0, s)

/-- `swap_page_out`. -/
def swapPageOut (fuel : Nat) (s : SwapState D) (pp slot : Nat) : Option (Int × SwapState D) :=
  match s.sdisk with
  | none => some (-1, s)
  | some x =>
    if (s.phys.pages pp).owner.isNone then some (-EINVAL, s)
    else do
      let (ret, x) ← writeLoop x (s.phys.bytes pp) (slot * SWAP_SECTORS_PER_PAGE) fuel
      if ret < 0 then return (ret, { s with sdisk := some x })
      else return (0, { s with phys := s.phys.pageFree pp, sdisk := some x })

end SwapState

/-- The page tables of the tasks, and the words at which the `struct page_info`s of the frames begin. -/
structure SwapTables where
  taskPml4 : Nat → Pml4
  ppNodeNext : Nat → Nat

/-- The step of `swap_page_out` that is to take away the present bit: it is tested and cleared in the word at which the
`struct page_info` begins. -/
def SwapTables.clearPresent (npages : Nat) (t : SwapTables) (task va : Nat) : Kernel SwapTables := do
  let (pte, _) ← pageLookupStore npages (t.taskPml4 task) va
  match pte with
  | none => .ok t
  | some pp =>
    if (t.ppNodeNext pp).testBit 0 then .ok { t with ppNodeNext := Function.update t.ppNodeNext pp (t.ppNodeNext pp - 1) }
    else .ok t

/-- `swap_page_out` with the page tables. -/
def SwapState.swapPageOutTables {D : Type} [DiskOps D] (fuel : Nat) (s : SwapState D) (t : SwapTables) (pp slot : Nat) :
    Kernel (Option (Int × SwapState D × SwapTables)) :=
  match s.swapPageOut fuel pp slot, (s.phys.pages pp).owner with
  | none, _ => .ok none
  | some (ret, s'), some task =>
    if ret = 0 then do
      let t' ← t.clearPresent s.phys.npages task (s.phys.pages pp).virtAddr
      .ok (some (ret, s', t'))
    else .ok (some (ret, s', t))
  | some (ret, s'), none => .ok (some (ret, s', t))

end OpenLsd
