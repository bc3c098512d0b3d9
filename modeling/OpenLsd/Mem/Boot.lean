import OpenLsd.Mem.Addr

/-!
# The memory map of the boot loader

The model of `align_boot_info`.
-/

namespace OpenLsd

def MMAP_FREE : Nat := 1

/-- `struct mmap_entry`, without its flags. -/
structure MmapEntry where
  addr : Nat
  len : Nat
  type : Nat
  deriving DecidableEq, Repr

namespace MmapEntry

/-- What the loop of `align_boot_info` makes of an entry. All of the arithmetic is of 64-bit values. -/
def align (e : MmapEntry) : MmapEntry :=
  if e.type = MMAP_FREE then
    let base := roundUp e.addr
    let last := sub64 e.len (sub64 base e.addr)
    let last := roundDown (add64 base last)
    { e with addr := base, len := sub64 last base }
  else
    let base := roundDown e.addr
    let last := add64 e.len (sub64 e.addr base)
    let last := roundUp (add64 base last)
    { e with addr := base, len := sub64 last base }

end MmapEntry

def alignBootInfo (mmap : List MmapEntry) : List MmapEntry := mmap.map MmapEntry.align

end OpenLsd
