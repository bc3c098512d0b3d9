import OpenLsd.Mem.Buddy

/-!
# Addresses

Virtual addresses are 64-bit values, and the kernel computes with them modulo `2 ^ 64`. The layout is the one of
`include/x86-64/paging.h` and `include/x86-64/memory.h`.
-/

namespace OpenLsd

/-- Addition of 64-bit values. -/
def add64 (a b : Nat) : Nat := (a + b) % 2 ^ 64

/-- Subtraction of 64-bit values. -/
def sub64 (a b : Nat) : Nat := (a + (2 ^ 64 - b % 2 ^ 64)) % 2 ^ 64

def pageAligned (a : Nat) : Prop := a % PAGE_SIZE = 0

instance (a : Nat) : Decidable (pageAligned a) := inferInstanceAs (Decidable (a % PAGE_SIZE = 0))

/-- `ROUNDDOWN(a, PAGE_SIZE)`. -/
def roundDown (a : Nat) : Nat := a / PAGE_SIZE * PAGE_SIZE

/-- `ROUNDUP(a, PAGE_SIZE)`. -/
def roundUp (a : Nat) : Nat := roundDown (add64 a (PAGE_SIZE - 1))

def PAGE_TABLE_ENTRIES : Nat := 512

/-- What one entry of a page table at each level maps. -/
def PAGE_TABLE_SPAN : Nat := PAGE_TABLE_ENTRIES * PAGE_SIZE
def PAGE_DIR_SPAN : Nat := PAGE_TABLE_ENTRIES * PAGE_TABLE_SPAN
def PDPT_SPAN : Nat := PAGE_TABLE_ENTRIES * PAGE_DIR_SPAN

def HPAGE_SIZE : Nat := PAGE_TABLE_SPAN

/-- The end of the user half. -/
def USER_LIM : Nat := 0x800000000000

/-- The start of the kernel half. -/
def KERNEL_VMA : Nat := 0xFFFF800000000000

/-- Where the array of pages is after boot. -/
def KPAGES : Nat := 0xFFFFFF8000000000

/-- The address of the direct map for a physical address. -/
def KADDR (pa : Nat) : Nat := pa + KERNEL_VMA

/-- The top of the stack that a task starts with. -/
def USTACK_TOP : Nat := USER_LIM - 2 * PAGE_SIZE

/-- `sign_extend`: the upper 16 bits of an address outside the user half are set. -/
def signExtend (addr : Nat) : Nat := if addr < USER_LIM then addr else 0xFFFF000000000000 + addr % 2 ^ 48

/-- The boundaries of the block of `span` bytes around an address: `ptbl_start`, `ptbl_end` and their like. -/
def blockStart (span addr : Nat) : Nat := addr / span * span
def blockEnd (span addr : Nat) : Nat := addr / span * span + (span - 1)

end OpenLsd
