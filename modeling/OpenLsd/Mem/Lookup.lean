import OpenLsd.Mem.PageTable

/-!
# Looking up a page

`page_lookup` of `kernel/mem/lookup.c` as the source has it: a walk over the range of one page from the address on, whose
callbacks store a pointer to the entry that they find, and `pa2page` of the frame of that entry. `lookup` is the walk of the
hardware, down the four levels to the one entry that maps the address.
-/

namespace OpenLsd

/-- A pointer to an entry that maps memory: to a PDE or to a PTE, told from the others by the first address that it maps. -/
structure EntryPtr where
  pde : Bool
  base : Nat
  deriving DecidableEq, Repr

/-- `struct lookup_info`, with the entry that is pointed to. -/
abbrev LookupInfo := Option (EntryPtr × Entry)

def lookupPte (base : Nat) (info : LookupInfo) (e : Entry) : LookupInfo :=
  if e.present = true then some (⟨false, base⟩, e) else info

def lookupPde (base : Nat) (info : LookupInfo) (e : Pde) : LookupInfo :=
  if e.entry.present = true ∧ e.entry.huge = true then some (⟨true, base⟩, e.entry) else info

/-- The callbacks of `page_lookup`. -/
def lookupWalker : Walker LookupInfo where
  pteCallback := fun base _ info e => .ok (lookupPte base info e, e)
  pdeCallback := fun base _ info e => .ok (lookupPde base info e, e)

/-- `pa2page`: a frame that is not among the `npages` of the machine, as one of a device, is a panic. -/
def pa2page (npages frame : Nat) : Kernel Nat := if frame < npages then .ok frame else .error .assertion

/-- `page_lookup`: the page that it returns, and the pointer that it stores. -/
def pageLookupStore (npages : Nat) (t : Pml4) (va : Nat) : Kernel (Option Nat × Option EntryPtr) := do
  let (info, _) ← lookupWalker.walkPageRange va (add64 va PAGE_SIZE) none t
  match info with
  | none => .ok (none, none)
  | some (ptr, e) =>
    let pp ← pa2page npages e.frame
    .ok (some pp, some ptr)

end OpenLsd
